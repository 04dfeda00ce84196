import SymbolicFlow.Machine

/-!
# The x86-64 machine

Sixteen general registers, the instruction pointer, the flags and sixteen vector
registers, numbered in this order.
-/

set_option autoImplicit false

namespace SymbolicFlow.Machine.X64

def names : List String :=
  ["rax", "rcx", "rdx", "rbx", "rsp", "rbp", "rsi", "rdi",
    "r8", "r9", "r10", "r11", "r12", "r13", "r14", "r15",
    "rip", "rflags",
    "xmm0", "xmm1", "xmm2", "xmm3", "xmm4", "xmm5", "xmm6", "xmm7",
    "xmm8", "xmm9", "xmm10", "xmm11", "xmm12", "xmm13", "xmm14", "xmm15"]

def rax : Register := ⟨0⟩
def rcx : Register := ⟨1⟩
def rdx : Register := ⟨2⟩
def rbx : Register := ⟨3⟩
def rsp : Register := ⟨4⟩
def rbp : Register := ⟨5⟩
def rsi : Register := ⟨6⟩
def rdi : Register := ⟨7⟩
def r8 : Register := ⟨8⟩
def r9 : Register := ⟨9⟩
def r10 : Register := ⟨10⟩
def r11 : Register := ⟨11⟩
def r12 : Register := ⟨12⟩
def r13 : Register := ⟨13⟩
def r14 : Register := ⟨14⟩
def r15 : Register := ⟨15⟩
def rip : Register := ⟨16⟩
def rflags : Register := ⟨17⟩

def scalars : List Register :=
  [rax, rcx, rdx, rbx, rsp, rbp, rsi, rdi, r8, r9, r10, r11, r12, r13, r14, r15, rip, rflags]

def vector? (n : Nat) : Option Register :=
  if n < 16 then some ⟨(18 + n).toUInt16⟩ else none

/-- A number outside the table is shown as `r?` and the number. -/
def registerName (register : Register) : String :=
  (names[register.number.toNat]?).getD ("r?" ++ toString register.number.toNat)

end SymbolicFlow.Machine.X64

namespace SymbolicFlow.Machine

def x64 : Machine where
  name := "x86-64"
  programCounter := X64.rip
  registerName := X64.registerName

end SymbolicFlow.Machine

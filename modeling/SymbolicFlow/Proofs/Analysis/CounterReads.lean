import SymbolicFlow.Machine.X64
import SymbolicFlow.Proofs.Analysis.Lasting
import SymbolicFlow.Proofs.Ssa.CounterReads

/-!
# Reads of the program counter in an analysis

A session starts with every read of the program counter bound to the address that it sees, and
whatever happens afterwards only adds to the store.
-/

set_option autoImplicit false

namespace SymbolicFlow

open Ssa (Statement)

/-! ## The seed -/

namespace Store

def Sees (store : Store) (read : VarId × UInt64) : Prop :=
  ∃ value, store.valueOf? read.1 = some value ∧
    store.node? value = some ⟨.immediate read.2.toInt64, false⟩

/-- Every read of the program counter is bound to the address that is read there. -/
def SeesCounters (store : Store) (form : Ssa.Form) : Prop :=
  ∀ read ∈ form.counterReads, store.Sees read

variable {store later : Store}

theorem Sees.mono {read : VarId × UInt64} (sees : store.Sees read) (grows : store.Extends later) :
    later.Sees read := by
  obtain ⟨value, bound, found⟩ := sees
  exact ⟨value, grows.values bound, grows.node? found⟩

theorem SeesCounters.mono {form : Ssa.Form} (sees : store.SeesCounters form)
    (grows : store.Extends later) : later.SeesCounters form :=
  fun read listed => (sees read listed).mono grows

theorem lasting_seesCounters (form : Ssa.Form) : Lasting (fun _ => True) (·.SeesCounters form) where
  alloc := fun node sees => sees.mono (extends_alloc _ node)
  bind := fun _ value sees => sees.mono (extends_bind _ _ value)
  placeholder := fun {store} var sees =>
    sees.mono (Evaluation.extends_placeholder { store } var)

def seedRead (store : Store) (read : VarId × UInt64) : Store :=
  ((store.immediate read.2.toInt64).2.bind read.1 (store.immediate read.2.toInt64).1).2

theorem extends_seedRead (store : Store) (read : VarId × UInt64) :
    store.Extends (store.seedRead read) :=
  (store.extends_alloc _).trans (extends_bind _ _ _)

theorem sees_seedRead {read : VarId × UInt64} (unbound : store.valueOf? read.1 = none) :
    (store.seedRead read).Sees read := by
  have missing : (store.immediate read.2.toInt64).2.bindings[read.1]? = none := unbound
  refine ⟨(store.immediate read.2.toInt64).1, ?_, ?_⟩
  · rw [seedRead, valueOf?_bind_eq, bind, missing]
  · rw [seedRead, node?, arena_bind]
    exact Array.getElem?_push_size

theorem valueOf?_seedRead {read : VarId × UInt64} {var : VarId} (other : var ≠ read.1)
    (unbound : store.valueOf? var = none) : (store.seedRead read).valueOf? var = none := by
  cases found : (store.seedRead read).valueOf? var with
  | none => rfl
  | some bound =>
      rcases valueOf?_bind_cases found with before | ⟨_, same, _⟩
      · exact before.symm.trans unbound
      · exact absurd same other

theorem extends_foldl_seedRead (store : Store) (reads : List (VarId × UInt64)) :
    store.Extends (reads.foldl seedRead store) := by
  induction reads generalizing store with
  | nil => exact .refl store
  | cons read reads ih => exact (store.extends_seedRead read).trans (ih (store.seedRead read))

/-- The first value of a variable stays, so the reads must differ in their variables. -/
theorem sees_foldl_seedRead {reads : List (VarId × UInt64)} (distinct : (reads.map (·.1)).Nodup)
    (unbound : ∀ read ∈ reads, store.valueOf? read.1 = none) :
    ∀ read ∈ reads, (reads.foldl seedRead store).Sees read := by
  induction reads generalizing store with
  | nil => simp
  | cons first reads ih =>
      rw [List.map_cons, List.nodup_cons] at distinct
      intro read listed
      rcases List.mem_cons.mp listed with rfl | behind
      · exact (sees_seedRead (unbound read List.mem_cons_self)).mono
          (extends_foldl_seedRead _ reads)
      · refine ih distinct.2 ?_ read behind
        intro later member
        have other : later.1 ≠ first.1 :=
          fun same => distinct.1 (same ▸ List.mem_map_of_mem member)
        exact valueOf?_seedRead other (unbound later (List.mem_cons_of_mem _ member))

end Store

theorem Session.seed_eq_foldl (reads : Array (VarId × UInt64)) :
    Session.seed reads = reads.toList.foldl Store.seedRead Store.empty := by
  rw [Session.seed, ← Array.foldl_toList]
  rfl

theorem Session.seesCounters_seed {procedure : Procedure} (wellFormed : procedure.WellFormed) :
    (Session.seed procedure.ssa.counterReads).SeesCounters procedure.ssa := by
  obtain ⟨_, _, _, construction⟩ := Ssa.exists_construction wellFormed
  have distinct := construction.valid.counterDistinct
  rw [← construction.counterReads] at distinct
  have unbound (read : VarId × UInt64) : Store.empty.valueOf? read.1 = none := by
    simp [Store.empty, Store.valueOf?]
  have seeded := Store.sees_foldl_seedRead distinct fun read _ => unbound read
  intro read listed
  rw [Session.seed_eq_foldl]
  exact seeded read (Array.mem_toList_iff.mpr listed)

/-- Each read of the program counter has a variable of its own, and in all that a client brings
about or is shown, and after any requests at the end, this variable is bound to the address behind
the instruction. -/
theorem counterReads_stay_seeded {procedure : Procedure} (built : procedure.Built) :
    procedure.ssa.SeparatesCounter procedure ∧
      ∀ {σ : Type} (client : Client σ),
        (∀ session, client.Turns procedure (client.initial procedure).1 session →
          session.store.SeesCounters procedure.ssa) ∧
        (∀ statement result store,
          Call.shown statement result store ∈ client.transcript procedure →
            store.SeesCounters procedure.ssa) ∧
        ∀ requests : List Request,
          (requests.foldl Session.serve (client.analyse procedure).1).store.SeesCounters
            procedure.ssa := by
  have wellFormed := built.wellFormed
  refine ⟨Ssa.separatesCounter_ssa wellFormed, ?_⟩
  intro σ client
  have always := Client.always_of_lasting client wellFormed
    (Store.lasting_seesCounters procedure.ssa) (fun _ _ _ => trivial)
    (Session.seesCounters_seed wellFormed)
  refine ⟨?_, ?_, always.finished⟩
  · intro session turns
    exact always.brought turns []
  · intro statement result store isShown
    exact always.shown isShown

/-! ## A procedure at the end of the address space -/

namespace LastAddress

open Machine.X64

def exchange : Instruction where
  address := 0xfffffffffffffff8
  mnemonic := "xchg"
  family := .move
  operands := [⟨.register rax, .readWrite⟩, ⟨.register rip, .readWrite⟩]

/-- Reads the program counter as the base of a reference and once more without an operand; the
address behind the instruction is zero. -/
def load : Instruction where
  address := 0xfffffffffffffffc
  mnemonic := "mov"
  family := .move
  operands := [⟨.relativeMemory { offset := 64 }, .read⟩, ⟨.register rax, .write⟩]
  implicitReads := [rip]

def procedure : Procedure where
  name := "last_address"
  machine := .x64
  entry := 0
  graph :=
    { nodes := #[⟨0, 0, false, #[exchange, load]⟩]
      edges := #[]
      outgoing := #[[]]
      incoming := #[[]] }

theorem built : procedure.Built :=
  ⟨_, .addBlock false #[exchange, load] (.start "last_address" .x64), rfl⟩

end LastAddress

theorem counterReads_stay_seeded_lastAddress :
    LastAddress.procedure.Built ∧
      LastAddress.procedure.ssa.counterReads.toList.map (·.2) =
        [0xfffffffffffffffc, 0, 0] ∧
      LastAddress.procedure.ssa.SeparatesCounter LastAddress.procedure ∧
      (Client.idle.analyse LastAddress.procedure).1.store.SeesCounters
        LastAddress.procedure.ssa :=
  ⟨LastAddress.built, by decide +kernel, (counterReads_stay_seeded LastAddress.built).1,
    ((counterReads_stay_seeded LastAddress.built).2 Client.idle).2.2 []⟩

end SymbolicFlow

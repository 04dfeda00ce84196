import SymbolicFlow.Machine.X64
import SymbolicFlow.Proofs.Ssa.Orderly
import SymbolicFlow.Proofs.Value.Reading
import SymbolicFlow.Proofs.Value.Rendering
import SymbolicFlow.Value.Store

/-!
# The printed text as a key

Two values are printed alike just when their expressions are equal up to constants that are not
printed.  `Tree.masked` leaves a gap in place of each such constant: one that is not the whole value
and does not lie inside an address.

This needs labels that can be read back.  The variables of a single-assignment form have them:
register and version tell variables apart, and the underscore between them tells a label from
everything else that is printed.
-/

set_option autoImplicit false

namespace SymbolicFlow

open Text

/-! ## What is printed of an expression -/

/-- The expression with a gap in place of every constant that is not printed: a constant is printed
where it is the whole value or inside an address.  An address begins at a loaded value; it goes on in
the operands of sums and differences, and in those of no other operator.  The expression of a value
whose nodes refer to earlier ones has no gaps before. -/
def Tree.masked (inAddress isRoot : Bool) : Tree → Tree
  | .absent => .absent
  | .immediate value loaded =>
      if inAddress || loaded || isRoot then .immediate value loaded else .absent
  | .register var loaded => .register var loaded
  | .memory address loaded => .memory address loaded
  | .binary operator left right loaded =>
      let passed := operator.isAdditive && (inAddress || loaded)
      .binary operator (left.masked passed false) (right.masked passed false) loaded
  | .unary operator operand loaded => .unary operator (operand.masked false false) loaded

namespace Tree

theorem conventional_masked {tree : Tree} (conventional : tree.Conventional)
    (inAddress isRoot : Bool) : (tree.masked inAddress isRoot).Conventional := by
  induction tree generalizing inAddress isRoot with
  | immediate value loaded =>
      simp only [masked]
      split
      · trivial
      · trivial
  | binary operator left right loaded ihLeft ihRight =>
      exact ⟨conventional.1, ihLeft conventional.2.1 _ _, ihRight conventional.2.2 _ _⟩
  | unary operator operand loaded ih => exact ⟨conventional.1, ih conventional.2 _ _⟩
  | _ => trivial

theorem toList_bracket (loaded : Bool) (text : String) :
    (bracket loaded text).toList = enclose loaded text.toList := by
  cases loaded <;> simp [bracket, enclose]

theorem toList_render (label : VarId → String) (inAddress isRoot : Bool) (tree : Tree) :
    (tree.render label inAddress isRoot).toList = (tree.masked inAddress isRoot).spell label := by
  induction tree generalizing inAddress isRoot with
  | absent => rfl
  | immediate value loaded =>
      rw [render, masked, toList_bracket]
      split
      · rfl
      · rename_i hidden
        have bare : loaded = false := by simp_all
        simp [bare, enclose, spell]
  | register var loaded => rw [render, masked, toList_bracket, spell]
  | memory address loaded =>
      rw [render, masked, toList_bracket, spell]
      simp
  | binary operator left right loaded ihLeft ihRight =>
      simp [render, masked, toList_bracket, spell, ihLeft, ihRight]
  | unary operator operand loaded ih =>
      simp [render, masked, toList_bracket, spell, ih]

/-- Printing tells conventional expressions apart up to constants that are not printed. -/
theorem render_eq_iff {label : VarId → String} (readable : Readable label) {tree other : Tree}
    (conventional : tree.Conventional) (otherConventional : other.Conventional)
    (inAddress isRoot : Bool) :
    tree.render label inAddress isRoot = other.render label inAddress isRoot ↔
      tree.masked inAddress isRoot = other.masked inAddress isRoot := by
  rw [← String.toList_inj, toList_render, toList_render]
  constructor
  · exact spell_inj readable (conventional_masked conventional _ _)
      (conventional_masked otherConventional _ _)
  · intro same
    rw [same]

end Tree

/-! ## Labels -/

structure Machine.PlainNames (machine : Machine) : Prop where
  injective : Function.Injective machine.registerName
  plain : ∀ register, ∀ char ∈ (machine.registerName register).toList,
    char.isAlpha = true ∨ char.isDigit = true ∨ char = '?'

namespace Machine.X64

theorem names_ne_numbered (index : Fin names.length) (n : Nat) :
    (names.get index).toList ≠ 'r' :: '?' :: Nat.toDigits 10 n := by
  have noQuestion : ∀ name ∈ names, '?' ∉ name.toList := by decide
  intro same
  have missing := noQuestion _ (List.get_mem names index)
  rw [same] at missing
  simp at missing

theorem registerName_cases (register : Register) :
    (∃ inside : register.number.toNat < names.length,
      registerName register = names.get ⟨register.number.toNat, inside⟩) ∨
    (registerName register).toList = 'r' :: '?' :: Nat.toDigits 10 register.number.toNat := by
  by_cases inside : register.number.toNat < names.length
  · left
    exact ⟨inside, by simp [registerName, List.getElem?_eq_getElem inside]⟩
  · right
    simp [registerName, List.getElem?_eq_none (Nat.le_of_not_lt inside)]

theorem plainNames : Machine.x64.PlainNames := by
  have distinct : names.Nodup := by decide
  have plain : (names.all fun name => name.toList.all fun char =>
      char.isAlpha || char.isDigit || char == '?') = true := by decide
  constructor
  · intro register other same
    have sameName : registerName register = registerName other := same
    have sameNumber : register.number.toNat = other.number.toNat := by
      rcases registerName_cases register with ⟨inside, listed⟩ | numbered
      · rcases registerName_cases other with ⟨otherInside, otherListed⟩ | otherNumbered
        · rw [listed, otherListed] at sameName
          exact Fin.mk.inj (List.nodup_iff_injective_get.mp distinct sameName)
        · rw [← sameName, listed] at otherNumbered
          exact absurd otherNumbered (names_ne_numbered _ _)
      · rcases registerName_cases other with ⟨otherInside, otherListed⟩ | otherNumbered
        · rw [sameName, otherListed] at numbered
          exact absurd numbered (names_ne_numbered _ _)
        · rw [sameName, otherNumbered] at numbered
          exact (toDigits_inj (by decide) (by decide)
            (List.cons.inj (List.cons.inj numbered).2).2).symm
    exact congrArg Register.mk (UInt16.toNat_inj.mp sameNumber)
  · intro register char member
    have named : char ∈ (registerName register).toList := member
    rcases registerName_cases register with ⟨inside, listed⟩ | numbered
    · rw [listed] at named
      have tested := List.all_eq_true.mp
        (List.all_eq_true.mp plain _ (List.get_mem names _)) char named
      simpa [or_assoc] using tested
    · rw [numbered] at named
      rcases List.mem_cons.mp named with rfl | behind
      · decide
      · rcases List.mem_cons.mp behind with rfl | digit
        · decide
        · exact Or.inr (Or.inl (isDigit_toDigits char digit))

end Machine.X64

namespace Ssa

theorem eq_of_version {procedure : Procedure} (wellFormed : procedure.WellFormed)
    {var other : VarId} {named otherNamed : Variable}
    (found : procedure.ssa.var? var = some named)
    (otherFound : procedure.ssa.var? other = some otherNamed)
    (sameRegister : named.register = otherNamed.register)
    (sameVersion : named.version = otherNamed.version) : var = other := by
  obtain ⟨_, _, naming, construction⟩ := exists_construction wellFormed
  rw [Form.var?, construction.vars] at found otherFound
  exact construction.valid.numbered.distinct found otherFound sameRegister sameVersion

section Labels

variable {form : Form} {machine : Machine} {var : VarId}

theorem toList_label_of_some {named : Variable} (found : form.var? var = some named) :
    (form.label machine var).toList =
      (machine.registerName named.register).toList ++ '_' :: Nat.toDigits 10 named.version := by
  simp [Form.label, found]

theorem toList_label_of_none (missing : form.var? var = none) :
    (form.label machine var).toList = 'v' :: Nat.toDigits 10 var := by
  simp [Form.label, missing, varName]

variable {procedure : Procedure} (names : procedure.machine.PlainNames)
include names

theorem underscore_notMem_name (register : Register) :
    '_' ∉ (procedure.machine.registerName register).toList := by
  intro member
  have plain := names.plain register '_' member
  revert plain
  decide

theorem label_injective (wellFormed : procedure.WellFormed) :
    Function.Injective (procedure.ssa.label procedure.machine) := by
  intro var other same
  have noUnderscore := underscore_notMem_name names
  have texts := congrArg String.toList same
  cases found : procedure.ssa.var? var with
  | none =>
      rw [toList_label_of_none found] at texts
      cases otherFound : procedure.ssa.var? other with
      | none =>
          rw [toList_label_of_none otherFound] at texts
          exact toDigits_inj (by decide) (by decide) (List.cons.inj texts).2
      | some otherNamed =>
          rw [toList_label_of_some otherFound] at texts
          have member : '_' ∈ 'v' :: Nat.toDigits 10 var := by simp [texts]
          exact absurd member (by simp)
  | some named =>
      rw [toList_label_of_some found] at texts
      cases otherFound : procedure.ssa.var? other with
      | none =>
          rw [toList_label_of_none otherFound] at texts
          have member : '_' ∈ 'v' :: Nat.toDigits 10 other := by simp [← texts]
          exact absurd member (by simp)
      | some otherNamed =>
          rw [toList_label_of_some otherFound] at texts
          obtain ⟨registers, _, versions⟩ := (List.append_cons_inj_of_notMem (noUnderscore _)
            Nat.underscore_not_in_toDigits).mp texts
          exact eq_of_version wellFormed found otherFound
            (names.injective (String.toList_inj.mp registers))
            (toDigits_inj (by decide) (by decide) versions)

theorem isWord_label (var : VarId) : IsWord (procedure.ssa.label procedure.machine var).toList := by
  have digits : ∀ n, IsWord (Nat.toDigits 10 n) := fun n => .of_isDigit isDigit_toDigits
  have marks : (punctuation.any fun char =>
      char.isAlpha || char.isDigit || char == '?') = false := by decide
  intro char member
  cases found : procedure.ssa.var? var with
  | none =>
      rw [toList_label_of_none found] at member
      rcases List.mem_cons.mp member with rfl | digit
      · decide
      · exact digits _ char digit
  | some named =>
      rw [toList_label_of_some found] at member
      rcases List.mem_append.mp member with name | behind
      · have kind := names.plain _ char name
        exact isWordChar_of marks (by simpa [or_assoc] using kind)
      · rcases List.mem_cons.mp behind with rfl | digit
        · decide
        · exact digits _ char digit

theorem readable_label (wellFormed : procedure.WellFormed) :
    Readable (procedure.ssa.label procedure.machine) := by
  refine ⟨label_injective names wellFormed, isWord_label names, ?_⟩
  intro var
  cases found : procedure.ssa.var? var with
  | none =>
      apply Kind.ofWord_name _ (Or.inr rfl)
      simp [toList_label_of_none found]
  | some named =>
      apply Kind.ofWord_name _ (Or.inl rfl)
      simp [toList_label_of_some found]

end Labels

end Ssa

/-! ## Values of a store -/

theorem Store.sameAddress_iff (store : Store) (label : VarId → String) (value other : ValueId) :
    store.sameAddress label value other = true ↔
      store.arena.render label value = store.arena.render label other := by
  rw [sameAddress, Bool.or_eq_true, beq_iff_eq, beq_iff_eq]
  constructor
  · intro either
    rcases either with rfl | same
    · rfl
    · exact same
  · exact Or.inr

/-- Two values of a store are printed alike, and taken for the same address, just when their
expressions agree up to constants that are not printed. -/
theorem Store.render_faithful {procedure : Procedure} (built : procedure.Built)
    (names : procedure.machine.PlainNames) (store : Store) {value other : ValueId}
    (conventional : (store.arena.tree value).Conventional)
    (otherConventional : (store.arena.tree other).Conventional) :
    (store.arena.render (procedure.ssa.label procedure.machine) value =
        store.arena.render (procedure.ssa.label procedure.machine) other ↔
      (store.arena.tree value).masked false true = (store.arena.tree other).masked false true) ∧
    (store.sameAddress (procedure.ssa.label procedure.machine) value other = true ↔
      (store.arena.tree value).masked false true =
        (store.arena.tree other).masked false true) := by
  have readable := Ssa.readable_label names built.wellFormed
  have printed := Tree.render_eq_iff readable conventional otherConventional false true
  rw [← Arena.render_eq, ← Arena.render_eq] at printed
  exact ⟨printed, (store.sameAddress_iff _ value other).trans printed⟩

namespace Scaling

def load : Array Instruction :=
  #[{ address := 0, mnemonic := "mov", family := .move
      operands := [⟨.memory { base := some Machine.X64.rbx, offset := 8 }, .read⟩,
        ⟨.register Machine.X64.rax, .write⟩] }]

def procedure : Procedure where
  name := "scaling"
  machine := .x64
  entry := 0
  graph :=
    { nodes := #[⟨0, 0, false, load⟩]
      edges := #[]
      outgoing := #[[]]
      incoming := #[[]] }

theorem built : procedure.Built := ⟨_, .addBlock false load (.start "scaling" .x64), rfl⟩

/-- Two loads with different offsets, and two products with different factors. -/
def store : Store where
  arena := #[⟨.register 0, false⟩, ⟨.immediate 8, false⟩, ⟨.immediate 16, false⟩,
    ⟨.binary .add 1 0, true⟩, ⟨.binary .add 2 0, true⟩,
    ⟨.binary .mul 0 1, false⟩, ⟨.binary .mul 0 2, false⟩]

end Scaling

-- A factor is not printed, and an offset is.
theorem Store.render_faithful_scaling :
    Scaling.procedure.Built ∧ Scaling.procedure.machine.PlainNames ∧
      Scaling.store.sameAddress (Scaling.procedure.ssa.label .x64) 5 6 = true ∧
      Scaling.store.sameAddress (Scaling.procedure.ssa.label .x64) 3 4 ≠ true := by
  have conventional : ∀ id ∈ [3, 4, 5, 6], (Scaling.store.arena.tree id).Conventional := by
    decide +kernel
  have products := render_faithful Scaling.built Machine.X64.plainNames Scaling.store
    (conventional 5 (by decide)) (conventional 6 (by decide))
  have loads := render_faithful Scaling.built Machine.X64.plainNames Scaling.store
    (conventional 3 (by decide)) (conventional 4 (by decide))
  refine ⟨Scaling.built, Machine.X64.plainNames, products.2.mpr ?_, mt loads.2.mp ?_⟩
  · decide +kernel
  · decide +kernel

end SymbolicFlow

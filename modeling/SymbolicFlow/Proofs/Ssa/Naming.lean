import Mathlib.Data.List.Forall2
import Mathlib.Data.List.Nodup
import Mathlib.Tactic.Common
import SymbolicFlow.Proofs.Ssa.Walk
import SymbolicFlow.Ssa.Naming

/-!
# What naming hands out

A naming only grows: variables keep what they were made with, and a register that has an entry
variable keeps it (`Extends`).  In a `Valid` naming the variables of version zero are exactly
the entry variables, a read of the program counter has a variable that nothing defines, and
register and version together tell variables apart.

For each operation there is one statement of what it yields, relative to the naming after it.
-/

set_option autoImplicit false

namespace SymbolicFlow.Ssa

namespace Naming

structure Extends (earlier later : Naming) : Prop where
  size : earlier.vars.size ≤ later.vars.size
  vars : ∀ {var : VarId} {named : Variable},
    earlier.vars[var]? = some named → later.vars[var]? = some named
  entries : ∀ {register : Register} {var : VarId},
    earlier.entryValues.get? register = some var → later.entryValues.get? register = some var
  counters : ∀ {pair : VarId × UInt64}, pair ∈ earlier.counterReads → pair ∈ later.counterReads

structure Numbered (naming : Naming) : Prop where
  bounded : ∀ {var : VarId} {named : Variable}, naming.vars[var]? = some named →
    named.version ≤ (naming.versions.get? named.register).getD 0
  distinct : ∀ {var other : VarId} {named otherNamed : Variable},
    naming.vars[var]? = some named → naming.vars[other]? = some otherNamed →
    named.register = otherNamed.register → named.version = otherNamed.version → var = other

structure Valid (programCounter : Register) (naming : Naming) : Prop where
  entryFound : ∀ {register : Register} {var : VarId},
    naming.entryValues.get? register = some var → naming.vars[var]? = some ⟨register, 0, none⟩
  entryOnly : ∀ {var : VarId} {named : Variable}, naming.vars[var]? = some named →
    named.version = 0 → naming.entryValues.get? named.register = some var
  counterFound : ∀ {pair : VarId × UInt64}, pair ∈ naming.counterReads →
    ∃ version, naming.vars[pair.1]? = some ⟨programCounter, version, none⟩
  counterDistinct : (naming.counterReads.toList.map (·.1)).Nodup
  numbered : naming.Numbered

def Defined (naming : Naming) (var : VarId) (location : Location) : Prop :=
  ∃ named, naming.vars[var]? = some named ∧ named.definition = some location

def DefinedFor (naming : Naming) (location : Location) (register : Register) (var : VarId) :
    Prop :=
  ∃ version, naming.vars[var]? = some ⟨register, version, some location⟩

/-- What a register other than the program counter holds in an environment, the entry variable
if the environment says nothing. -/
def Holds (naming : Naming) (environment : Environment) (register : Register) (var : VarId) :
    Prop :=
  environment.get? register = some var ∨
    environment.get? register = none ∧ naming.entryValues.get? register = some var

def Bounds (naming : Naming) (environment : Environment) : Prop :=
  ∀ (register : Register) (var : VarId),
    environment.get? register = some var → var < naming.vars.size

namespace Extends

variable {earlier later last : Naming}

theorem refl (naming : Naming) : naming.Extends naming :=
  ⟨Nat.le_refl _, fun found => found, fun found => found, fun member => member⟩

theorem trans (first : earlier.Extends later) (second : later.Extends last) :
    earlier.Extends last :=
  ⟨Nat.le_trans first.size second.size, fun found => second.vars (first.vars found),
    fun found => second.entries (first.entries found),
    fun member => second.counters (first.counters member)⟩

theorem holds (grows : earlier.Extends later) {environment : Environment} {register : Register}
    {var : VarId} (holds : earlier.Holds environment register var) :
    later.Holds environment register var := by
  rcases holds with found | ⟨missing, found⟩
  · exact Or.inl found
  · exact Or.inr ⟨missing, grows.entries found⟩

theorem bounds (grows : earlier.Extends later) {environment : Environment}
    (bounds : earlier.Bounds environment) : later.Bounds environment :=
  fun register var found => Nat.lt_of_lt_of_le (bounds register var found) grows.size

end Extends

theorem lt_size_of_getElem? {naming : Naming} {var : VarId} {named : Variable}
    (found : naming.vars[var]? = some named) : var < naming.vars.size :=
  (Array.getElem?_eq_some_iff.mp found).1

theorem Valid.lt_of_holds {programCounter : Register} {naming : Naming}
    (valid : naming.Valid programCounter) {environment : Environment} {register : Register}
    {var : VarId} (bounds : naming.Bounds environment)
    (holds : naming.Holds environment register var) : var < naming.vars.size := by
  rcases holds with found | ⟨_, found⟩
  · exact bounds register var found
  · exact lt_size_of_getElem? (valid.entryFound found)

/-! ## One variable at a time -/

section Define

variable (naming : Naming) (register : Register) (definition : Option Location)

theorem getElem?_push_of_some {vars : Array Variable} {var : VarId} {named other : Variable}
    (found : vars[var]? = some named) : (vars.push other)[var]? = some named := by
  obtain ⟨bound, _⟩ := Array.getElem?_eq_some_iff.mp found
  rw [Array.getElem?_push_lt bound, ← Array.getElem?_eq_getElem bound]
  exact found

theorem extends_define : naming.Extends (naming.define register definition).2 where
  size := by simp [define]
  vars := fun found => getElem?_push_of_some found
  entries := fun found => found
  counters := fun member => member

theorem vars_define : ∃ version, 0 < version ∧
    (naming.define register definition).2.vars =
      naming.vars.push ⟨register, version, definition⟩ :=
  ⟨_, Nat.succ_pos _, rfl⟩

theorem getElem?_define : ∃ version,
    (naming.define register definition).2.vars[naming.vars.size]? =
      some ⟨register, version, definition⟩ := by
  obtain ⟨version, _, pushed⟩ := naming.vars_define register definition
  exact ⟨version, by rw [pushed, Array.getElem?_push_size]⟩

theorem defined_define_iff (var : VarId) (location : Location) :
    (naming.define register definition).2.Defined var location ↔
      naming.Defined var location ∨ var = naming.vars.size ∧ definition = some location := by
  obtain ⟨version, _, pushed⟩ := naming.vars_define register definition
  simp only [Defined, pushed, Array.getElem?_push]
  constructor
  · rintro ⟨named, found, at_⟩
    split at found
    · rename_i last
      cases found
      exact Or.inr ⟨last, at_⟩
    · exact Or.inl ⟨named, found, at_⟩
  · rintro (⟨named, found, at_⟩ | ⟨rfl, at_⟩)
    · have old := lt_size_of_getElem? found
      exact ⟨named, by rw [if_neg (Nat.ne_of_lt old)]; exact found, at_⟩
    · exact ⟨_, if_pos rfl, at_⟩

theorem Numbered.push {naming later : Naming} {named : Variable} (numbered : naming.Numbered)
    (pushed : later.vars = naming.vars.push named)
    (grown : ∀ register, (naming.versions.get? register).getD 0 ≤
      (later.versions.get? register).getD 0)
    (bound : named.version ≤ (later.versions.get? named.register).getD 0)
    (new : ∀ {var : VarId} {other : Variable}, naming.vars[var]? = some other →
      other.register = named.register → other.version ≠ named.version) : later.Numbered := by
  constructor
  · intro var other found
    rw [pushed, Array.getElem?_push] at found
    split at found
    · cases found
      exact bound
    · exact Nat.le_trans (numbered.bounded found) (grown other.register)
  · intro var other varNamed otherNamed found otherFound sameRegister sameVersion
    rw [pushed, Array.getElem?_push] at found otherFound
    split at found
    · rename_i last
      cases found
      split at otherFound
      · rename_i alsoLast
        rw [last, alsoLast]
      · exact absurd sameVersion.symm (new otherFound sameRegister.symm)
    · split at otherFound
      · cases otherFound
        exact absurd sameVersion (new found sameRegister)
      · exact numbered.distinct found otherFound sameRegister sameVersion

theorem Numbered.define {naming : Naming} (numbered : naming.Numbered) :
    (naming.define register definition).2.Numbered := by
  have version : ((naming.define register definition).2.versions.get? register).getD 0 =
      (naming.versions.get? register).getD 0 + 1 := by
    simp [Naming.define]
  apply numbered.push rfl
  · intro other
    by_cases same : other = register
    · rw [same, version]
      exact Nat.le_succ _
    · simp [Naming.define, RegisterMap.get?_set, same]
  · exact Nat.le_of_eq version.symm
  · intro var other found sameRegister
    have old := numbered.bounded found
    rw [sameRegister] at old
    exact Nat.ne_of_lt (Nat.lt_succ_of_le old)

theorem Valid.define {naming : Naming} {programCounter : Register}
    (valid : naming.Valid programCounter) :
    (naming.define register definition).2.Valid programCounter := by
  obtain ⟨version, positive, pushed⟩ := naming.vars_define register definition
  have grows := naming.extends_define register definition
  refine ⟨?_, ?_, ?_, valid.counterDistinct, valid.numbered.define register definition⟩
  · intro other var found
    exact grows.vars (valid.entryFound found)
  · intro var named found zero
    rw [pushed, Array.getElem?_push] at found
    split at found
    · cases found
      exact absurd zero (Nat.ne_of_gt positive)
    · exact valid.entryOnly found zero
  · intro pair member
    obtain ⟨counterVersion, found⟩ := valid.counterFound member
    exact ⟨counterVersion, grows.vars found⟩

end Define

/-! ## Reading

A read may name new variables, but none that a statement defines. -/

structure Reads (programCounter : Register) (earlier later : Naming) : Prop where
  grows : earlier.Extends later
  valid : earlier.Valid programCounter → later.Valid programCounter
  defined : ∀ {var location}, later.Defined var location ↔ earlier.Defined var location

namespace Reads

variable {programCounter : Register}

theorem refl (naming : Naming) : naming.Reads programCounter naming :=
  ⟨Extends.refl naming, fun valid => valid, Iff.rfl⟩

theorem trans {earlier later last : Naming} (first : earlier.Reads programCounter later)
    (second : later.Reads programCounter last) : earlier.Reads programCounter last :=
  ⟨first.grows.trans second.grows, fun valid => second.valid (first.valid valid),
    second.defined.trans first.defined⟩

end Reads

theorem reads_entryValue (programCounter : Register) (naming : Naming) (register : Register) :
    naming.Reads programCounter (naming.entryValue register).2 := by
  unfold entryValue
  split
  · exact Reads.refl naming
  · rename_i missing
    have kept : ∀ {other : Register} {var : VarId}, naming.entryValues.get? other = some var →
        (naming.entryValues.set register naming.vars.size).get? other = some var := by
      intro other var found
      rw [RegisterMap.get?_set, if_neg, found]
      rintro rfl
      rw [missing] at found
      cases found
    refine ⟨⟨by simp, getElem?_push_of_some, kept, fun member => member⟩, fun valid => ?_, ?_⟩
    · -- A variable of version zero for the register would have been found.
      have new : ∀ {var : VarId} {other : Variable}, naming.vars[var]? = some other →
          other.register = register → other.version ≠ 0 := by
        intro var other found sameRegister zero
        have entry := valid.entryOnly found zero
        rw [sameRegister, missing] at entry
        cases entry
      refine ⟨?_, ?_, ?_, valid.counterDistinct,
        valid.numbered.push rfl (fun _ => Nat.le_refl _) (Nat.zero_le _) new⟩
      · intro other var found
        rw [RegisterMap.get?_set] at found
        split at found
        · cases found
          subst other
          exact Array.getElem?_push_size
        · exact getElem?_push_of_some (valid.entryFound found)
      · intro var named found zero
        rw [Array.getElem?_push] at found
        split at found
        · rename_i last
          cases found
          subst last
          exact RegisterMap.get?_set_self _ _ _
        · exact kept (valid.entryOnly found zero)
      · intro pair member
        obtain ⟨version, found⟩ := valid.counterFound member
        exact ⟨version, getElem?_push_of_some found⟩
    · intro var location
      constructor
      · rintro ⟨named, found, defined⟩
        rw [Array.getElem?_push] at found
        split at found
        · cases found
          cases defined
        · exact ⟨named, found, defined⟩
      · rintro ⟨named, found, defined⟩
        exact ⟨named, getElem?_push_of_some found, defined⟩

theorem get?_entryValue (naming : Naming) (register : Register) :
    (naming.entryValue register).2.entryValues.get? register =
      some (naming.entryValue register).1 := by
  unfold entryValue
  split
  · assumption
  · exact RegisterMap.get?_set_self _ _ _

theorem reads_lookup (programCounter : Register) (naming : Naming) (environment : Environment)
    (register : Register) :
    naming.Reads programCounter (naming.lookup environment register).2 := by
  unfold lookup
  split
  · exact Reads.refl naming
  · exact reads_entryValue programCounter naming register

theorem holds_lookup (naming : Naming) (environment : Environment) (register : Register) :
    (naming.lookup environment register).2.Holds environment register
      (naming.lookup environment register).1 := by
  unfold lookup
  split
  · rename_i var found
    exact Or.inl found
  · rename_i missing
    exact Or.inr ⟨missing, naming.get?_entryValue register⟩

theorem reads_readCounter (naming : Naming) (programCounter : Register) (next : UInt64) :
    naming.Reads programCounter (naming.readCounter programCounter next).2 := by
  have grows := naming.extends_define programCounter none
  obtain ⟨version, found⟩ := naming.getElem?_define programCounter none
  refine ⟨⟨grows.size, grows.vars, grows.entries, fun member => ?_⟩, fun valid => ?_, ?_⟩
  · exact Array.mem_push_of_mem _ (grows.counters member)
  · have defined := valid.define programCounter none
    have numbered := defined.numbered
    refine ⟨defined.entryFound, defined.entryOnly, ?_, ?_, ⟨numbered.bounded, numbered.distinct⟩⟩
    · intro pair member
      rcases Array.mem_push.mp member with old | rfl
      · exact defined.counterFound old
      · exact ⟨version, found⟩
    · -- The new variable is none of the earlier ones, which were handed out before.
      have fresh : naming.vars.size ∉ naming.counterReads.toList.map (·.1) := by
        intro member
        obtain ⟨pair, old, same⟩ := List.mem_map.mp member
        obtain ⟨_, found⟩ := valid.counterFound (Array.mem_toList_iff.mp old)
        exact absurd same (Nat.ne_of_lt (lt_size_of_getElem? found))
      simp only [readCounter, define, Array.toList_push, List.map_append, List.map_cons,
        List.map_nil]
      refine List.nodup_append.mpr ⟨valid.counterDistinct, List.nodup_singleton _, ?_⟩
      intro earlier member later single same
      rw [List.mem_singleton.mp single] at same
      exact fresh (same ▸ member)
  · intro var location
    refine (naming.defined_define_iff programCounter none var location).trans ?_
    simp

theorem mem_counterReads_readCounter (naming : Naming) (programCounter : Register)
    (next : UInt64) :
    ((naming.readCounter programCounter next).1, next) ∈
      (naming.readCounter programCounter next).2.counterReads :=
  Array.mem_push_self

/-- What an operand slot of an instruction that ends at address `next` is filled with. -/
inductive Supplies (naming : Naming) (programCounter : Register) (next : UInt64)
    (environment : Environment) : Option Register → Option VarId → Prop
  | empty : Supplies naming programCounter next environment none none
  | counter {var : VarId} (recorded : (var, next) ∈ naming.counterReads) :
      Supplies naming programCounter next environment (some programCounter) (some var)
  | register {register : Register} {var : VarId} (other : register ≠ programCounter)
      (holds : naming.Holds environment register var) :
      Supplies naming programCounter next environment (some register) (some var)

theorem Supplies.mono {earlier later : Naming} (grows : earlier.Extends later)
    {programCounter : Register} {next : UInt64} {environment : Environment}
    {slot : Option Register} {filled : Option VarId}
    (supplies : earlier.Supplies programCounter next environment slot filled) :
    later.Supplies programCounter next environment slot filled := by
  cases supplies with
  | empty => exact Supplies.empty
  | counter recorded => exact Supplies.counter (grows.counters recorded)
  | register other holds => exact Supplies.register other (grows.holds holds)

theorem reads_read (naming : Naming) (programCounter : Register) (next : UInt64)
    (environment : Environment) (register : Register) :
    naming.Reads programCounter (naming.read programCounter next environment register).2 := by
  unfold read
  split
  · exact reads_readCounter naming programCounter next
  · exact reads_lookup programCounter naming environment register

theorem supplies_read (naming : Naming) (programCounter : Register) (next : UInt64)
    (environment : Environment) (register : Register) :
    (naming.read programCounter next environment register).2.Supplies programCounter next
      environment (some register)
      (some (naming.read programCounter next environment register).1) := by
  unfold read
  split
  · subst register
    exact Supplies.counter (naming.mem_counterReads_readCounter programCounter next)
  · rename_i other
    exact Supplies.register other (naming.holds_lookup environment register)

theorem readSlots_spec (programCounter : Register) (next : UInt64) (environment : Environment)
    (naming : Naming) (slots : List (Option Register)) :
    let result := readSlots programCounter next environment naming slots
    naming.Reads programCounter result.2 ∧
      List.Forall₂ (result.2.Supplies programCounter next environment) slots result.1 := by
  induction slots generalizing naming with
  | nil => exact ⟨Reads.refl naming, List.Forall₂.nil⟩
  | cons slot slots ih =>
      cases slot with
      | none => exact ⟨(ih naming).1, List.Forall₂.cons Supplies.empty (ih naming).2⟩
      | some register =>
          have reads := naming.reads_read programCounter next environment register
          obtain ⟨rest, filled⟩ := ih (naming.read programCounter next environment register).2
          refine ⟨reads.trans rest, List.Forall₂.cons ?_ filled⟩
          exact (naming.supplies_read programCounter next environment register).mono rest.grows

inductive Arrives (naming : Naming) (register : Register) :
    Option Environment → Option VarId → Prop
  | never : Arrives naming register none none
  | holds {environment : Environment} {var : VarId}
      (holds : naming.Holds environment register var) :
      Arrives naming register (some environment) (some var)

theorem Arrives.mono {earlier later : Naming} (grows : earlier.Extends later)
    {register : Register} {arrival : Option Environment} {source : Option VarId}
    (arrives : earlier.Arrives register arrival source) :
    later.Arrives register arrival source := by
  cases arrives with
  | never => exact Arrives.never
  | holds holds => exact Arrives.holds (grows.holds holds)

theorem readSources_spec (programCounter register : Register) (naming : Naming)
    (arrivals : List (Option Environment)) :
    let result := readSources register naming arrivals
    naming.Reads programCounter result.2 ∧
      List.Forall₂ (result.2.Arrives register) arrivals result.1 := by
  induction arrivals generalizing naming with
  | nil => exact ⟨Reads.refl naming, List.Forall₂.nil⟩
  | cons arrival arrivals ih =>
      cases arrival with
      | none => exact ⟨(ih naming).1, List.Forall₂.cons Arrives.never (ih naming).2⟩
      | some environment =>
          have reads := reads_lookup programCounter naming environment register
          obtain ⟨rest, filled⟩ := ih (naming.lookup environment register).2
          refine ⟨reads.trans rest, List.Forall₂.cons (Arrives.holds ?_) filled⟩
          exact rest.grows.holds (naming.holds_lookup environment register)

/-! ### The list of reads of the program counter

Only a slot that reads the program counter adds to the list. -/

/-- The variables in those slots, in order, each with the address `next` that is read there. -/
def counterPairs (programCounter : Register) (next : UInt64) (reads : List (Option Register))
    (filled : List (Option VarId)) : List (VarId × UInt64) :=
  (reads.zip filled).flatMap fun pair =>
    if pair.1 = some programCounter then pair.2.toList.map fun var => (var, next) else []

theorem counterReads_lookup (naming : Naming) (environment : Environment) (register : Register) :
    (naming.lookup environment register).2.counterReads = naming.counterReads := by
  unfold lookup
  split
  · rfl
  · unfold entryValue
    split <;> rfl

theorem counterReads_readSlots (programCounter : Register) (next : UInt64)
    (environment : Environment) (naming : Naming) (slots : List (Option Register)) :
    let result := readSlots programCounter next environment naming slots
    result.2.counterReads.toList =
      naming.counterReads.toList ++ counterPairs programCounter next slots result.1 := by
  induction slots generalizing naming with
  | nil => simp [readSlots, counterPairs]
  | cons slot slots ih =>
      cases slot with
      | none =>
          have rest := ih naming
          simpa [readSlots, counterPairs] using rest
      | some register =>
          have rest := ih (naming.read programCounter next environment register).2
          simp only [readSlots, counterPairs, List.zip_cons_cons, List.flatMap_cons] at rest ⊢
          rw [rest]
          by_cases same : register = programCounter
          · subst same
            simp [read, readCounter, define]
          · simp [read, same, counterReads_lookup]

theorem counterReads_readSources (register : Register) (naming : Naming)
    (arrivals : List (Option Environment)) :
    (readSources register naming arrivals).2.counterReads = naming.counterReads := by
  induction arrivals generalizing naming with
  | nil => rfl
  | cons arrival arrivals ih =>
      cases arrival with
      | none => exact ih naming
      | some environment =>
          exact (ih _).trans (naming.counterReads_lookup environment register)

theorem mem_counterPairs {programCounter : Register} {next address : UInt64}
    {reads : List (Option Register)} {filled : List (Option VarId)} {var : VarId} :
    (var, address) ∈ counterPairs programCounter next reads filled ↔
      address = next ∧ ∃ slot : Nat, reads[slot]? = some (some programCounter) ∧
        filled[slot]? = some (some var) := by
  have listed (pair : Option Register × Option VarId) :
      ((var, address) ∈ if pair.1 = some programCounter then pair.2.toList.map (·, next) else []) ↔
        address = next ∧ pair = (some programCounter, some var) := by
    obtain ⟨read, held⟩ := pair
    cases held <;> by_cases counter : read = some programCounter <;>
      simp [counter, eq_comm, and_comm]
  simp only [counterPairs, List.mem_flatMap, listed]
  constructor
  · rintro ⟨pair, member, same, rfl⟩
    obtain ⟨slot, found⟩ := List.getElem?_of_mem member
    exact ⟨same, slot, List.getElem?_zip_eq_some.mp found⟩
  · rintro ⟨same, slot, found⟩
    exact ⟨_, List.mem_of_getElem? (List.getElem?_zip_eq_some.mpr found), same, rfl⟩

/-! ## Writing -/

theorem counterReads_defineAll (location : Location) (naming : Naming) (environment : Environment)
    (registers : List Register) :
    (defineAll location naming environment registers).2.2.counterReads = naming.counterReads := by
  induction registers generalizing naming environment with
  | nil => rfl
  | cons register registers ih => exact ih _ _

theorem vars_defineAll (location : Location) (naming : Naming) (environment : Environment)
    (registers : List Register) :
    (defineAll location naming environment registers).1 =
      List.range' naming.vars.size registers.length := by
  induction registers generalizing naming environment with
  | nil => rfl
  | cons register registers ih =>
      simp only [defineAll, ih, List.length_cons, List.range'_succ]
      simp [define]

theorem extends_defineAll (location : Location) (naming : Naming) (environment : Environment)
    (registers : List Register) :
    naming.Extends (defineAll location naming environment registers).2.2 := by
  induction registers generalizing naming environment with
  | nil => exact Extends.refl naming
  | cons register registers ih =>
      exact (naming.extends_define register (some location)).trans (ih _ _)

theorem definedFor_defineAll (location : Location) (naming : Naming) (environment : Environment)
    (registers : List Register) :
    List.Forall₂ ((defineAll location naming environment registers).2.2.DefinedFor location)
      registers (defineAll location naming environment registers).1 := by
  induction registers generalizing naming environment with
  | nil => exact List.Forall₂.nil
  | cons register registers ih =>
      obtain ⟨version, found⟩ := naming.getElem?_define register (some location)
      refine List.Forall₂.cons ⟨version, ?_⟩ (ih _ _)
      exact (extends_defineAll location _ _ registers).vars found

theorem Valid.defineAll {programCounter : Register} {naming : Naming}
    (valid : naming.Valid programCounter) (location : Location) (environment : Environment)
    (registers : List Register) :
    (defineAll location naming environment registers).2.2.Valid programCounter := by
  induction registers generalizing naming environment with
  | nil => exact valid
  | cons register registers ih => exact ih (valid.define register (some location)) _

theorem defined_defineAll_iff (location : Location) (naming : Naming)
    (environment : Environment) (registers : List Register) {var : VarId} {place : Location} :
    (defineAll location naming environment registers).2.2.Defined var place ↔
      naming.Defined var place ∨
        var ∈ (defineAll location naming environment registers).1 ∧ place = location := by
  induction registers generalizing naming environment with
  | nil => simp [defineAll]
  | cons register registers ih =>
      have first := naming.defined_define_iff register (some location) var place
      simp only [defineAll, ih, first, List.mem_cons, Option.some.injEq, eq_comm]
      grind [define]

theorem bounds_defineAll (location : Location) (naming : Naming) (environment : Environment)
    (registers : List Register) (bounds : naming.Bounds environment) :
    (defineAll location naming environment registers).2.2.Bounds
      (defineAll location naming environment registers).2.1 := by
  induction registers generalizing naming environment with
  | nil => exact bounds
  | cons register registers ih =>
      apply ih
      intro other var found
      rw [RegisterMap.get?_set] at found
      have grown : (naming.define register (some location)).2.vars.size =
          naming.vars.size + 1 := Array.size_push _
      split at found
      · cases found
        exact grown ▸ Nat.lt_succ_self _
      · exact grown ▸ Nat.lt_succ_of_lt (bounds other var found)

theorem get?_defineAll_of_notMem (location : Location) (naming : Naming)
    (environment : Environment) {registers : List Register} {register : Register}
    (other : register ∉ registers) :
    (defineAll location naming environment registers).2.1.get? register =
      environment.get? register := by
  induction registers generalizing naming environment with
  | nil => rfl
  | cons first registers ih =>
      rw [List.mem_cons, not_or] at other
      simp only [defineAll, ih _ _ other.2]
      exact RegisterMap.get?_set_of_ne _ _ other.1

def Within (naming : Naming) (form : Form) : Prop :=
  ∀ (var : VarId) (named : Variable),
    naming.vars[var]? = some named → form.var? var = some named

theorem Within.of_extends {earlier later : Naming} {form : Form}
    (within : later.Within form) (grows : earlier.Extends later) : earlier.Within form :=
  fun var named found => within var named (grows.vars found)

theorem assign_get? {form : Form} {var : VarId} {named : Variable}
    (found : form.var? var = some named) (environment : Environment) :
    form.assign environment.get? var = (environment.set named.register var).get? := by
  funext register
  rw [RegisterMap.get?_set, Form.assign, found]
  by_cases same : register = named.register
  · simp [same]
  · simp [same, Ne.symm same]

/-- In the form, the outputs of a statement put into force what the environment was told. -/
theorem foldl_assign_defineAll {form : Form} (location : Location) (naming : Naming)
    (environment : Environment) (registers : List Register)
    (within : (defineAll location naming environment registers).2.2.Within form) :
    (defineAll location naming environment registers).1.foldl form.assign environment.get? =
      (defineAll location naming environment registers).2.1.get? := by
  induction registers generalizing naming environment with
  | nil => rfl
  | cons register registers ih =>
      obtain ⟨version, found⟩ := naming.getElem?_define register (some location)
      have known := within _ _ ((extends_defineAll location
        (naming.define register (some location)).2 _ registers).vars found)
      have first : form.assign environment.get? naming.vars.size =
          (environment.set register naming.vars.size).get? := assign_get? known environment
      have rest := ih (naming.define register (some location)).2
        (environment.set register naming.vars.size) within
      rw [← first] at rest
      exact rest

end Naming

end SymbolicFlow.Ssa

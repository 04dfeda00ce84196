import SymbolicFlow.Proofs.Ssa.Naming
import SymbolicFlow.Proofs.Ssa.Placement
import SymbolicFlow.Ssa.Renaming

/-!
# What renaming produces

The stages of the construction, from one instruction to the whole form.  `Renamed` says what one
instruction becomes, `Renames` threads it through a block, `RenamedBlocks` through the blocks
renamed so far.  `Construction` is what is left of all of it when the form is complete: its
phis, the environment that each block leaves behind, and the final naming, in which everything
that was named on the way still holds.
-/

set_option autoImplicit false

namespace SymbolicFlow.Ssa

open Naming

/-! ## The phis -/

/-- The phis of the sites handled so far have their variables, in the order of the sites. -/
structure NamedPhis (programCounter : Register) (blockCount : Nat)
    (sites : List (Register × NodeId)) (phis : PhiTable) (naming : Naming) : Prop where
  size : phis.size = blockCount
  valid : naming.Valid programCounter
  site : ∀ {register : Register} {block : NodeId}, (∃ var, (register, var) ∈ phis.getD block []) ↔
    (register, block) ∈ sites
  named : ∀ {block : NodeId} {index : Nat} {register : Register} {var : VarId},
    (phis.getD block [])[index]? = some (register, var) →
    ∃ version, naming.vars[var]? = some ⟨register, version, some ⟨block, index⟩⟩
  defined : ∀ {var : VarId} {location : Location}, naming.Defined var location →
    ∃ register, (phis.getD location.block [])[location.index]? = some (register, var)
  noCounter : naming.counterReads = #[]

theorem getD_modify_append {phis : PhiTable} {block : NodeId} (inRange : block < phis.size)
    (entry : Register × VarId) (other : NodeId) :
    (phis.modify block (· ++ [entry])).getD other [] =
      if other = block then phis.getD block [] ++ [entry] else phis.getD other [] := by
  simp only [Array.getD_eq_getD_getElem?, Array.getElem?_modify]
  by_cases same : block = other
  · subst same
    simp [Array.getElem?_eq_getElem inRange]
  · simp [same, Ne.symm same]

theorem namedPhis_start (programCounter : Register) (blockCount : Nat) :
    NamedPhis programCounter blockCount [] (Array.replicate blockCount []) {} where
  size := Array.size_replicate
  valid := by
    refine ⟨?_, ?_, ?_, List.nodup_nil, ?_, ?_⟩ <;> simp
  site := by
    intro register block
    simp only [Array.getD_eq_getD_getElem?, Array.getElem?_replicate]
    split <;> simp
  named := by
    intro block index register var found
    simp only [Array.getD_eq_getD_getElem?, Array.getElem?_replicate] at found
    split at found <;> simp at found
  defined := by
    rintro var location ⟨named, found, _⟩
    simp at found
  noCounter := rfl

theorem NamedPhis.step {programCounter : Register} {blockCount : Nat}
    {sites : List (Register × NodeId)} {phis : PhiTable} {naming : Naming}
    (named : NamedPhis programCounter blockCount sites phis naming) (register : Register)
    {block : NodeId} (inRange : block < blockCount) :
    NamedPhis programCounter blockCount (sites ++ [(register, block)])
      (namePhi (phis, naming) (register, block)).1
      (namePhi (phis, naming) (register, block)).2 := by
  have bound : block < phis.size := Nat.lt_of_lt_of_eq inRange named.size.symm
  have here : (namePhi (phis, naming) (register, block)).1.getD block [] =
      phis.getD block [] ++ [(register, naming.vars.size)] :=
    (getD_modify_append bound _ block).trans (if_pos rfl)
  have elsewhere : ∀ {id}, id ≠ block →
      (namePhi (phis, naming) (register, block)).1.getD id [] = phis.getD id [] :=
    fun {id} other => (getD_modify_append bound _ id).trans (if_neg other)
  obtain ⟨version, found⟩ := naming.getElem?_define register
    (some ⟨block, (phis.getD block []).length⟩)
  have grows := naming.extends_define register (some ⟨block, (phis.getD block []).length⟩)
  refine ⟨?_, ?_, ?_, ?_, ?_, named.noCounter⟩
  · exact Array.size_modify.trans named.size
  · exact named.valid.define _ _
  · intro other id
    rw [List.mem_append, List.mem_singleton, ← named.site]
    by_cases same : id = block
    · subst id
      simp only [here, List.mem_append, List.mem_singleton, Prod.mk.injEq]
      grind
    · simp only [elsewhere same]
      grind
  · intro id index other var listed
    by_cases same : id = block
    · subst id
      rw [here] at listed
      rcases Nat.lt_trichotomy index (phis.getD block []).length with before | last | behind
      · rw [List.getElem?_append_left before] at listed
        obtain ⟨older, old⟩ := named.named listed
        exact ⟨older, grows.vars old⟩
      · rw [last, List.getElem?_concat_length] at listed
        cases listed
        exact ⟨version, last ▸ found⟩
      · rw [List.getElem?_eq_none (by simpa using behind)] at listed
        cases listed
    · rw [elsewhere same] at listed
      obtain ⟨older, old⟩ := named.named listed
      exact ⟨older, grows.vars old⟩
  · intro var location defined
    rcases (naming.defined_define_iff _ _ _ _).mp defined with old | ⟨rfl, same⟩
    · obtain ⟨other, listed⟩ := named.defined old
      refine ⟨other, ?_⟩
      by_cases same : location.block = block
      · rw [same] at listed ⊢
        rw [here, List.getElem?_append_left (List.getElem?_eq_some_iff.mp listed).1]
        exact listed
      · rw [elsewhere same]
        exact listed
    · cases same
      refine ⟨register, ?_⟩
      rw [here]
      exact List.getElem?_concat_length

theorem namedPhis_foldl {programCounter : Register} {blockCount : Nat}
    (rest : List (Register × NodeId)) (inRange : ∀ site ∈ rest, site.2 < blockCount)
    {done : List (Register × NodeId)} {phis : PhiTable} {naming : Naming}
    (named : NamedPhis programCounter blockCount done phis naming) :
    NamedPhis programCounter blockCount (done ++ rest) (rest.foldl namePhi (phis, naming)).1
      (rest.foldl namePhi (phis, naming)).2 := by
  induction rest generalizing done phis naming with
  | nil => simpa using named
  | cons site rest ih =>
      have next := named.step site.1 (inRange site List.mem_cons_self)
      have whole := ih (fun other member => inRange other (List.mem_cons_of_mem _ member)) next
      rwa [List.append_assoc, List.singleton_append] at whole

theorem namedPhis_namePhis {procedure : Procedure} (wellFormed : procedure.WellFormed) :
    NamedPhis procedure.machine.programCounter procedure.blockCount
      (phiSites procedure procedure.frontiers) (namePhis procedure procedure.frontiers).1
      (namePhis procedure procedure.frontiers).2 :=
  namedPhis_foldl _ (fun _ placed => lt_of_mem_phiSites wellFormed placed) (namedPhis_start _ _)

theorem registers_foldl_namePhi {sites : List (Register × NodeId)} {phis : PhiTable}
    (inRange : ∀ site ∈ sites, site.2 < phis.size) (naming : Naming) (block : NodeId) :
    ((sites.foldl namePhi (phis, naming)).1.getD block []).map (·.1) =
      (phis.getD block []).map (·.1) ++ (sites.filter (·.2 = block)).map (·.1) := by
  induction sites generalizing phis naming with
  | nil => simp
  | cons site sites ih =>
      have bound := inRange site List.mem_cons_self
      have kept : (namePhi (phis, naming) site).1.size = phis.size := Array.size_modify
      have stillInRange : ∀ other ∈ sites, other.2 < (namePhi (phis, naming) site).1.size :=
        fun other member => kept ▸ inRange other (List.mem_cons_of_mem _ member)
      have rest := ih stillInRange (namePhi (phis, naming) site).2
      have here : (namePhi (phis, naming) site).1.getD block [] =
          if block = site.2 then phis.getD site.2 [] ++ [(site.1, naming.vars.size)]
          else phis.getD block [] := getD_modify_append bound _ block
      rw [List.foldl_cons, rest, here]
      by_cases same : block = site.2
      · subst same
        simp
      · simp [same, Ne.symm same]

theorem ascending_namePhis {procedure : Procedure} (wellFormed : procedure.WellFormed)
    (block : NodeId) :
    (((namePhis procedure procedure.frontiers).1.getD block []).map (·.1)).Pairwise
      (·.number < ·.number) := by
  have inRange : ∀ site ∈ phiSites procedure procedure.frontiers,
      site.2 < (Array.replicate procedure.blockCount ([] : List (Register × VarId))).size := by
    intro site placed
    rw [Array.size_replicate]
    exact lt_of_mem_phiSites wellFormed placed
  have empty : (Array.replicate procedure.blockCount ([] : List (Register × VarId))).getD block [] =
      [] := by
    simp only [Array.getD_eq_getD_getElem?, Array.getElem?_replicate]
    split <;> rfl
  rw [namePhis, registers_foldl_namePhi inRange, empty, List.map_nil, List.nil_append,
    List.pairwise_map, List.pairwise_filter]
  refine (ascending_phiSites wellFormed).imp ?_
  intro earlier later lower here there
  exact lower ((of_decide_eq_true here).trans (of_decide_eq_true there).symm)

/-! ## Instructions and blocks -/

/-- The reads of the program counter in a statement, each with the address that is read. -/
def Statement.counterReads (programCounter : Register) (statement : Statement) :
    List (VarId × UInt64) :=
  match statement.instruction with
  | none => []
  | some instruction => counterPairs programCounter instruction.nextAddress
      (instruction.slotReads programCounter) statement.slots

/-- What the instruction at a location becomes when it runs in an environment. -/
structure Renamed (programCounter : Register) (location : Location) (environment : Environment)
    (naming : Naming) (instruction : Instruction) (statement : Statement)
    (written : Environment) (named : Naming) : Prop where
  same : statement.instruction = some instruction
  implicitCount : statement.implicitCount = instruction.implicitReads.length
  grows : naming.Extends named
  valid : naming.Valid programCounter → named.Valid programCounter
  bounds : naming.Bounds environment → named.Bounds written
  slots : List.Forall₂ (named.Supplies programCounter instruction.nextAddress environment)
    (instruction.slotReads programCounter) statement.slots
  usedBefore : naming.Valid programCounter → naming.Bounds environment →
    ∀ used ∈ statement.usedVars, ∀ output ∈ statement.outputs, used < output
  ascending : statement.outputs.Pairwise (· < ·)
  defined : ∀ {var : VarId} {place : Location}, named.Defined var place ↔
    naming.Defined var place ∨ var ∈ statement.outputs ∧ place = location
  untouched : ∀ {register : Register}, register ∉ instruction.writes programCounter →
    written.get? register = environment.get? register
  executes : ∀ {form : Form}, named.Within form →
    form.execute environment.get? statement = written.get?
  outputs : List.Forall₂ (named.DefinedFor location) (instruction.writes programCounter)
    statement.outputs
  counterReads : named.counterReads.toList =
    naming.counterReads.toList ++ statement.counterReads programCounter

theorem lt_of_supplies {programCounter : Register} {naming : Naming}
    (valid : naming.Valid programCounter) {environment : Environment}
    (bounds : naming.Bounds environment) {next : UInt64} {slot : Option Register} {var : VarId}
    (supplies : naming.Supplies programCounter next environment slot (some var)) :
    var < naming.vars.size := by
  cases supplies with
  | counter recorded =>
      obtain ⟨_, found⟩ := valid.counterFound recorded
      exact lt_size_of_getElem? found
  | register _ holds => exact valid.lt_of_holds bounds holds

/-! Lists that are related position by position. -/

theorem getElem?_of_forall₂_left {α β : Type} {relation : α → β → Prop} {left : List α}
    {right : List β} (related : List.Forall₂ relation left right) {index : Nat} {first : α}
    (found : left[index]? = some first) :
    ∃ second, right[index]? = some second ∧ relation first second := by
  induction related generalizing index with
  | nil => simp at found
  | cons head _ ih =>
      cases index with
      | zero =>
          cases found
          exact ⟨_, rfl, head⟩
      | succ index => exact ih found

theorem getElem?_of_forall₂_right {α β : Type} {relation : α → β → Prop} {left : List α}
    {right : List β} (related : List.Forall₂ relation left right) {index : Nat} {second : β}
    (found : right[index]? = some second) :
    ∃ first, left[index]? = some first ∧ relation first second :=
  getElem?_of_forall₂_left related.flip found

theorem renamed_renameInstruction (programCounter : Register) (location : Location)
    (environment : Environment) (naming : Naming) (instruction : Instruction) :
    let result := renameInstruction programCounter location environment naming instruction
    Renamed programCounter location environment naming instruction result.1 result.2.1
      result.2.2 := by
  obtain ⟨reads, slots⟩ := readSlots_spec programCounter instruction.nextAddress environment
    naming (instruction.slotReads programCounter)
  have counters := counterReads_readSlots programCounter instruction.nextAddress environment
    naming (instruction.slotReads programCounter)
  generalize supplied : readSlots programCounter instruction.nextAddress environment naming
    (instruction.slotReads programCounter) = supply at reads slots counters
  have grows := extends_defineAll location supply.2 environment
    (instruction.writes programCounter)
  simp only [renameInstruction, supplied]
  refine ⟨rfl, rfl, reads.grows.trans grows, ?_, ?_, ?_, ?_, ?_, ?_, ?_, ?_,
    definedFor_defineAll _ _ _ _, ?_⟩
  · exact fun valid => (reads.valid valid).defineAll _ _ _
  · exact fun bounds => bounds_defineAll _ _ _ _ (reads.grows.bounds bounds)
  · exact slots.imp fun _ _ supplies => supplies.mono grows
  · intro valid bounds used usedHere output outputHere
    obtain ⟨slot, filled, present⟩ := List.mem_filterMap.mp usedHere
    cases present
    obtain ⟨index, listed⟩ := List.getElem?_of_mem filled
    obtain ⟨_, _, supplies⟩ := getElem?_of_forall₂_right slots listed
    have before := lt_of_supplies (reads.valid valid) (reads.grows.bounds bounds) supplies
    rw [vars_defineAll] at outputHere
    exact Nat.lt_of_lt_of_le before (List.mem_range'_1.mp outputHere).1
  · rw [vars_defineAll]
    exact List.pairwise_lt_range'
  · intro var place
    rw [defined_defineAll_iff, reads.defined]
  · exact fun other => get?_defineAll_of_notMem _ _ _ other
  · exact fun within => foldl_assign_defineAll _ _ _ _ within
  · rw [counterReads_defineAll]
    exact counters

inductive Renames (programCounter : Register) (block : NodeId) :
    Nat → Environment → Naming → List Instruction → List Statement → Environment → Naming → Prop
  | nil (index : Nat) (environment : Environment) (naming : Naming) :
      Renames programCounter block index environment naming [] [] environment naming
  | cons {index : Nat} {environment written left : Environment} {naming named last : Naming}
      {instruction : Instruction} {instructions : List Instruction} {statement : Statement}
      {statements : List Statement}
      (first : Renamed programCounter ⟨block, index⟩ environment naming instruction statement
        written named)
      (rest : Renames programCounter block (index + 1) written named instructions statements
        left last) :
      Renames programCounter block index environment naming (instruction :: instructions)
        (statement :: statements) left last

theorem renames_foldl (programCounter : Register) (block : NodeId) (offset : Nat)
    (instructions : List Instruction) (done : Array Statement) (environment : Environment)
    (naming : Naming) :
    ∃ statements left last,
      instructions.foldl
        (fun (statements, environment, naming) instruction =>
          let location : Location := ⟨block, offset + statements.size⟩
          let (statement, written, named) :=
            renameInstruction programCounter location environment naming instruction
          (statements.push statement, written, named))
        (done, environment, naming) = (done ++ statements, left, last) ∧
      Renames programCounter block (offset + done.size) environment naming instructions
        statements.toList left last := by
  induction instructions generalizing done environment naming with
  | nil => exact ⟨#[], environment, naming, by simp, .nil _ _ _⟩
  | cons instruction instructions ih =>
      have first := renamed_renameInstruction programCounter ⟨block, offset + done.size⟩
        environment naming instruction
      generalize renamed : renameInstruction programCounter ⟨block, offset + done.size⟩
        environment naming instruction = result at first
      obtain ⟨statement, written, named⟩ := result
      obtain ⟨statements, left, last, folded, rest⟩ := ih (done.push statement) written named
      refine ⟨#[statement] ++ statements, left, last, ?_, ?_⟩
      · simp only [List.foldl_cons, renamed, folded]
        simp
      · rw [Array.size_push, ← Nat.add_assoc] at rest
        simpa using Renames.cons first rest

theorem renames_renameBody (programCounter : Register) (block : NodeId) (offset : Nat)
    (environment : Environment) (naming : Naming) (instructions : List Instruction) :
    let result := renameBody programCounter block offset environment naming instructions
    Renames programCounter block offset environment naming instructions result.1.toList
      result.2.1 result.2.2 := by
  obtain ⟨statements, left, last, folded, renames⟩ :=
    renames_foldl programCounter block offset instructions #[] environment naming
  simp only [renameBody, folded]
  simpa using renames

namespace Renames

variable {programCounter : Register} {block : NodeId} {index : Nat}
  {environment left : Environment} {naming last : Naming} {instructions : List Instruction}
  {statements : List Statement}

theorem grows (renames : Renames programCounter block index environment naming instructions
    statements left last) : naming.Extends last := by
  induction renames with
  | nil => exact Extends.refl _
  | cons first _ ih => exact first.grows.trans ih

theorem valid (renames : Renames programCounter block index environment naming instructions
    statements left last) (valid : naming.Valid programCounter) : last.Valid programCounter := by
  induction renames with
  | nil => exact valid
  | cons first _ ih => exact ih (first.valid valid)

theorem bounds (renames : Renames programCounter block index environment naming instructions
    statements left last) (bounds : naming.Bounds environment) : last.Bounds left := by
  induction renames with
  | nil => exact bounds
  | cons first _ ih => exact ih (first.bounds bounds)

theorem executes {form : Form} (renames : Renames programCounter block index environment naming
    instructions statements left last) (within : last.Within form) :
    statements.foldl form.execute environment.get? = left.get? := by
  induction renames with
  | nil => rfl
  | cons first rest ih =>
      rw [List.foldl_cons, first.executes (within.of_extends rest.grows)]
      exact ih within

theorem untouched (renames : Renames programCounter block index environment naming instructions
    statements left last) {register : Register}
    (others : ∀ instruction ∈ instructions, register ∉ instruction.writes programCounter) :
    left.get? register = environment.get? register := by
  induction renames with
  | nil => rfl
  | cons first _ ih =>
      rw [ih fun other member => others other (List.mem_cons_of_mem _ member)]
      exact first.untouched (others _ List.mem_cons_self)

theorem machine (renames : Renames programCounter block index environment naming instructions
    statements left last) : ∀ statement ∈ statements, statement.isPhi = false := by
  induction renames with
  | nil => simp
  | cons first _ ih =>
      intro statement member
      rcases List.mem_cons.mp member with rfl | behind
      · simp [Statement.isPhi, first.same]
      · exact ih statement behind

theorem instructions_eq (renames : Renames programCounter block index environment naming
    instructions statements left last) :
    statements.map (·.instruction) = instructions.map some := by
  induction renames with
  | nil => rfl
  | cons first _ ih => simp only [List.map_cons, first.same, ih]

theorem counterReads (renames : Renames programCounter block index environment naming instructions
    statements left last) :
    last.counterReads.toList =
      naming.counterReads.toList ++ statements.flatMap (·.counterReads programCounter) := by
  induction renames with
  | nil => simp
  | cons first _ ih => rw [ih, first.counterReads, List.append_assoc, List.flatMap_cons]

theorem defined (renames : Renames programCounter block index environment naming instructions
    statements left last) {var : VarId} {place : Location} :
    last.Defined var place ↔ naming.Defined var place ∨ ∃ position statement,
      statements[position]? = some statement ∧ var ∈ statement.outputs ∧
        place = ⟨block, index + position⟩ := by
  induction renames with
  | nil => simp
  | cons first rest ih =>
      rw [ih, first.defined, or_assoc]
      refine or_congr Iff.rfl ?_
      constructor
      · rintro (⟨output, rfl⟩ | ⟨position, statement, found, output, rfl⟩)
        · exact ⟨0, _, rfl, output, rfl⟩
        · exact ⟨position + 1, statement, found, output, by simp; omega⟩
      · rintro ⟨position, statement, found, output, rfl⟩
        cases position with
        | zero =>
            cases found
            exact Or.inl ⟨output, rfl⟩
        | succ position =>
            exact Or.inr ⟨position, statement, found, output, by simp; omega⟩

/-- Around any statement, a run of a block falls into what comes before it, the statement
itself, and a remainder that only extends the naming. -/
theorem split (renames : Renames programCounter block index environment naming instructions
    statements left last) {before after : List Statement} {statement : Statement}
    (parts : statements = before ++ statement :: after) :
    ∃ earlier instruction here named written next,
      Renames programCounter block index environment naming earlier before here named ∧
        Renamed programCounter ⟨block, index + before.length⟩ here named instruction statement
          written next ∧ next.Extends last := by
  induction renames generalizing before with
  | nil => simp at parts
  | @cons index environment written left naming named last instruction _ _ _ first rest ih =>
      cases before with
      | nil =>
          obtain ⟨rfl, rfl⟩ := List.cons_eq_cons.mp parts
          exact ⟨[], instruction, environment, naming, written, named, .nil _ _ _, first,
            rest.grows⟩
      | cons head before =>
          obtain ⟨rfl, behind⟩ := List.cons_eq_cons.mp parts
          obtain ⟨earlier, other, here, namedHere, writtenHere, next, run, step, grows⟩ :=
            ih behind
          refine ⟨_, other, here, namedHere, writtenHere, next, .cons first run, ?_, grows⟩
          rw [List.length_cons]
          rwa [Nat.add_right_comm, Nat.add_assoc] at step

end Renames

end SymbolicFlow.Ssa

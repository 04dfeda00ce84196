import SymbolicFlow.Client.Grouping
import SymbolicFlow.Proofs.Analysis.Protocol

/-!
# Groups partition the accesses of innermost loops

The grouping client keeps a table from addresses to innermost loops and adds every access that it
is shown to the group of its key.  So its final state can be read off what it was told: each result
that is shown makes one `Entry`, and the groups of a loop are its entries, sorted by key.

The table is filled loop by loop, and an address in two loops would go to the later one.  This does
no harm: unreachable blocks may lie in several innermost loops, but a visited block lies in one at
most.  If addresses tell instructions apart, the entries of a loop are therefore the accesses in its
visited blocks, each once and in the order of execution.
-/

set_option autoImplicit false

namespace SymbolicFlow

open Ssa (Statement)

/-- The instruction refers to memory and neither computes an address nor is a call or filler. -/
def Instruction.isAccess (instruction : Instruction) : Bool :=
  instruction.family != .lea && instruction.family != .call && instruction.family != .nop &&
    instruction.referencesMemory

def Procedure.addresses (procedure : Procedure) : List UInt64 :=
  (List.range procedure.blockCount).flatMap fun id =>
    (procedure.instructionsOf id).map (·.address)

/-- The addresses of the accesses in the visited blocks of a loop, in the order of execution. -/
def Loop.accesses (loop : Loop) (procedure : Procedure) (visited : List NodeId) : List UInt64 :=
  (((visited.filter loop.contains).flatMap procedure.instructionsOf).filter (·.isAccess)).map
    (·.address)

def LoopGroups.Holds (groups : LoopGroups) (key : String) (address : UInt64) : Prop :=
  ∃ members, groups.groups[key]? = some members ∧ address ∈ members

/-- Each of the given addresses is in one group, once, and nothing else is in a group; a group
keeps the order of the addresses. -/
structure LoopGroups.Partitions (groups : LoopGroups) (addresses : List UInt64) : Prop where
  nonempty : ∀ {key : String} {members : List UInt64}, groups.groups[key]? = some members →
    members ≠ []
  ordered : ∀ {key : String} {members : List UInt64}, groups.groups[key]? = some members →
    members.Sublist addresses
  once : ∀ {key : String} {members : List UInt64}, groups.groups[key]? = some members →
    members.Nodup
  inOneGroup : ∀ address ∈ addresses, ∃! key, groups.Holds key address
  groupOf : ∀ {key : String} {address : UInt64}, groups.Holds key address →
    groups.groupOf? address = some key

/-- There is one entry for each loop without loops inside, and its groups partition the accesses
in the visited blocks of the loop. -/
structure Grouping.Partitions (grouping : Grouping) (procedure : Procedure)
    (visited : List NodeId) : Prop where
  loops : grouping.loops.keys = procedure.loops.innermostLoops.map (·.id)
  groups : ∀ loop ∈ procedure.loops.innermostLoops, ∃ groups,
    grouping.loops[loop.id]? = some groups ∧ groups.loop = loop.id ∧
      groups.header = loop.header ∧ groups.Partitions (loop.accesses procedure visited)

/-! ## Addresses -/

section Addresses

variable {procedure : Procedure}

theorem mem_instructionsOf {id : NodeId} {instruction : Instruction} :
    instruction ∈ procedure.instructionsOf id ↔
      ∃ block, procedure.block? id = some block ∧ instruction ∈ block.instructions.toList := by
  rw [Procedure.instructionsOf]
  cases procedure.block? id <;> simp

theorem lt_of_mem_instructionsOf {id : NodeId} {instruction : Instruction}
    (member : instruction ∈ procedure.instructionsOf id) : id < procedure.blockCount := by
  obtain ⟨block, found, _⟩ := mem_instructionsOf.mp member
  exact (Array.getElem?_eq_some_iff.mp found).1

theorem block_eq_of_address (distinct : procedure.addresses.Nodup) {first second : NodeId}
    {instruction other : Instruction} (inFirst : instruction ∈ procedure.instructionsOf first)
    (inSecond : other ∈ procedure.instructionsOf second)
    (same : instruction.address = other.address) : first = second := by
  have apart := (List.nodup_flatMap.mp distinct).2
  have firstInside := lt_of_mem_instructionsOf inFirst
  have secondInside := lt_of_mem_instructionsOf inSecond
  have here := List.mem_map_of_mem (f := (·.address)) inFirst
  have there := List.mem_map_of_mem (f := (·.address)) inSecond
  rw [same] at here
  rcases Nat.lt_trichotomy first second with before | equal | behind
  · have disjoint := List.pairwise_iff_getElem.mp apart first second (by simpa) (by simpa) before
    simp only [List.getElem_range] at disjoint
    exact absurd there (disjoint here)
  · exact equal
  · have disjoint := List.pairwise_iff_getElem.mp apart second first (by simpa) (by simpa) behind
    simp only [List.getElem_range] at disjoint
    exact absurd here (disjoint there)

theorem nodup_flatMap_addresses (distinct : procedure.addresses.Nodup) {ids : List NodeId}
    (once : ids.Nodup) : ((ids.flatMap procedure.instructionsOf).map (·.address)).Nodup := by
  rw [List.map_flatMap, List.nodup_flatMap]
  constructor
  · intro id _
    by_cases inside : id < procedure.blockCount
    · exact (List.nodup_flatMap.mp distinct).1 id (List.mem_range.mpr inside)
    · have missing : procedure.block? id = none := Array.getElem?_eq_none (Nat.le_of_not_lt inside)
      simp [Procedure.instructionsOf, missing]
  · refine once.imp ?_
    intro first second different address inFirst inSecond
    obtain ⟨instruction, member, rfl⟩ := List.mem_map.mp inFirst
    obtain ⟨other, otherMember, same⟩ := List.mem_map.mp inSecond
    exact different (block_eq_of_address distinct member otherMember same.symm)

theorem nodup_accesses (distinct : procedure.addresses.Nodup) (loop : Loop) {ids : List NodeId}
    (once : ids.Nodup) : (loop.accesses procedure ids).Nodup :=
  (nodup_flatMap_addresses distinct (once.filter loop.contains)).sublist
    (List.filter_sublist.map _)

end Addresses

/-! ## The table of loops -/

namespace Grouping

theorem getElem?_foldl_insert (addresses : List UInt64) (id : Nat)
    (loopOf : Std.TreeMap UInt64 Nat) (address : UInt64) :
    (addresses.foldl (fun loopOf address => loopOf.insert address id) loopOf)[address]? =
      if address ∈ addresses then some id else loopOf[address]? := by
  induction addresses generalizing loopOf with
  | nil => simp
  | cons first addresses ih =>
      rw [List.foldl_cons, ih, Std.TreeMap.getElem?_insert]
      simp only [Std.LawfulEqOrd.compare_eq_iff_eq, List.mem_cons]
      grind

theorem loopOf_foldl_addLoop (procedure : Procedure) (loops : List Loop) (grouping : Grouping)
    (address : UInt64) :
    (∀ id, (loops.foldl (addLoop procedure) grouping).loopOf[address]? = some id →
      grouping.loopOf[address]? = some id ∨
        ∃ loop ∈ loops, loop.id = id ∧ address ∈ loopAddresses procedure loop) ∧
    ((grouping.loopOf[address]?).isSome ∨ (∃ loop ∈ loops, address ∈ loopAddresses procedure loop) →
      ((loops.foldl (addLoop procedure) grouping).loopOf[address]?).isSome) := by
  induction loops generalizing grouping with
  | nil => simp
  | cons loop loops ih =>
      obtain ⟨sound, complete⟩ := ih (addLoop procedure grouping loop)
      have step : (addLoop procedure grouping loop).loopOf[address]? =
          if address ∈ loopAddresses procedure loop then some loop.id
          else grouping.loopOf[address]? := getElem?_foldl_insert _ _ _ _
      rw [List.foldl_cons]
      constructor
      · intro id found
        rcases sound id found with before | ⟨other, member, facts⟩
        · rw [step] at before
          split at before
          · rename_i inside
            exact Or.inr ⟨loop, List.mem_cons_self, Option.some.inj before, inside⟩
          · exact Or.inl before
        · exact Or.inr ⟨other, List.mem_cons_of_mem _ member, facts⟩
      · intro known
        apply complete
        rw [step]
        split
        · exact Or.inl rfl
        · rename_i outside
          rcases known with before | ⟨other, member, inside⟩
          · exact Or.inl before
          · rcases List.mem_cons.mp member with rfl | behind
            · exact absurd inside outside
            · exact Or.inr ⟨other, behind, inside⟩

theorem loops_foldl_addLoop_of_notMem (procedure : Procedure) {loops : List Loop}
    (grouping : Grouping) {id : Nat} (other : id ∉ loops.map (·.id)) :
    (loops.foldl (addLoop procedure) grouping).loops[id]? = grouping.loops[id]? := by
  induction loops generalizing grouping with
  | nil => rfl
  | cons loop loops ih =>
      rw [List.map_cons, List.mem_cons, not_or] at other
      rw [List.foldl_cons, ih _ other.2, addLoop, Std.TreeMap.getElem?_insert, if_neg]
      rw [Std.LawfulEqOrd.compare_eq_iff_eq]
      exact Ne.symm other.1

theorem loops_foldl_addLoop_of_mem (procedure : Procedure) {loops : List Loop}
    (grouping : Grouping) (distinct : (loops.map (·.id)).Nodup) {loop : Loop}
    (member : loop ∈ loops) :
    (loops.foldl (addLoop procedure) grouping).loops[loop.id]? =
      some { loop := loop.id, header := loop.header } := by
  induction loops generalizing grouping with
  | nil => cases member
  | cons first loops ih =>
      rw [List.map_cons, List.nodup_cons] at distinct
      rw [List.foldl_cons]
      rcases List.mem_cons.mp member with rfl | behind
      · rw [loops_foldl_addLoop_of_notMem procedure _ distinct.1, addLoop,
          Std.TreeMap.getElem?_insert_self]
      · exact ih _ distinct.2 behind

end Grouping

/-! ## Entries -/

/-- An access that was shown: the loop that it belongs to, the key of its group and its address. -/
structure Entry where
  loop : Nat
  key : String
  address : UInt64

namespace Grouping

def key? (subject : Subject) (store : Store) (statement : Statement) : Option String :=
  (coarseAddress? store statement).map fun coarse =>
    Arena.render (coarse.2.foldl Array.push store.arena)
      (subject.form.label subject.procedure.machine) coarse.1

def entryOf? (loopOf : Std.TreeMap UInt64 Nat) (subject : Subject) : Call → Option Entry
  | .shown statement _ store => do
      let address ← statement.address?
      let loop ← loopOf[address]?
      let key ← key? subject store statement
      some ⟨loop, key, address⟩
  | _ => none

def enter (grouping : Grouping) (entry : Entry) : Grouping :=
  match grouping.loops[entry.loop]? with
  | none => grouping
  | some groups =>
      { grouping with
        loops := grouping.loops.insert entry.loop (groups.insert entry.key entry.address) }

theorem loopOf_enter (grouping : Grouping) (entry : Entry) :
    (grouping.enter entry).loopOf = grouping.loopOf := by
  rw [enter]
  split <;> rfl

theorem loopOf_foldl_enter (entries : List Entry) (grouping : Grouping) :
    (entries.foldl enter grouping).loopOf = grouping.loopOf := by
  induction entries generalizing grouping with
  | nil => rfl
  | cons entry entries ih => rw [List.foldl_cons, ih, loopOf_enter]

theorem observe_eq_enter (grouping : Grouping) (statement : Statement) (result : Option ValueId)
    (subject : Subject) (store : Store) :
    (grouping.observe statement subject store).2 =
      (entryOf? grouping.loopOf subject (.shown statement result store)).toList.foldl enter
        grouping := by
  cases isAddress : statement.address? with
  | none => simp [observe, entryOf?, isAddress]
  | some address =>
      cases inLoop : grouping.loopOf[address]? with
      | none => simp [observe, entryOf?, isAddress, inLoop]
      | some loop =>
          cases isCoarse : coarseAddress? store statement with
          | none => simp [observe, entryOf?, key?, isAddress, inLoop, isCoarse]
          | some coarse =>
              cases known : grouping.loops[loop]? with
              | none => simp [observe, entryOf?, key?, enter, isAddress, inLoop, isCoarse, known]
              | some groups =>
                  simp [observe, entryOf?, key?, enter, isAddress, inLoop, isCoarse, known]

theorem loopOf_observe (grouping : Grouping) (statement : Statement) (subject : Subject)
    (store : Store) :
    (grouping.observe statement subject store).2.loopOf = grouping.loopOf := by
  rw [grouping.observe_eq_enter statement none subject store, loopOf_foldl_enter]

theorem filterMap_entryOf?_shown (loopOf : Std.TreeMap UInt64 Nat) (subject : Subject)
    (statement : Statement) (result : Option ValueId) (store : Store) (calls : List Call) :
    (Call.offered statement :: .shown statement result store :: calls).filterMap
        (entryOf? loopOf subject) =
      (entryOf? loopOf subject (.shown statement result store)).toList ++
        calls.filterMap (entryOf? loopOf subject) := by
  have offered : entryOf? loopOf subject (.offered statement) = none := rfl
  rw [List.filterMap_cons_none offered, List.filterMap_cons]
  cases entryOf? loopOf subject (.shown statement result store) <;> rfl

theorem accepts_eq {statement : Statement} {instruction : Instruction} (grouping : Grouping)
    (made : statement.instruction = some instruction) :
    grouping.accepts statement =
      (instruction.isAccess && (grouping.loopOf[instruction.address]?).isSome) := by
  simp only [accepts, made, Instruction.isAccess, Std.TreeMap.contains_eq_isSome_getElem?]

theorem exists_entry_of_accepts {grouping : Grouping} {statement : Statement}
    (accepted : grouping.accepts statement = true) (subject : Subject) (result : Option ValueId)
    (store : Store) :
    ∃ instruction loop key, statement.instruction = some instruction ∧
      instruction.isAccess = true ∧ grouping.loopOf[instruction.address]? = some loop ∧
      entryOf? grouping.loopOf subject (.shown statement result store) =
        some ⟨loop, key, instruction.address⟩ := by
  cases made : statement.instruction with
  | none => simp [accepts, made] at accepted
  | some instruction =>
      rw [accepts_eq grouping made, Bool.and_eq_true] at accepted
      obtain ⟨loop, inLoop⟩ := Option.isSome_iff_exists.mp accepted.2
      have refers : instruction.memoryOperand?.isSome = true := by
        have access := accepted.1
        simp only [Instruction.isAccess, Bool.and_eq_true] at access
        exact access.2
      obtain ⟨memory, found⟩ := Option.isSome_iff_exists.mp refers
      have hasKey : (key? subject store statement).isSome = true := by
        simp [key?, coarseAddress?, made, found]
      obtain ⟨key, isKey⟩ := Option.isSome_iff_exists.mp hasKey
      refine ⟨instruction, loop, key, rfl, accepted.1, inLoop, ?_⟩
      simp [entryOf?, Statement.address?, made, inLoop, isKey]

section Conversation

variable {policy : Policy} {subject : Subject} {own last : Grouping} {calls : List Call}

theorem eq_foldl_of_attends {statements : List Statement}
    (attends : (arrayGrouping policy).Attends subject statements own calls last) :
    last = (calls.filterMap (entryOf? own.loopOf subject)).foldl enter own := by
  induction attends with
  | done => rfl
  | declined _ _ ih => exact ih
  | @accepted statement _ calls own _ result store _ _ ih =>
      have entered := own.observe_eq_enter statement result subject store
      simp only [arrayGrouping, entered, loopOf_foldl_enter] at ih
      rw [ih, filterMap_entryOf?_shown, List.foldl_append]

theorem eq_foldl_of_attendsBlocks {blocks : List Ssa.Block}
    (attends : (arrayGrouping policy).AttendsBlocks subject blocks own calls last) :
    last = (calls.filterMap (entryOf? own.loopOf subject)).foldl enter own := by
  induction attends with
  | done => rfl
  | @block block _ calls later own middle _ here _ ih =>
      have first := eq_foldl_of_attends here
      have sameTable : middle.loopOf = own.loopOf := by rw [first, loopOf_foldl_enter]
      have unchanged : (arrayGrouping policy).leave middle block = middle := rfl
      rw [unchanged, sameTable, first, ← List.foldl_append] at ih
      rw [ih, List.filterMap_append]
      rfl

theorem addresses_of_attends {statements : List Statement} (id : Nat)
    (attends : (arrayGrouping policy).Attends subject statements own calls last) :
    ((calls.filterMap (entryOf? own.loopOf subject)).filter (·.loop = id)).map (·.address) =
      ((statements.filterMap (·.instruction)).filter fun instruction =>
        instruction.isAccess && (own.loopOf[instruction.address]? = some id)).map (·.address) := by
  induction attends with
  | done => rfl
  | @declined statement _ _ own _ declines _ ih =>
      have offered : entryOf? own.loopOf subject (.offered statement) = none := rfl
      rw [List.filterMap_cons_none offered, ih]
      cases made : statement.instruction with
      | none => rw [List.filterMap_cons_none made]
      | some instruction =>
          have notAccess : (instruction.isAccess &&
              (own.loopOf[instruction.address]? = some id)) = false := by
            have declined : own.accepts statement = false := declines
            rw [accepts_eq own made] at declined
            cases isAccess : instruction.isAccess with
            | false => rfl
            | true =>
                rw [isAccess, Bool.true_and, Option.isSome_eq_false_iff, Option.isNone_iff_eq_none]
                  at declined
                simp [declined]
          rw [List.filterMap_cons_some made, List.filter_cons_of_neg (by simp [notAccess])]
  | @accepted statement _ calls own _ result store accepts _ ih =>
      obtain ⟨instruction, loop, key, made, isAccess, inLoop, isEntry⟩ :=
        exists_entry_of_accepts accepts subject result store
      have sameTable := own.loopOf_observe statement subject store
      simp only [arrayGrouping, sameTable] at ih
      rw [filterMap_entryOf?_shown, isEntry, List.filterMap_cons_some made]
      simp only [Option.toList_some, List.singleton_append, List.filter_cons, isAccess, inLoop,
        Option.some.injEq, Bool.true_and]
      split
      · rw [List.map_cons, List.map_cons, ih]
      · exact ih

theorem addresses_of_attendsBlocks {blocks : List Ssa.Block} (id : Nat)
    (attends : (arrayGrouping policy).AttendsBlocks subject blocks own calls last) :
    ((calls.filterMap (entryOf? own.loopOf subject)).filter (·.loop = id)).map (·.address) =
      (((blocks.flatMap (·.machineStatements)).filterMap (·.instruction)).filter
        fun instruction => instruction.isAccess &&
          (own.loopOf[instruction.address]? = some id)).map (·.address) := by
  induction attends with
  | done => rfl
  | @block block _ calls later own middle _ here _ ih =>
      have first := addresses_of_attends id here
      have sameTable : middle.loopOf = own.loopOf := by
        rw [eq_foldl_of_attends here, loopOf_foldl_enter]
      have left : entryOf? own.loopOf subject (.left block) = none := rfl
      have unchanged : (arrayGrouping policy).leave middle block = middle := rfl
      rw [unchanged, sameTable] at ih
      simp only [List.filterMap_append, List.filterMap_cons_none left, List.filter_append,
        List.map_append, first, ih, List.flatMap_cons]

end Conversation

end Grouping

/-! ## Groups -/

namespace LoopGroups

def record (groups : LoopGroups) (entry : Entry) : LoopGroups :=
  groups.insert entry.key entry.address

theorem members_foldl_record (entries : List Entry) (groups : LoopGroups) (key : String) :
    ((entries.foldl record groups).groups[key]?).getD [] =
      (groups.groups[key]?).getD [] ++ (entries.filter (·.key = key)).map (·.address) := by
  induction entries generalizing groups with
  | nil => simp
  | cons entry entries ih =>
      rw [List.foldl_cons, ih, record, insert, Std.TreeMap.getElem?_insert]
      by_cases same : entry.key = key
      · simp [same]
      · simp [same]

theorem nonempty_foldl_record (entries : List Entry) {groups : LoopGroups}
    (nonempty : ∀ (key : String) (members : List UInt64), groups.groups[key]? = some members →
      members ≠ []) (key : String) (members : List UInt64)
    (found : (entries.foldl record groups).groups[key]? = some members) : members ≠ [] := by
  induction entries generalizing groups with
  | nil => exact nonempty key members found
  | cons entry entries ih =>
      refine ih ?_ found
      intro other otherMembers known
      rw [record, insert, Std.TreeMap.getElem?_insert] at known
      split at known
      · cases known
        simp
      · exact nonempty other otherMembers known

theorem kept_foldl_record (entries : List Entry) (groups : LoopGroups) :
    (entries.foldl record groups).loop = groups.loop ∧
      (entries.foldl record groups).header = groups.header := by
  induction entries generalizing groups with
  | nil => exact ⟨rfl, rfl⟩
  | cons entry entries ih => exact ih (groups.record entry)

theorem groupOf?_of_holds {groups : LoopGroups} {key : String} {address : UInt64}
    (holds : groups.Holds key address) (only : ∀ other, groups.Holds other address → other = key) :
    groups.groupOf? address = some key := by
  obtain ⟨members, found, member⟩ := holds
  have listed : (key, members) ∈ groups.toList :=
    Std.TreeMap.mem_toList_iff_getElem?_eq_some.mpr found
  rw [groupOf?]
  cases search : groups.toList.find? (fun group => group.2.contains address) with
  | none =>
      have missing := List.find?_eq_none.mp search _ listed
      simp [member] at missing
  | some group =>
      have isGroup := Std.TreeMap.mem_toList_iff_getElem?_eq_some.mp
        (List.mem_of_find?_eq_some search)
      have inGroup : address ∈ group.2 := by simpa using List.find?_some search
      exact congrArg some (only group.1 ⟨group.2, isGroup, inGroup⟩)

section Fresh

variable {entries : List Entry} {loop : Nat} {header : NodeId}

theorem getElem?_foldl_record {key : String} {members : List UInt64} :
    (entries.foldl record { loop, header }).groups[key]? = some members ↔
      members = (entries.filter (·.key = key)).map (·.address) ∧ members ≠ [] := by
  have all := members_foldl_record entries { loop, header } key
  rw [Std.TreeMap.getElem?_emptyc, Option.getD_none, List.nil_append] at all
  constructor
  · intro found
    rw [found, Option.getD_some] at all
    exact ⟨all, nonempty_foldl_record entries (by simp) key members found⟩
  · intro facts
    obtain ⟨same, someMember⟩ := facts
    rw [← all] at same
    cases found : (entries.foldl record { loop, header }).groups[key]? with
    | none => simp [found, same] at someMember
    | some other => simp [found, same]

theorem holds_foldl_record {key : String} {address : UInt64} :
    (entries.foldl record { loop, header }).Holds key address ↔
      ∃ entry ∈ entries, entry.key = key ∧ entry.address = address := by
  simp only [Holds, getElem?_foldl_record]
  constructor
  · intro grouped
    obtain ⟨_, ⟨rfl, _⟩, member⟩ := grouped
    obtain ⟨entry, isEntry, rfl⟩ := List.mem_map.mp member
    obtain ⟨listed, sameKey⟩ := List.mem_filter.mp isEntry
    exact ⟨entry, listed, of_decide_eq_true sameKey, rfl⟩
  · intro entered
    obtain ⟨entry, listed, rfl, rfl⟩ := entered
    have member : entry.address ∈ (entries.filter (·.key = entry.key)).map (·.address) :=
      List.mem_map_of_mem (List.mem_filter.mpr ⟨listed, decide_eq_true rfl⟩)
    exact ⟨_, ⟨rfl, List.ne_nil_of_mem member⟩, member⟩

theorem eq_of_holds_foldl_record (distinct : (entries.map (·.address)).Nodup)
    {key other : String} {address : UInt64}
    (holds : (entries.foldl record { loop, header }).Holds key address)
    (otherHolds : (entries.foldl record { loop, header }).Holds other address) : key = other := by
  obtain ⟨entry, listed, rfl, rfl⟩ := holds_foldl_record.mp holds
  obtain ⟨otherEntry, otherListed, rfl, sameAddress⟩ := holds_foldl_record.mp otherHolds
  rw [List.inj_on_of_nodup_map distinct listed otherListed sameAddress.symm]

/-- Sorting entries with different addresses by their keys partitions the addresses. -/
theorem partitions_foldl_record {addresses : List UInt64}
    (same : entries.map (·.address) = addresses) (distinct : addresses.Nodup) :
    (entries.foldl record { loop, header }).Partitions addresses := by
  subst same
  have ordered : ∀ {key : String} {members : List UInt64},
      (entries.foldl record { loop, header }).groups[key]? = some members →
      members.Sublist (entries.map (·.address)) := by
    intro key members found
    rw [(getElem?_foldl_record.mp found).1]
    exact List.filter_sublist.map _
  refine ⟨fun found => (getElem?_foldl_record.mp found).2, ordered,
    fun found => distinct.sublist (ordered found), ?_, ?_⟩
  · intro address member
    obtain ⟨entry, listed, rfl⟩ := List.mem_map.mp member
    have holds : (entries.foldl record { loop, header }).Holds entry.key entry.address :=
      holds_foldl_record.mpr ⟨entry, listed, rfl, rfl⟩
    exact ⟨entry.key, holds, fun other inOther => eq_of_holds_foldl_record distinct inOther holds⟩
  · intro key address holds
    exact groupOf?_of_holds holds fun other inOther =>
      eq_of_holds_foldl_record distinct inOther holds

end Fresh

end LoopGroups

namespace Grouping

theorem loops_foldl_enter (entries : List Entry) (grouping : Grouping) (id : Nat) :
    (entries.foldl enter grouping).loops[id]? =
      (grouping.loops[id]?).map ((entries.filter (·.loop = id)).foldl LoopGroups.record) := by
  induction entries generalizing grouping with
  | nil => simp
  | cons entry entries ih =>
      rw [List.foldl_cons, ih, enter, List.filter_cons]
      by_cases same : entry.loop = id
      · subst same
        cases known : grouping.loops[entry.loop]? with
        | none => simp [known]
        | some groups => simp [LoopGroups.record]
      · cases known : grouping.loops[entry.loop]? with
        | none => simp [same]
        | some groups => simp [same, Std.TreeMap.getElem?_insert]

/-! ## The grouping of a procedure -/

variable {procedure : Procedure}

theorem ascending_ids (procedure : Procedure) :
    (procedure.loops.innermostLoops.map (·.id)).Pairwise (· < ·) :=
  LoopForest.ascending_innermostLoops _ _

theorem mem_loopAddresses {loop : Loop} {address : UInt64} :
    address ∈ loopAddresses procedure loop ↔
      ∃ id ∈ loop.body, ∃ instruction ∈ procedure.instructionsOf id,
        instruction.address = address := by
  simp only [loopAddresses, List.mem_flatMap, List.mem_filterMap, List.mem_map, mem_instructionsOf]
  grind

/-- The table puts the instructions of a reachable block into the innermost loop that holds it. -/
theorem loopOf_start_iff (wellFormed : procedure.WellFormed) (distinct : procedure.addresses.Nodup)
    {id : NodeId} (reachable : procedure.graph.Reachable procedure.entry id)
    {instruction : Instruction} (member : instruction ∈ procedure.instructionsOf id) {loop : Loop}
    (isLoop : loop ∈ procedure.loops.innermostLoops) :
    (start procedure procedure.loops).loopOf[instruction.address]? = some loop.id ↔
      loop.contains id = true := by
  obtain ⟨sound, complete⟩ := loopOf_foldl_addLoop procedure procedure.loops.innermostLoops {}
    instruction.address
  -- Whatever loop the table names holds the block, since the address is in no other block.
  have holds : ∀ {number}, (start procedure procedure.loops).loopOf[instruction.address]? =
      some number → ∃ other ∈ procedure.loops.innermostLoops, other.id = number ∧
        id ∈ other.body := by
    intro number found
    rcases sound number found with before | ⟨other, isOther, sameId, inside⟩
    · simp at before
    · obtain ⟨block, inBody, otherInstruction, there, sameAddress⟩ := mem_loopAddresses.mp inside
      rw [block_eq_of_address distinct there member sameAddress] at inBody
      exact ⟨other, isOther, sameId, inBody⟩
  rw [Loop.contains, List.contains_iff_mem]
  constructor
  · intro found
    obtain ⟨other, isOther, sameId, inBody⟩ := holds found
    have ids := (ascending_ids procedure).imp Nat.ne_of_lt
    rw [← List.inj_on_of_nodup_map ids isOther isLoop sameId]
    exact inBody
  · intro inBody
    have inside := mem_loopAddresses.mpr ⟨id, inBody, instruction, member, rfl⟩
    obtain ⟨number, found⟩ :=
      Option.isSome_iff_exists.mp (complete (Or.inr ⟨loop, isLoop, inside⟩))
    obtain ⟨other, isOther, sameId, inOther⟩ := holds found
    have same := Digraph.eq_of_mem_innermostLoops wellFormed.graph wellFormed.entryExists isOther
      isLoop reachable inOther inBody
    rw [← same, sameId]
    exact found

theorem accesses_eq (wellFormed : procedure.WellFormed) (distinct : procedure.addresses.Nodup)
    {loop : Loop} (isLoop : loop ∈ procedure.loops.innermostLoops) {ids : List NodeId}
    (reachable : ∀ id ∈ ids, procedure.graph.Reachable procedure.entry id) :
    ((ids.flatMap procedure.instructionsOf).filter fun instruction => instruction.isAccess &&
        ((start procedure procedure.loops).loopOf[instruction.address]? = some loop.id)).map
        (·.address) = loop.accesses procedure ids := by
  rw [Loop.accesses]
  congr 1
  induction ids with
  | nil => rfl
  | cons id ids ih =>
      have here : (procedure.instructionsOf id).filter (fun instruction => instruction.isAccess &&
          ((start procedure procedure.loops).loopOf[instruction.address]? = some loop.id)) =
          (procedure.instructionsOf id).filter fun instruction =>
            instruction.isAccess && loop.contains id := by
        apply List.filter_congr
        intro instruction member
        have inLoop := loopOf_start_iff wellFormed distinct (reachable id List.mem_cons_self) member
          isLoop
        rw [Bool.eq_iff_iff.mpr (decide_eq_true_iff.trans inLoop)]
      rw [List.flatMap_cons, List.filter_append, here,
        ih fun other member => reachable other (List.mem_cons_of_mem _ member), List.filter_cons]
      cases loop.contains id with
      | true => simp
      | false => simp

def entries (procedure : Procedure) (policy : Policy) : List Entry :=
  ((arrayGrouping policy).transcript procedure).filterMap
    (entryOf? (start procedure procedure.loops).loopOf (.ofProcedure procedure))

theorem analyse_eq (wellFormed : procedure.WellFormed) (policy : Policy) :
    ((arrayGrouping policy).analyse procedure).2 =
      (entries procedure policy).foldl enter (start procedure procedure.loops) := by
  obtain ⟨blocks, _, attends⟩ := Client.attended_analyse (arrayGrouping policy) wellFormed
  exact eq_foldl_of_attendsBlocks attends

theorem addresses_entries (wellFormed : procedure.WellFormed)
    (distinct : procedure.addresses.Nodup) (policy : Policy) {loop : Loop}
    (isLoop : loop ∈ procedure.loops.innermostLoops) :
    ((entries procedure policy).filter (·.loop = loop.id)).map (·.address) =
      loop.accesses procedure ((arrayGrouping policy).visited procedure) := by
  obtain ⟨blocks, same, attends⟩ := Client.attended_analyse (arrayGrouping policy) wellFormed
  have instructions := congrArg (List.filterMap id) (Client.instructions_flatMap wellFormed same)
  rw [List.filterMap_map, List.filterMap_map, Function.id_comp, Function.id_comp,
    List.filterMap_some] at instructions
  refine (addresses_of_attendsBlocks loop.id attends).trans ?_
  rw [instructions]
  exact accesses_eq wellFormed distinct isLoop fun id => Client.reachable_of_mem_visited wellFormed

theorem loops_analyse (wellFormed : procedure.WellFormed) (policy : Policy) {loop : Loop}
    (isLoop : loop ∈ procedure.loops.innermostLoops) :
    ((arrayGrouping policy).analyse procedure).2.loops[loop.id]? =
      some (((entries procedure policy).filter (·.loop = loop.id)).foldl LoopGroups.record
        { loop := loop.id, header := loop.header }) := by
  have distinct := (ascending_ids procedure).imp Nat.ne_of_lt
  rw [analyse_eq wellFormed, loops_foldl_enter, start,
    loops_foldl_addLoop_of_mem procedure _ distinct isLoop, Option.map_some]

theorem keys_analyse (wellFormed : procedure.WellFormed) (policy : Policy) :
    ((arrayGrouping policy).analyse procedure).2.loops.keys =
      procedure.loops.innermostLoops.map (·.id) := by
  apply List.Pairwise.eq_of_mem_iff _ (ascending_ids procedure)
  · intro id
    rw [Std.TreeMap.mem_keys, Std.TreeMap.mem_iff_isSome_getElem?]
    by_cases isLoop : id ∈ procedure.loops.innermostLoops.map (·.id)
    · obtain ⟨loop, member, rfl⟩ := List.mem_map.mp isLoop
      rw [loops_analyse wellFormed policy member]
      exact iff_of_true rfl isLoop
    · have missing : ((arrayGrouping policy).analyse procedure).2.loops[id]? = none := by
        rw [analyse_eq wellFormed, loops_foldl_enter, start,
          loops_foldl_addLoop_of_notMem procedure _ isLoop]
        simp
      simp [missing, isLoop]
  · refine Std.TreeMap.ordered_keys.imp ?_
    intro first second before
    exact Nat.compare_eq_lt.mp before

/-- The groups that an analysis finds partition the accesses in the visited blocks of each
innermost loop. -/
theorem partitions_accesses (built : procedure.Built) (distinct : procedure.addresses.Nodup)
    (policy : Policy) :
    ((arrayGrouping policy).analyse procedure).2.Partitions procedure
      ((arrayGrouping policy).visited procedure) := by
  have wellFormed := built.wellFormed
  refine ⟨keys_analyse wellFormed policy, ?_⟩
  intro loop isLoop
  have addresses := addresses_entries wellFormed distinct policy isLoop
  obtain ⟨sameLoop, sameHeader⟩ := LoopGroups.kept_foldl_record
    ((entries procedure policy).filter (·.loop = loop.id))
    { loop := loop.id, header := loop.header }
  refine ⟨_, loops_analyse wellFormed policy isLoop, sameLoop, sameHeader,
    LoopGroups.partitions_foldl_record addresses ?_⟩
  exact nodup_accesses distinct loop (Client.nodup_visited (arrayGrouping policy) wellFormed)

end Grouping

namespace TwoArrays

def head : Array Instruction :=
  #[{ address := 8, mnemonic := "dec", family := .dec
      operands := [⟨.register ⟨0⟩, .readWrite⟩] },
    { address := 12, mnemonic := "mov", family := .move
      operands := [⟨.memory { base := some ⟨1⟩, index := some ⟨0⟩, scale := 8 }, .read⟩,
        ⟨.register ⟨2⟩, .write⟩] }]

def tail : Array Instruction :=
  #[{ address := 16, mnemonic := "add", family := .add
      operands := [⟨.memory { base := some ⟨4⟩, index := some ⟨0⟩, scale := 8 }, .read⟩,
        ⟨.register ⟨2⟩, .readWrite⟩] },
    { address := 20, mnemonic := "mov", family := .move
      operands := [⟨.register ⟨2⟩, .read⟩,
        ⟨.memory { base := some ⟨1⟩, index := some ⟨0⟩, scale := 8 }, .write⟩] }]

def procedure : Procedure where
  name := "twoarrays"
  machine := Countdown.machine
  entry := 0
  graph :=
    { nodes := #[⟨0, 0, false, Countdown.enter⟩, ⟨1, 1, false, head⟩, ⟨2, 2, false, tail⟩,
        ⟨3, 3, false, #[]⟩]
      edges := #[⟨0, 1, .fallthrough⟩, ⟨1, 2, .fallthrough⟩, ⟨2, 1, .taken⟩, ⟨2, 3, .notTaken⟩]
      outgoing := #[[0], [1], [2, 3], []]
      incoming := #[[], [0, 2], [1], [3]] }

theorem built : procedure.Built := by
  have blocks : Draft.Constructed (((({ name := "twoarrays", machine := Countdown.machine : Draft
      }.addBlock false Countdown.enter).addBlock false head).addBlock false tail).addBlock
      false #[]) :=
    .addBlock false _ (.addBlock false _ (.addBlock false _ (.addBlock false _ (.start _ _))))
  exact ⟨_, .addEdge 2 3 .notTaken (.addEdge 2 1 .taken (.addEdge 1 2 .fallthrough
    (.addEdge 0 1 .fallthrough blocks rfl) rfl) rfl) rfl, rfl⟩

end TwoArrays

namespace Grouping

theorem partitions_accesses_twoArrays :
    TwoArrays.procedure.Built ∧ TwoArrays.procedure.addresses.Nodup ∧
      ((arrayGrouping {}).analyse TwoArrays.procedure).2.Partitions TwoArrays.procedure
        ((arrayGrouping {}).visited TwoArrays.procedure) :=
  ⟨TwoArrays.built, by decide, partitions_accesses TwoArrays.built (by decide) {}⟩

/-- The loop has three accesses, and they come into two groups. -/
example : TwoArrays.procedure.loops.innermostLoops.map (fun loop => loop.accesses
      TwoArrays.procedure ((arrayGrouping {}).visited TwoArrays.procedure)) = [[12, 16, 20]] ∧
    (((arrayGrouping {}).analyse TwoArrays.procedure).2.loops[0]?).map (·.toList.map (·.2)) =
      some [[12, 20], [16]] := by
  decide +kernel

end Grouping

end SymbolicFlow

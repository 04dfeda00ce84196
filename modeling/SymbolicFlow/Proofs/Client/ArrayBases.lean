import SymbolicFlow.Proofs.Analysis.Values
import SymbolicFlow.Proofs.Client.Grouping
import SymbolicFlow.Proofs.Ssa.SingleAssignment
import SymbolicFlow.Proofs.Value.Faithful

/-!
# What a group says about bases

The key of an access without an index is the value of its base, marked as loaded.  A value that is
loaded already stays as it is.  So the pointer that is stored at an address and the address itself
make the same key, and accesses through them come into one group although they go to different
arrays; `Indirection` is a procedure with two such accesses.

A key forgets nothing else about a base.  What is printed of an expression with the mark decides
what is printed of it without, so two accesses of a group that have no index go to the same address
just when both bases were loaded from memory or neither was.
-/

set_option autoImplicit false

namespace SymbolicFlow

open Ssa (Statement Location)

/-! ## Marks -/

namespace Tree

theorem isLoaded_masked (inAddress : Bool) (tree : Tree) :
    (tree.masked inAddress true).isLoaded = tree.isLoaded := by
  cases tree <;> simp [masked, isLoaded]

/-- To leave out constants, it does no harm if some of them have been left out before. -/
theorem masked_masked (tree : Tree) {wide narrow : Bool} (within : narrow = true → wide = true) :
    (tree.masked wide false).masked narrow false = tree.masked narrow false := by
  induction tree generalizing wide narrow with
  | immediate value loaded => cases wide <;> cases narrow <;> cases loaded <;> simp_all [masked]
  | binary operator left right loaded ihLeft ihRight =>
      have passed : (operator.isAdditive && (narrow || loaded)) = true →
          (operator.isAdditive && (wide || loaded)) = true := by
        cases narrow <;> simp_all
      simp only [masked, ihLeft passed, ihRight passed]
  | unary operator operand loaded ih => simp only [masked, ih id]
  | _ => rfl

/-- What is printed of an expression can be found out from what is printed of it as an address. -/
theorem masked_remarked (tree : Tree) :
    (((tree.remarked true).masked false true).remarked tree.isLoaded).masked false true =
      tree.masked false true := by
  cases tree with
  | immediate value loaded => simp [remarked, masked, isLoaded]
  | binary operator left right loaded =>
      have passed : (operator.isAdditive && (false || loaded)) = true →
          (operator.isAdditive && (false || true)) = true := by simp_all
      simp only [remarked, masked, isLoaded, masked_masked _ passed]
  | unary operator operand loaded => simp only [remarked, masked, isLoaded, masked_masked _ id]
  | _ => rfl

theorem masked_eq_iff_of_remarked {tree other : Tree}
    (same : (tree.remarked true).masked false true = (other.remarked true).masked false true) :
    tree.masked false true = other.masked false true ↔ tree.isLoaded = other.isLoaded := by
  constructor
  · intro alike
    rw [← isLoaded_masked false tree, alike, isLoaded_masked]
  · intro marks
    rw [← masked_remarked tree, ← masked_remarked other, same, marks]

end Tree

/-! ## Keys -/

/-- The variable of the base of an access that has no index. -/
def Ssa.Statement.loneBase? (statement : Statement) : Option VarId :=
  (statement.instruction.bind Instruction.memoryOperand?).bind fun memory =>
    if statement.indexVar? memory.1 = none then statement.operandVar? memory.1 else none

theorem Ssa.Statement.loneBase?_eq_some_iff {statement : Statement} {base : VarId} :
    statement.loneBase? = some base ↔
      ∃ position reference, statement.instruction.bind Instruction.memoryOperand? =
          some (position, reference) ∧
        statement.indexVar? position = none ∧ statement.operandVar? position = some base := by
  simp [loneBase?, Option.bind_eq_some_iff, Prod.exists]

namespace Grouping

theorem children_coarseAddress? {store : Store} (valid : store.Valid) {statement : Statement}
    {coarse : ValueId × List Node} (isCoarse : coarseAddress? store statement = some coarse) :
    ∀ node ∈ coarse.2, ∀ child ∈ node.shape.children, child < store.arena.size := by
  have inside : ∀ {var : Option VarId} {value : ValueId}, var.bind store.valueOf? = some value →
      value < store.arena.size := by
    intro var value known
    obtain ⟨_, _, bound⟩ := Option.bind_eq_some_iff.mp known
    exact valid.values bound
  obtain ⟨⟨position, reference⟩, _, rfl⟩ := Option.map_eq_some_iff.mp isCoarse
  intro node added
  dsimp only at added
  split at added
  · rename_i isBase isIndex
    cases List.mem_singleton.mp added
    simp [Shape.children, inside isBase, inside isIndex]
  · split at added
    · cases added
    · rename_i isNode
      cases List.mem_singleton.mp added
      exact valid.remarked isNode
  · split at added
    · cases added
    · rename_i isNode
      cases List.mem_singleton.mp added
      exact valid.remarked isNode
  · cases List.mem_singleton.mp added
    simp [Shape.children]

theorem usesShown_arrayGrouping (policy : Policy) : (arrayGrouping policy).UsesShown := by
  intro grouping statement result subject store valid node added
  have nodes : (grouping.observe statement subject store).1 = [] ∨
      ∃ coarse, coarseAddress? store statement = some coarse ∧
        (grouping.observe statement subject store).1 = coarse.2 := by
    unfold observe
    split
    · exact Or.inl rfl
    · split
      · exact Or.inl rfl
      · split
        · exact Or.inl rfl
        · rename_i isCoarse
          right
          refine ⟨_, isCoarse, ?_⟩
          dsimp only
          split <;> rfl
  have isAdded : node ∈ (grouping.observe statement subject store).1 := added
  rcases nodes with nothing | ⟨coarse, isCoarse, same⟩
  · rw [nothing] at isAdded
    cases isAdded
  · rw [same] at isAdded
    exact children_coarseAddress? valid isCoarse node isAdded

/-- The key of an access without an index is its base, marked as loaded. -/
theorem key?_of_loneBase (subject : Subject) {store : Store} (valid : store.Valid)
    {statement : Statement} {base : VarId} {value : ValueId}
    (lone : statement.loneBase? = some base) (bound : store.valueOf? base = some value) :
    key? subject store statement = some (((store.arena.tree value).remarked true).render
      (subject.form.label subject.procedure.machine) false true) := by
  obtain ⟨position, reference, isOperand, noIndex, isBase⟩ :=
    Statement.loneBase?_eq_some_iff.mp lone
  obtain ⟨⟨shape, loaded⟩, found⟩ : ∃ node, store.arena[value]? = some node :=
    ⟨_, Array.getElem?_eq_getElem (valid.values bound)⟩
  have isTree := Arena.tree_of_node found (valid.nodes found)
  cases loaded with
  | true =>
      have kept : (store.arena.tree value).remarked true = store.arena.tree value := by
        rw [isTree, Node.remarked_tree]
      rw [kept, ← Arena.render_eq]
      simp [key?, coarseAddress?, isOperand, noIndex, isBase, bound, Store.remarked?, found]
  | false =>
      have children : ∀ child ∈ shape.children, child < store.arena.size := fun child member =>
        Nat.lt_trans (valid.nodes found child member) (valid.values bound)
      have added := @Store.tree_alloc store ⟨shape, true⟩ children
      rw [isTree, Node.remarked_tree, ← added, ← Arena.render_eq]
      simp [key?, coarseAddress?, isOperand, noIndex, isBase, bound, Store.remarked?, found,
        Store.alloc]

end Grouping

/-! ## Bases -/

def Instruction.hasLoneBase (instruction : Instruction) : Bool :=
  match instruction.memoryOperand? with
  | none => false
  | some (_, reference) => reference.base.isSome && reference.index.isNone

namespace Ssa

theorem exists_operand_of_memoryOperand? {instruction : Instruction} {position : Nat}
    {reference : MemoryReference}
    (isOperand : instruction.memoryOperand? = some (position, reference)) :
    ∃ operand, instruction.operands[position]? = some operand ∧
      operand.memory? = some reference := by
  obtain ⟨⟨operand, index⟩, listed, found⟩ := List.exists_of_findSome?_eq_some isOperand
  obtain ⟨_, refers, same⟩ := Option.map_eq_some_iff.mp found
  cases same
  exact ⟨operand, List.mem_zipIdx_iff_getElem?.mp listed, refers⟩

theorem slotReads_of_memory? (programCounter : Register) {operand : Operand}
    {reference : MemoryReference} (refers : operand.memory? = some reference) {register : Register}
    (isBase : reference.base = some register) :
    operand.slotReads programCounter = (some register, reference.index) := by
  unfold Operand.memory? at refers
  split at refers
  · rename_i isMemory
    cases refers
    simp only [Operand.slotReads, isMemory, isBase]
  · rename_i isMemory
    cases refers
    simp only [Operand.slotReads, isMemory, isBase, Option.getD_some]
  · cases refers

theorem slotReads_of_hasLoneBase (programCounter : Register) {instruction : Instruction}
    (lone : instruction.hasLoneBase = true) :
    ∃ position reference register, instruction.memoryOperand? = some (position, reference) ∧
      (instruction.slotReads programCounter)[2 * position]? = some (some register) ∧
      (instruction.slotReads programCounter)[2 * position + 1]? = some none := by
  unfold Instruction.hasLoneBase at lone
  split at lone
  · cases lone
  rename_i position reference isOperand
  rw [Bool.and_eq_true, Option.isNone_iff_eq_none] at lone
  obtain ⟨register, isBase⟩ := Option.isSome_iff_exists.mp lone.1
  obtain ⟨operand, listed, refers⟩ := exists_operand_of_memoryOperand? isOperand
  have reads := slotReads_of_memory? programCounter refers isBase
  obtain ⟨primary, secondary⟩ := getElem?_slotReads programCounter listed
  rw [reads] at primary secondary
  exact ⟨position, reference, register, isOperand, primary, lone.2 ▸ secondary⟩

theorem exists_loneBase {procedure : Procedure} (wellFormed : procedure.WellFormed)
    {place : Location} {statement : Statement}
    (placed : procedure.ssa.statement? place = some statement) {instruction : Instruction}
    (made : statement.instruction = some instruction) (lone : instruction.hasLoneBase = true) :
    ∃ base, statement.loneBase? = some base ∧ base ∈ statement.usedVars := by
  obtain ⟨phis, exits, naming, construction⟩ := exists_construction wellFormed
  obtain ⟨position, reference, register, isOperand, readsBase, readsNothing⟩ :=
    slotReads_of_hasLoneBase procedure.machine.programCounter lone
  have base := construction.isSome_slot placed made (2 * position)
  have index := construction.isSome_slot placed made (2 * position + 1)
  rw [readsBase] at base
  rw [readsNothing] at index
  obtain ⟨base, isBase⟩ := Option.isSome_iff_exists.mp base
  have noIndex : statement.indexVar? position = none :=
    Option.isNone_iff_eq_none.mp (Option.isSome_eq_false_iff.mp index)
  refine ⟨base, Statement.loneBase?_eq_some_iff.mpr ⟨position, reference, ?_, noIndex, isBase⟩,
    Statement.mem_usedVars_of_slot isBase⟩
  rw [made, Option.bind_some, isOperand]

end Ssa

/-! ## Addresses of statements -/

section Addresses

variable {procedure : Procedure} (wellFormed : procedure.WellFormed)
include wellFormed

theorem Procedure.mem_of_address {place : Location} {statement : Statement}
    (placed : procedure.ssa.statement? place = some statement) {address : UInt64}
    (isAddress : statement.address? = some address) :
    ∃ block instruction, procedure.ssa.block? place.block = some block ∧
      statement ∈ block.machineStatements ∧
      instruction ∈ procedure.instructionsOf place.block ∧ instruction.address = address := by
  obtain ⟨block, found, here⟩ := Option.bind_eq_some_iff.mp placed
  obtain ⟨instruction, made, same⟩ := Option.map_eq_some_iff.mp isAddress
  have member : statement ∈ block.machineStatements :=
    List.mem_filter.mpr ⟨Array.mem_toList_iff.mpr (Array.mem_of_getElem? here),
      by simp [Statement.isPhi, made]⟩
  have listed := List.mem_map_of_mem (f := (·.instruction)) member
  rw [Client.instructions_machineStatements wellFormed found, made] at listed
  obtain ⟨_, isInstruction, isMade⟩ := List.mem_map.mp listed
  cases isMade
  exact ⟨block, instruction, found, member, isInstruction, same⟩

theorem Procedure.eq_of_address (distinct : procedure.addresses.Nodup)
    {place otherPlace : Location} {statement other : Statement}
    (placed : procedure.ssa.statement? place = some statement)
    (otherPlaced : procedure.ssa.statement? otherPlace = some other) {address : UInt64}
    (here : statement.address? = some address) (there : other.address? = some address) :
    statement = other := by
  obtain ⟨block, instruction, found, member, isInstruction, isHere⟩ :=
    mem_of_address wellFormed placed here
  obtain ⟨otherBlock, otherInstruction, otherFound, otherMember, isOther, isThere⟩ :=
    mem_of_address wellFormed otherPlaced there
  have sameBlock := block_eq_of_address distinct isInstruction isOther (isHere.trans isThere.symm)
  rw [← sameBlock] at otherFound
  cases found.symm.trans otherFound
  have addresses : block.machineStatements.map (·.address?) =
      ((procedure.instructionsOf place.block).map (·.address)).map some := by
    have instructions := congrArg (List.map (Option.map Instruction.address))
      (Client.instructions_machineStatements wellFormed found)
    rw [List.map_map, List.map_map] at instructions
    rw [List.map_map]
    exact instructions
  have once : (block.machineStatements.map (·.address?)).Nodup := by
    have inBlock := nodup_flatMap_addresses distinct (List.nodup_singleton place.block)
    rw [List.flatMap_singleton] at inBlock
    rw [addresses]
    exact inBlock.map (Option.some_injective _)
  exact List.inj_on_of_nodup_map once member otherMember (here.trans there.symm)

end Addresses

/-! ## Accesses without an index -/

namespace Grouping

variable {procedure : Procedure} {policy : Policy}

/-- What is in a group was shown, and made the key of the group. -/
theorem exists_shown_of_holds (wellFormed : procedure.WellFormed) {loop : Nat}
    {groups : LoopGroups}
    (found : ((arrayGrouping policy).analyse procedure).2.loops[loop]? = some groups)
    {key : String} {address : UInt64} (holds : groups.Holds key address) :
    ∃ statement result store,
      Call.shown statement result store ∈ (arrayGrouping policy).transcript procedure ∧
      statement.address? = some address ∧
      key? (.ofProcedure procedure) store statement = some key := by
  have isKey : loop ∈ ((arrayGrouping policy).analyse procedure).2.loops.keys := by
    rw [Std.TreeMap.mem_keys, Std.TreeMap.mem_iff_isSome_getElem?, found]
    rfl
  rw [keys_analyse wellFormed] at isKey
  obtain ⟨innermost, isLoop, rfl⟩ := List.mem_map.mp isKey
  rw [loops_analyse wellFormed policy isLoop, Option.some.injEq] at found
  subst found
  obtain ⟨entry, listed, rfl, rfl⟩ := LoopGroups.holds_foldl_record.mp holds
  obtain ⟨call, told, isEntry⟩ := List.mem_filterMap.mp (List.mem_of_mem_filter listed)
  cases call with
  | shown statement result store =>
      simp only [entryOf?, Option.bind_eq_bind, Option.bind_eq_some_iff,
        Option.some.injEq] at isEntry
      obtain ⟨address, isAddress, _, _, key, madeKey, rfl⟩ := isEntry
      exact ⟨statement, result, store, told, isAddress, madeKey⟩
  | offered => cases isEntry
  | left => cases isEntry

abbrev finalStore (procedure : Procedure) (policy : Policy) : Store :=
  ((arrayGrouping policy).analyse procedure).1.store

def baseValue? (procedure : Procedure) (policy : Policy) (statement : Statement) :
    Option ValueId :=
  statement.loneBase?.bind (finalStore procedure policy).valueOf?

structure LoneAccess (procedure : Procedure) (policy : Policy) (loop : Nat) (key : String)
    (statement : Statement) : Prop where
  placed : ∃ place, procedure.ssa.statement? place = some statement
  lone : ∃ instruction, statement.instruction = some instruction ∧ instruction.hasLoneBase = true
  grouped : ∃ groups address,
    ((arrayGrouping policy).analyse procedure).2.loops[loop]? = some groups ∧
      statement.address? = some address ∧ groups.Holds key address

end Grouping

/-! ## A pointer and the address where it is stored -/

namespace Indirection

open Machine.X64

def enter : Array Instruction :=
  #[{ address := 4096, mnemonic := "mov", family := .move
      operands := [⟨.memory { base := some rdi }, .read⟩, ⟨.register rax, .write⟩] },
    { address := 4100, mnemonic := "lea", family := .lea
      operands := [⟨.memory { base := some rdi }, .read⟩, ⟨.register rbx, .write⟩] }]

def throughPointer : Instruction where
  address := 4112
  mnemonic := "mov"
  family := .move
  operands := [⟨.memory { base := some rax }, .read⟩, ⟨.register rcx, .write⟩]

def throughAddress : Instruction where
  address := 4116
  mnemonic := "mov"
  family := .move
  operands := [⟨.memory { base := some rbx }, .read⟩, ⟨.register rdx, .write⟩]

def procedure : Procedure where
  name := "two_bases"
  machine := .x64
  entry := 0
  graph :=
    { nodes := #[⟨0, 0, false, enter⟩, ⟨1, 1, false, #[throughPointer, throughAddress]⟩,
        ⟨2, 2, false, #[]⟩]
      edges := #[⟨0, 1, .fallthrough⟩, ⟨1, 1, .taken⟩, ⟨1, 2, .notTaken⟩]
      outgoing := #[[0], [1, 2], []]
      incoming := #[[], [0, 1], [2]] }

theorem built : procedure.Built := by
  have blocks : Draft.Constructed ((({ name := "two_bases", machine := .x64 : Draft}.addBlock
      false enter).addBlock false #[throughPointer, throughAddress]).addBlock false #[]) :=
    .addBlock false _ (.addBlock false _ (.addBlock false _ (.start _ _)))
  exact ⟨_, .addEdge 1 2 .notTaken (.addEdge 1 1 .taken (.addEdge 0 1 .fallthrough blocks
    rfl) rfl) rfl, rfl⟩

def pointerAccess : Statement where
  instruction := some throughPointer
  slots := [some 3, none, none, none]
  outputs := [5]

def addressAccess : Statement where
  instruction := some throughAddress
  slots := [some 4, none, none, none]
  outputs := [6]

def key : String := "@[(0+rdi_0)]"

theorem exists_groups : ∃ groups, ((arrayGrouping {}).analyse procedure).2.loops[0]? = some groups ∧
    groups.Holds key 4112 ∧ groups.Holds key 4116 := by
  have only : (((arrayGrouping {}).analyse procedure).2.loops[0]?).map (·.toList) =
      some [(key, [4112, 4116])] := by decide +kernel
  obtain ⟨groups, found, isList⟩ := Option.map_eq_some_iff.mp only
  have listed : (key, [4112, 4116]) ∈ groups.toList := by
    rw [isList]
    exact List.mem_singleton_self _
  have isGroup := Std.TreeMap.mem_toList_iff_getElem?_eq_some.mp listed
  exact ⟨groups, found, ⟨_, isGroup, by decide⟩, ⟨_, isGroup, by decide⟩⟩

theorem loneAccess_pointer : Grouping.LoneAccess procedure {} 0 key pointerAccess := by
  obtain ⟨groups, found, holds, _⟩ := exists_groups
  exact ⟨⟨⟨1, 2⟩, by decide +kernel⟩, ⟨throughPointer, rfl, by decide⟩,
    ⟨groups, 4112, found, rfl, holds⟩⟩

theorem loneAccess_address : Grouping.LoneAccess procedure {} 0 key addressAccess := by
  obtain ⟨groups, found, _, holds⟩ := exists_groups
  exact ⟨⟨⟨1, 3⟩, by decide +kernel⟩, ⟨throughAddress, rfl, by decide⟩,
    ⟨groups, 4116, found, rfl, holds⟩⟩

end Indirection

namespace Grouping

open Indirection

/-- A group can mix bases that are different addresses. -/
theorem mixes_bases_indirection :
    Indirection.procedure.Built ∧ Indirection.procedure.addresses.Nodup ∧
      LoneAccess Indirection.procedure {} 0 Indirection.key pointerAccess ∧
      LoneAccess Indirection.procedure {} 0 Indirection.key addressAccess ∧
      ∃ value otherValue, baseValue? Indirection.procedure {} pointerAccess = some value ∧
        baseValue? Indirection.procedure {} addressAccess = some otherValue ∧
        (finalStore Indirection.procedure {}).sameAddress (Indirection.procedure.ssa.label .x64)
          value otherValue = false :=
  ⟨built, by decide, loneAccess_pointer, loneAccess_address, 4, 9, by decide +kernel,
    by decide +kernel, by decide +kernel⟩

/-! ## What the key keeps of a base -/

variable {procedure : Procedure} {policy : Policy}

theorem LoneAccess.exists_value (wellFormed : procedure.WellFormed)
    (distinct : procedure.addresses.Nodup) {loop : Nat} {key : String} {statement : Statement}
    (access : LoneAccess procedure policy loop key statement) :
    ∃ value, baseValue? procedure policy statement = some value ∧
      ((finalStore procedure policy).arena.tree value).Conventional ∧
      key = (((finalStore procedure policy).arena.tree value).remarked true).render
        (procedure.ssa.label procedure.machine) false true := by
  obtain ⟨place, placed⟩ := access.placed
  obtain ⟨instruction, made, lone⟩ := access.lone
  obtain ⟨groups, address, found, isAddress, holds⟩ := access.grouped
  obtain ⟨other, result, store, told, sameAddress, isKey⟩ :=
    exists_shown_of_holds wellFormed found holds
  have isShown := (Client.spans_analyse (arrayGrouping policy) wellFormed).shown told
  have same : other = statement := by
    obtain ⟨otherPlace, _, otherPlaced, _⟩ := isShown
    exact procedure.eq_of_address wellFormed distinct otherPlaced placed sameAddress isAddress
  subst same
  obtain ⟨valid, grows, faithful⟩ := isShown.faithful (usesShown_arrayGrouping policy) wellFormed
    (Client.faithful_initial _ wellFormed)
  obtain ⟨base, isBase, reads⟩ := Ssa.exists_loneBase wellFormed placed made lone
  -- The base is bound when the access is shown, and keeps its value and its expression.
  obtain ⟨value, bound⟩ := Store.isBound_iff.mp ((isShown.covered wellFormed).1 base reads)
  have inTheEnd := grows.values bound
  refine ⟨value, ?_, faithful.conventional inTheEnd, ?_⟩
  · rw [baseValue?, isBase]
    exact inTheEnd
  · rw [finalStore, grows.tree (valid.values bound)]
    exact Option.some.inj (isKey.symm.trans (key?_of_loneBase _ valid isBase bound))

/-- Two accesses of a group that have no index go to the same address just when both of their bases
were loaded from memory or neither was. -/
theorem sameAddress_iff_of_loneAccess (built : procedure.Built)
    (names : procedure.machine.PlainNames) (distinct : procedure.addresses.Nodup)
    {loop : Nat} {key : String} {statement other : Statement}
    (access : LoneAccess procedure policy loop key statement)
    (otherAccess : LoneAccess procedure policy loop key other) :
    ∃ value otherValue, baseValue? procedure policy statement = some value ∧
      baseValue? procedure policy other = some otherValue ∧
      ((finalStore procedure policy).sameAddress (procedure.ssa.label procedure.machine) value
          otherValue = true ↔
        ((finalStore procedure policy).arena.tree value).isLoaded =
          ((finalStore procedure policy).arena.tree otherValue).isLoaded) := by
  have wellFormed := built.wellFormed
  have readable := Ssa.readable_label names wellFormed
  obtain ⟨value, isValue, conventional, isKey⟩ := access.exists_value wellFormed distinct
  obtain ⟨otherValue, isOther, otherConventional, sameKey⟩ :=
    otherAccess.exists_value wellFormed distinct
  have printed := Tree.render_eq_iff readable conventional otherConventional false true
  have marked := (Tree.render_eq_iff readable (Tree.conventional_remarked.mpr conventional)
    (Tree.conventional_remarked.mpr otherConventional) false true).mp (isKey.symm.trans sameKey)
  refine ⟨value, otherValue, isValue, isOther, ?_⟩
  rw [Store.sameAddress_iff, Arena.render_eq, Arena.render_eq, printed]
  exact Tree.masked_eq_iff_of_remarked marked

theorem sameAddress_iff_of_loneAccess_indirection :
    Indirection.procedure.Built ∧ Indirection.procedure.machine.PlainNames ∧
      Indirection.procedure.addresses.Nodup ∧
      LoneAccess Indirection.procedure {} 0 Indirection.key pointerAccess ∧
      LoneAccess Indirection.procedure {} 0 Indirection.key addressAccess ∧
      ∃ value otherValue, baseValue? Indirection.procedure {} pointerAccess = some value ∧
        baseValue? Indirection.procedure {} addressAccess = some otherValue ∧
        ((finalStore Indirection.procedure {}).sameAddress (Indirection.procedure.ssa.label .x64)
            value otherValue = true ↔
          ((finalStore Indirection.procedure {}).arena.tree value).isLoaded =
            ((finalStore Indirection.procedure {}).arena.tree otherValue).isLoaded) :=
  ⟨built, Machine.X64.plainNames, by decide, loneAccess_pointer, loneAccess_address,
    sameAddress_iff_of_loneAccess built Machine.X64.plainNames (by decide) loneAccess_pointer
      loneAccess_address⟩

end Grouping

end SymbolicFlow

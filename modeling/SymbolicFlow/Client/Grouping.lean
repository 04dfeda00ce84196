import SymbolicFlow.Analysis

/-!
# Grouping array accesses

A client that groups the memory accesses of innermost loops by a coarse address, made of the
values of base and index only.  Accesses whose coarse addresses are printed alike are taken to
go to the same array.
-/

set_option autoImplicit false

namespace SymbolicFlow

/-- The groups of one loop: coarse address as text, and the addresses of the instructions in
the order in which they were seen. -/
structure LoopGroups where
  loop : Nat
  header : NodeId
  groups : Std.TreeMap String (List UInt64) := {}

namespace LoopGroups

def insert (groups : LoopGroups) (key : String) (address : UInt64) : LoopGroups :=
  { groups with
    groups := groups.groups.insert key ((groups.groups[key]?).getD [] ++ [address]) }

def toList (groups : LoopGroups) : List (String × List UInt64) := groups.groups.toList

def shared (groups : LoopGroups) : List (String × List UInt64) :=
  groups.toList.filter fun (_, addresses) => 1 < addresses.length

def groupOf? (groups : LoopGroups) (address : UInt64) : Option String :=
  (groups.toList.find? fun (_, addresses) => addresses.contains address).map (·.1)

end LoopGroups

structure Grouping where
  loops : Std.TreeMap Nat LoopGroups := {}
  /-- The innermost loop in which the instruction at an address lies. -/
  loopOf : Std.TreeMap UInt64 Nat := {}

namespace Grouping

def loopAddresses (procedure : Procedure) (loop : Loop) : List UInt64 :=
  (loop.body.filterMap procedure.block?).flatMap fun block =>
    block.instructions.toList.map (·.address)

/-- Enters an innermost loop.  An address that lies in two loops belongs to the later one. -/
def addLoop (procedure : Procedure) (grouping : Grouping) (loop : Loop) : Grouping where
  loops := grouping.loops.insert loop.id { loop := loop.id, header := loop.header }
  loopOf := (loopAddresses procedure loop).foldl
    (fun loopOf address => loopOf.insert address loop.id) grouping.loopOf

def start (procedure : Procedure) (forest : LoopForest) : Grouping :=
  forest.innermostLoops.foldl (addLoop procedure) {}

/-- Memory accesses in innermost loops; computing an address, calls and filler do not count. -/
def accepts (grouping : Grouping) (statement : Ssa.Statement) : Bool :=
  match statement.instruction with
  | none => false
  | some instruction =>
      instruction.family != .lea && instruction.family != .call && instruction.family != .nop &&
        instruction.referencesMemory && grouping.loopOf.contains instruction.address

/-- The coarse address of the first memory operand, as a value and the nodes that have to be
added for it: the sum of base and index, or the one of them that is bound, or else the offset,
always loaded. -/
def coarseAddress? (store : Store) (statement : Ssa.Statement) : Option (ValueId × List Node) :=
  (statement.instruction.bind Instruction.memoryOperand?).map fun (position, reference) =>
    let base := (statement.operandVar? position).bind store.valueOf?
    let index := (statement.indexVar? position).bind store.valueOf?
    let fresh := store.arena.size
    let marked (value : ValueId) : ValueId × List Node :=
      match Store.remarked? store.arena value true with
      | none => (value, [])
      | some node => (fresh, [node])
    match base, index with
    | some base, some index => (fresh, [⟨.binary .add base index, true⟩])
    | some part, none => marked part
    | none, some part => marked part
    | none, none => (fresh, [⟨.immediate reference.offset, true⟩])

def observe (grouping : Grouping) (statement : Ssa.Statement) (subject : Subject)
    (store : Store) : List Node × Grouping :=
  match statement.address? with
  | none => ([], grouping)
  | some address =>
      match grouping.loopOf[address]? with
      | none => ([], grouping)
      | some loop =>
          match coarseAddress? store statement with
          | none => ([], grouping)
          | some (value, nodes) =>
              let arena : Arena := nodes.foldl Array.push store.arena
              let key := arena.render (subject.form.label subject.procedure.machine) value
              match grouping.loops[loop]? with
              | none => (nodes, grouping)
              | some groups =>
                  (nodes,
                    { grouping with loops := grouping.loops.insert loop (groups.insert key address) })

end Grouping

def arrayGrouping (policy : Policy) : Client Grouping where
  policy := policy
  start := fun subject _ => Grouping.start subject.procedure subject.forest
  accepts := Grouping.accepts
  observe := fun grouping statement _ subject store => grouping.observe statement subject store

end SymbolicFlow

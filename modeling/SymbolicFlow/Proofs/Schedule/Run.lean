import SymbolicFlow.Proofs.Digraph.BreadthFirst
import SymbolicFlow.Proofs.Procedure
import SymbolicFlow.Schedule

/-!
# Runs of a schedule

A run asks for one block after the other.  A request that is answered takes its block from the
queue, after the queue was filled if it was empty: by a sweep, or by force.  `next_cases` says so
once; all invariants follow from it.

The visited blocks followed by the waiting ones form a list that only grows at its end.  It starts
with the entry, holds no block twice, and holds reachable blocks only.  So a run answers no more
requests than there are blocks.  Once a request finds nothing, no visited block has a successor
that could still be forced, and what is connected to the entry by blocks of code has been visited.
-/

set_option autoImplicit false

namespace SymbolicFlow

def Procedure.IsCode (procedure : Procedure) (block : NodeId) : Prop :=
  ∃ data, procedure.block? block = some data ∧ data.padding = false

namespace Schedule

def after (procedure : Procedure) : (requests : Nat) → Schedule
  | 0 => start procedure
  | requests + 1 => ((after procedure requests).next procedure procedure.loops).2.1

def answer (procedure : Procedure) (request : Nat) : Option NodeId :=
  ((after procedure request).next procedure procedure.loops).1

/-! ## One request -/

/-- What is put into the queue before a block is taken out, and how much of it by force. -/
inductive Fills (procedure : Procedure) (schedule : Schedule) :
    (newcomers : List NodeId) → (forced : Nat) → Prop where
  | waiting : schedule.queue ≠ [] → Fills procedure schedule [] 0
  | swept : schedule.queue = [] → schedule.candidates procedure procedure.loops ≠ [] →
      Fills procedure schedule (schedule.candidates procedure procedure.loops) 0
  | forced {block : NodeId} : schedule.queue = [] →
      schedule.candidates procedure procedure.loops = [] →
      schedule.forcible? procedure = some block → Fills procedure schedule [block] 1

/-- The queue is empty, and nothing can be put into it. -/
structure Stuck (procedure : Procedure) (schedule : Schedule) : Prop where
  queue : schedule.queue = []
  candidates : schedule.candidates procedure procedure.loops = []
  pending : schedule.hasPending procedure = false ∨ schedule.forcible? procedure = none

def visit (schedule : Schedule) (newcomers : List NodeId) (forced : Nat) (block : NodeId)
    (rest : List NodeId) : Schedule where
  status := (schedule.enqueue newcomers).status.setIfInBounds block .visited
  queue := rest
  order := schedule.order.push block
  fallbacks := schedule.fallbacks + forced

theorem refill_cases {procedure : Procedure} {schedule : Schedule} (empty : schedule.queue = []) :
    (schedule.Stuck procedure ∧ (schedule.refill procedure procedure.loops).1 = schedule) ∨
    ∃ block rest forced, Fills procedure schedule (block :: rest) forced ∧
      (schedule.refill procedure procedure.loops).1 =
        { schedule.enqueue (block :: rest) with fallbacks := schedule.fallbacks + forced } := by
  rw [refill]
  cases found : schedule.candidates procedure procedure.loops with
  | cons block rest =>
      have fills : Fills procedure schedule (schedule.candidates procedure procedure.loops) 0 :=
        .swept empty (by simp [found])
      rw [found] at fills
      exact Or.inr ⟨block, rest, 0, fills, rfl⟩
  | nil =>
      by_cases pending : schedule.hasPending procedure = true
      · rw [if_pos pending]
        cases forcible : schedule.forcible? procedure with
        | none => exact Or.inl ⟨⟨empty, found, Or.inr forcible⟩, rfl⟩
        | some block => exact Or.inr ⟨block, [], 1, .forced empty found forcible, rfl⟩
      · rw [if_neg pending]
        exact Or.inl ⟨⟨empty, found, Or.inl (by simpa using pending)⟩, rfl⟩

theorem next_cases (procedure : Procedure) (schedule : Schedule) :
    (schedule.Stuck procedure ∧ (schedule.next procedure procedure.loops).1 = none ∧
      (schedule.next procedure procedure.loops).2.1 = schedule) ∨
    ∃ newcomers forced block rest, Fills procedure schedule newcomers forced ∧
      schedule.queue ++ newcomers = block :: rest ∧
      (schedule.next procedure procedure.loops).1 = some block ∧
      (schedule.next procedure procedure.loops).2.1 =
        schedule.visit newcomers forced block rest := by
  cases queued : schedule.queue with
  | cons block rest =>
      have answered : (schedule.next procedure procedure.loops).1 = some block ∧
          (schedule.next procedure procedure.loops).2.1 = schedule.visit [] 0 block rest := by
        simp [next, pop, queued, visit, enqueue]
      exact Or.inr ⟨[], 0, block, rest, .waiting (by simp [queued]), by simp, answered⟩
  | nil =>
      have filled : (schedule.next procedure procedure.loops).1 =
            (schedule.refill procedure procedure.loops).1.pop.1 ∧
          (schedule.next procedure procedure.loops).2.1 =
            (schedule.refill procedure procedure.loops).1.pop.2 := by
        simp [next, queued]
      rw [filled.1, filled.2]
      rcases refill_cases queued with ⟨stuck, same⟩ | ⟨block, rest, forced, fills, same⟩
      · left
        rw [same]
        simp [stuck, pop, queued]
      · right
        rw [same]
        refine ⟨block :: rest, forced, block, rest, fills, by simp, ?_, ?_⟩
        · simp [pop, enqueue, queued]
        · simp [pop, enqueue, queued, visit]

/-! ## What a status says -/

theorem status?_enqueue (schedule : Schedule) (blocks : List NodeId) (block : NodeId) :
    (schedule.enqueue blocks).status? block =
      if block ∈ blocks ∧ block < schedule.status.size then some .ready
      else schedule.status? block := by
  have marked : ∀ (blocks : List NodeId) (status : Array Status),
      (blocks.foldl (fun status block => status.setIfInBounds block .ready) status)[block]? =
        if block ∈ blocks ∧ block < status.size then some .ready else status[block]? := by
    intro blocks
    induction blocks with
    | nil => simp
    | cons first rest ih =>
        intro status
        rw [List.foldl_cons, ih, Array.size_setIfInBounds, Array.getElem?_setIfInBounds]
        by_cases same : first = block
        · by_cases inside : block < status.size
          · simp [same, inside]
          · simp [same, inside]
        · simp [same, Ne.symm same]
  exact marked blocks schedule.status

theorem size_enqueue (schedule : Schedule) (blocks : List NodeId) :
    (schedule.enqueue blocks).status.size = schedule.status.size := by
  have kept : ∀ (blocks : List NodeId) (status : Array Status),
      (blocks.foldl (fun status block => status.setIfInBounds block .ready) status).size =
        status.size := by
    intro blocks
    induction blocks with
    | nil => exact fun _ => rfl
    | cons first rest ih =>
        intro status
        rw [List.foldl_cons, ih, Array.size_setIfInBounds]
  exact kept blocks schedule.status

theorem status?_visit {schedule : Schedule} {newcomers : List NodeId} {block : NodeId}
    (inside : ∀ other ∈ block :: newcomers, other < schedule.status.size) (forced : Nat)
    (rest : List NodeId) (other : NodeId) :
    (schedule.visit newcomers forced block rest).status? other =
      if other = block then some .visited
      else if other ∈ newcomers then some .ready
      else schedule.status? other := by
  rw [status?, visit, Array.getElem?_setIfInBounds, size_enqueue]
  by_cases same : other = block
  · simp [same, inside block List.mem_cons_self]
  · rw [if_neg (Ne.symm same), if_neg same]
    have onward := status?_enqueue schedule newcomers other
    rw [status?] at onward
    rw [onward]
    by_cases member : other ∈ newcomers
    · simp [member, inside other (List.mem_cons_of_mem _ member)]
    · simp [member]

/-- What holds of a schedule that was reached by requests. -/
structure Consistent (procedure : Procedure) (schedule : Schedule) : Prop where
  size : schedule.status.size = procedure.blockCount
  distinct : (schedule.order.toList ++ schedule.queue).Nodup
  first : (schedule.order.toList ++ schedule.queue).head? = some procedure.entry
  reachable : ∀ block ∈ schedule.order.toList ++ schedule.queue,
    procedure.graph.Reachable procedure.entry block
  ready : ∀ block, schedule.status? block = some .ready ↔ block ∈ schedule.queue
  visited : ∀ block, schedule.status? block = some .visited ↔ block ∈ schedule.order

variable {procedure : Procedure} {schedule : Schedule}

theorem consistent_start (wellFormed : procedure.WellFormed) :
    (start procedure).Consistent procedure := by
  have entryExists : procedure.entry < procedure.blockCount := wellFormed.entryExists
  have queue : (start procedure).queue = [procedure.entry] := if_pos entryExists
  have order : (start procedure).order = #[] := rfl
  have statuses : ∀ block, (start procedure).status? block =
      if procedure.entry = block then some .ready
      else (Array.replicate procedure.blockCount Status.unvisited)[block]? := by
    intro block
    rw [status?, start, Array.getElem?_setIfInBounds]
    simp [entryExists]
  refine ⟨by simp [start], ?_, ?_, ?_, ?_, ?_⟩
  · simp [queue, order]
  · simp [queue, order]
  · intro block member
    have isEntry : block = procedure.entry := by simpa [queue, order] using member
    rw [isEntry]
    exact .refl _ _
  · intro block
    rw [statuses, queue, List.mem_singleton, Array.getElem?_replicate]
    by_cases isEntry : procedure.entry = block
    · simp [isEntry]
    · simp [isEntry, Ne.symm isEntry]
  · intro block
    rw [statuses, order, Array.getElem?_replicate]
    by_cases isEntry : procedure.entry = block
    · simp [isEntry]
    · simp [isEntry]

structure Fresh (procedure : Procedure) (schedule : Schedule) (newcomers : List NodeId) : Prop where
  distinct : newcomers.Nodup
  unvisited : ∀ block ∈ newcomers, schedule.status? block = some .unvisited
  reachable : ∀ block ∈ newcomers, procedure.graph.Reachable procedure.entry block

theorem mem_candidates (wellFormed : procedure.WellFormed) {block : NodeId} :
    block ∈ schedule.candidates procedure procedure.loops ↔
      procedure.graph.Reachable procedure.entry block ∧
      schedule.status? block = some .unvisited ∧
      ∀ predecessor ∈ procedure.predecessors block,
        schedule.status? predecessor = some .visited ∨
          procedure.loops.isBackEdge predecessor block = true := by
  simp only [candidates, List.mem_filter, Bool.and_eq_true, isUnvisited, isReady, isVisited,
    List.all_eq_true, Bool.or_eq_true, decide_eq_true_eq,
    Digraph.mem_breadthFirst wellFormed.graph wellFormed.entryExists]

theorem forcible?_eq_some {block : NodeId}
    (found : schedule.forcible? procedure = some block) :
    schedule.status? block = some .unvisited ∧
      ∃ owner, schedule.status? owner = some .visited ∧ block ∈ procedure.successors owner := by
  obtain ⟨data, member, chosen⟩ := List.exists_of_findSome?_eq_some found
  have owner := (List.mem_filter.mp member).2
  simp only [Bool.and_eq_true, isVisited, decide_eq_true_eq] at owner
  have waits := List.find?_some chosen
  simp only [isUnvisited, decide_eq_true_eq] at waits
  exact ⟨waits, data.id, owner.2, List.mem_of_find?_eq_some chosen⟩

theorem Fills.fresh (wellFormed : procedure.WellFormed) (consistent : schedule.Consistent procedure)
    {newcomers : List NodeId} {forced : Nat} (fills : Fills procedure schedule newcomers forced) :
    schedule.Fresh procedure newcomers := by
  cases fills with
  | waiting _ => exact ⟨List.nodup_nil, by simp, by simp⟩
  | swept _ _ =>
      refine ⟨?_, ?_, ?_⟩
      · exact (Digraph.nodup_breadthFirst wellFormed.graph wellFormed.entryExists).filter _
      · exact fun block member => ((mem_candidates wellFormed).mp member).2.1
      · exact fun block member => ((mem_candidates wellFormed).mp member).1
  | @forced block _ _ found =>
      obtain ⟨waits, owner, visited, edge⟩ := forcible?_eq_some found
      have listed := (consistent.visited owner).mp visited
      have reached := (consistent.reachable owner (by simp [listed])).step edge
      exact ⟨by simp, by simpa using waits, by simpa using reached⟩

theorem lt_size_of_status? {block : NodeId} {status : Status}
    (found : schedule.status? block = some status) : block < schedule.status.size :=
  (Array.getElem?_eq_some_iff.mp found).1

theorem Fresh.notMem {newcomers : List NodeId} (fresh : schedule.Fresh procedure newcomers)
    (consistent : schedule.Consistent procedure) {block : NodeId} (new : block ∈ newcomers) :
    block ∉ schedule.order.toList ++ schedule.queue := by
  rw [List.mem_append, Array.mem_toList_iff, ← consistent.ready, ← consistent.visited,
    fresh.unvisited block new]
  simp

theorem Fresh.lt_size {newcomers : List NodeId} (fresh : schedule.Fresh procedure newcomers)
    (consistent : schedule.Consistent procedure) {block : NodeId}
    (known : block ∈ schedule.queue ++ newcomers) : block < schedule.status.size := by
  rcases List.mem_append.mp known with waits | new
  · exact lt_size_of_status? ((consistent.ready block).mpr waits)
  · exact lt_size_of_status? (fresh.unvisited block new)

theorem Consistent.visit (consistent : schedule.Consistent procedure)
    {newcomers rest : List NodeId} {block : NodeId} (fresh : schedule.Fresh procedure newcomers)
    (queued : schedule.queue ++ newcomers = block :: rest) (forced : Nat) :
    (schedule.visit newcomers forced block rest).Consistent procedure := by
  have agenda : (schedule.visit newcomers forced block rest).order.toList ++
      (schedule.visit newcomers forced block rest).queue =
        (schedule.order.toList ++ schedule.queue) ++ newcomers := by
    simp [Schedule.visit, queued]
  have distinct : ((schedule.order.toList ++ schedule.queue) ++ newcomers).Nodup :=
    consistent.distinct.append fresh.distinct fun other old new =>
      fresh.notMem consistent new old
  have once : (block :: rest).Nodup := by
    rw [List.append_assoc, queued] at distinct
    exact distinct.of_append_right
  have inside : ∀ other ∈ block :: newcomers, other < schedule.status.size := by
    intro other member
    apply fresh.lt_size consistent
    rcases List.mem_cons.mp member with rfl | new
    · simp [queued]
    · exact List.mem_append_right _ new
  have statuses := status?_visit inside forced rest
  refine ⟨?_, ?_, ?_, ?_, ?_, ?_⟩
  · simp [Schedule.visit, size_enqueue, consistent.size]
  · rw [agenda]
    exact distinct
  · rw [agenda, List.head?_append, consistent.first]
    rfl
  · intro other member
    rw [agenda] at member
    rcases List.mem_append.mp member with old | new
    · exact consistent.reachable other old
    · exact fresh.reachable other new
  · intro other
    rw [statuses, show (schedule.visit newcomers forced block rest).queue = rest from rfl]
    by_cases same : other = block
    · simp [same, (List.nodup_cons.mp once).1]
    · have onward : other ∈ rest ↔ other ∈ schedule.queue ∨ other ∈ newcomers := by
        rw [← List.mem_append, queued, List.mem_cons, or_iff_right same]
      rw [if_neg same, onward]
      by_cases new : other ∈ newcomers
      · simp [new]
      · simp [new, consistent.ready]
  · intro other
    rw [statuses, Schedule.visit, Array.mem_push]
    by_cases same : other = block
    · simp [same]
    · rw [if_neg same, or_iff_left same]
      by_cases new : other ∈ newcomers
      · have unvisited : other ∉ schedule.order := fun old =>
          fresh.notMem consistent new (by simp [old])
        simp [new, unvisited]
      · simp [new, consistent.visited]

theorem Consistent.next (wellFormed : procedure.WellFormed)
    (consistent : schedule.Consistent procedure) :
    (schedule.next procedure procedure.loops).2.1.Consistent procedure := by
  rcases next_cases procedure schedule with
    ⟨_, _, same⟩ | ⟨newcomers, forced, block, rest, fills, queued, _, same⟩
  · rw [same]
    exact consistent
  · rw [same]
    exact consistent.visit (fills.fresh wellFormed consistent) queued forced

/-! ## A run -/

theorem consistent_after (wellFormed : procedure.WellFormed) (requests : Nat) :
    (after procedure requests).Consistent procedure := by
  induction requests with
  | zero => exact consistent_start wellFormed
  | succ requests ih => exact ih.next wellFormed

theorem order_after (procedure : Procedure) (requests : Nat) :
    (after procedure requests).order.toList =
      (List.range requests).filterMap (answer procedure) := by
  induction requests with
  | zero => rfl
  | succ requests ih =>
      rw [List.range_succ, List.filterMap_append, ← ih, after]
      rcases next_cases procedure (after procedure requests) with
        ⟨_, none, same⟩ | ⟨newcomers, forced, block, rest, _, _, some, same⟩
      · have answered : answer procedure requests = Option.none := none
        simp [same, answered]
      · have answered : answer procedure requests = Option.some block := some
        simp [same, answered, visit]

theorem mem_order_succ {requests : Nat} {block other : NodeId}
    (handed : answer procedure requests = some block) :
    other ∈ (after procedure (requests + 1)).order ↔
      other ∈ (after procedure requests).order ∨ other = block := by
  rw [← Array.mem_toList_iff, ← Array.mem_toList_iff, order_after, order_after, List.range_succ,
    List.filterMap_append, List.mem_append]
  simp [handed]

theorem stuck_of_answer_none {request : Nat} (nothing : answer procedure request = none) :
    (after procedure request).Stuck procedure ∧
      after procedure (request + 1) = after procedure request := by
  rcases next_cases procedure (after procedure request) with
    ⟨stuck, _, same⟩ | ⟨_, _, block, _, _, _, found, _⟩
  · exact ⟨stuck, same⟩
  · rw [answer, found] at nothing
    cases nothing

theorem after_of_answer_none {request later : Nat} (nothing : answer procedure request = none)
    (behind : request ≤ later) : after procedure later = after procedure request := by
  induction behind with
  | refl => rfl
  | @step later _ ih =>
      have again : answer procedure later = none := by
        rw [answer, ih]
        exact nothing
      rw [(stuck_of_answer_none again).2, ih]

theorem answer_zero (wellFormed : procedure.WellFormed) :
    answer procedure 0 = some procedure.entry := by
  have queue : (start procedure).queue = [procedure.entry] := if_pos wellFormed.entryExists
  rcases next_cases procedure (start procedure) with
    ⟨stuck, _, _⟩ | ⟨newcomers, _, block, rest, _, queued, found, _⟩
  · have empty := stuck.queue
    simp [queue] at empty
  · have first : procedure.entry = block := by
      rw [queue] at queued
      exact (List.cons.inj queued).1
    rw [first]
    exact found

theorem head?_order_after (wellFormed : procedure.WellFormed) {requests : Nat}
    (asked : 0 < requests) :
    (after procedure requests).order.toList.head? = some procedure.entry := by
  obtain ⟨requests, rfl⟩ := Nat.exists_eq_succ_of_ne_zero (Nat.ne_of_gt asked)
  rw [order_after, List.range_succ_eq_map, List.filterMap_cons_some (answer_zero wellFormed)]
  rfl

theorem size_order_le (wellFormed : procedure.WellFormed) (requests : Nat) :
    (after procedure requests).order.size ≤ procedure.blockCount := by
  have consistent := consistent_after wellFormed requests
  have subset : (after procedure requests).order.toList ⊆ List.range procedure.blockCount := by
    intro block member
    have reachable := consistent.reachable block (List.mem_append_left _ member)
    exact List.mem_range.mpr (reachable.lt wellFormed.graph wellFormed.entryExists)
  simpa using (consistent.distinct.of_append_left.subperm subset).length_le

theorem size_order_after {requests : Nat}
    (answered : ∀ earlier < requests, (answer procedure earlier).isSome) :
    (after procedure requests).order.size = requests := by
  rw [← Array.length_toList, order_after]
  calc ((List.range requests).filterMap (answer procedure)).length
      = (List.range requests).length := by
        rw [List.filterMap_length_eq_length]
        exact fun earlier member => answered earlier (List.mem_range.mp member)
    _ = requests := List.length_range

theorem exists_answer_none (wellFormed : procedure.WellFormed) :
    ∃ requests ≤ procedure.blockCount,
      (∀ earlier < requests, (answer procedure earlier).isSome) ∧
        answer procedure requests = none := by
  have ends : ∃ requests, answer procedure requests = none := by
    by_contra endless
    have full : (after procedure (procedure.blockCount + 1)).order.size =
        procedure.blockCount + 1 :=
      size_order_after fun earlier _ =>
        Option.isSome_iff_ne_none.mpr fun nothing => endless ⟨earlier, nothing⟩
    have := size_order_le wellFormed (procedure.blockCount + 1)
    omega
  have answered : ∀ earlier < Nat.find ends, (answer procedure earlier).isSome :=
    fun earlier before => Option.isSome_iff_ne_none.mpr (Nat.find_min ends before)
  refine ⟨Nat.find ends, ?_, answered, Nat.find_spec ends⟩
  rw [← size_order_after answered]
  exact size_order_le wellFormed _

/-! ## The end of a run -/

theorem Consistent.visited_of_not_unvisited (consistent : schedule.Consistent procedure)
    (empty : schedule.queue = []) {block : NodeId} (inside : block < procedure.blockCount)
    (reached : schedule.status? block ≠ some .unvisited) :
    schedule.status? block = some .visited := by
  cases found : schedule.status? block with
  | none =>
      have outside : schedule.status.size ≤ block := Array.getElem?_eq_none_iff.mp found
      rw [consistent.size] at outside
      exact absurd inside (Nat.not_lt.mpr outside)
  | some status =>
      cases status with
      | unvisited => exact absurd found reached
      | ready =>
          have waits := (consistent.ready block).mp found
          rw [empty] at waits
          cases waits
      | visited => rfl

theorem Stuck.visited_successor (wellFormed : procedure.WellFormed)
    (consistent : schedule.Consistent procedure) (stuck : schedule.Stuck procedure)
    {last next : NodeId} (visited : schedule.status? last = some .visited)
    (lastCode : procedure.IsCode last) (edge : next ∈ procedure.successors last)
    (nextCode : procedure.IsCode next) : schedule.status? next = some .visited := by
  have inside := (Digraph.lt_of_mem_successors wellFormed.graph edge).2
  apply consistent.visited_of_not_unvisited stuck.queue inside
  intro unvisited
  rcases stuck.pending with nothing | nothing
  · obtain ⟨data, found, isCode⟩ := nextCode
    have own := wellFormed.blocksInPlace next data found
    have listed : data ∈ procedure.blocks.toList :=
      Array.mem_toList_iff.mpr (Array.mem_of_getElem? found)
    have refuted := List.any_eq_false.mp nothing data listed
    simp [isCode, own, isUnvisited, unvisited] at refuted
  · obtain ⟨data, found, isCode⟩ := lastCode
    have own := wellFormed.blocksInPlace last data found
    have listed : data ∈ procedure.blocks.toList :=
      Array.mem_toList_iff.mpr (Array.mem_of_getElem? found)
    have kept : data ∈ procedure.blocks.toList.filter fun block =>
        !block.padding && schedule.isVisited block.id := by
      simp [listed, isCode, own, isVisited, visited]
    have none := List.findSome?_eq_none_iff.mp nothing data kept
    rw [own] at none
    have refuted := List.find?_eq_none.mp none next edge
    simp [isUnvisited, unvisited] at refuted

/-- What the entry reaches through code alone has been visited in the end. -/
theorem mem_order_of_path (wellFormed : procedure.WellFormed) {request : Nat}
    (nothing : answer procedure request = none) {nodes : List NodeId} {block : NodeId}
    (path : procedure.graph.Path procedure.entry nodes block)
    (code : ∀ node ∈ nodes, procedure.IsCode node) : block ∈ (after procedure request).order := by
  have consistent := consistent_after wellFormed request
  have stuck := (stuck_of_answer_none nothing).1
  rw [← consistent.visited]
  induction path with
  | single =>
      have first := consistent.first
      rw [stuck.queue, List.append_nil] at first
      rw [consistent.visited]
      simpa using List.mem_of_head? first
  | @step nodes last next path edge previous =>
      have before : ∀ node ∈ nodes, procedure.IsCode node :=
        fun node member => code node (List.mem_append_left _ member)
      exact stuck.visited_successor wellFormed consistent (previous before)
        (before last path.last_mem) edge (code next (by simp))

structure Drains (procedure : Procedure) : Prop where
  ends : ∃ requests ≤ procedure.blockCount,
    (∀ earlier < requests, (answer procedure earlier).isSome) ∧ answer procedure requests = none
  stays : ∀ request, answer procedure request = none → ∀ later, request ≤ later →
    answer procedure later = none ∧ after procedure later = after procedure request
  order : ∀ requests, (after procedure requests).order.toList =
    (List.range requests).filterMap (answer procedure)
  distinct : ∀ requests, (after procedure requests).order.toList.Nodup
  first : ∀ requests, 0 < requests →
    (after procedure requests).order.toList.head? = some procedure.entry
  reachable : ∀ requests, ∀ block ∈ (after procedure requests).order,
    procedure.graph.Reachable procedure.entry block
  queue : ∀ requests, (after procedure requests).queue.Nodup
  ready : ∀ requests block, (after procedure requests).status? block = some .ready ↔
    block ∈ (after procedure requests).queue
  visited : ∀ requests block, (after procedure requests).status? block = some .visited ↔
    block ∈ (after procedure requests).order
  complete : ∀ request, answer procedure request = none → ∀ nodes block,
    procedure.graph.Path procedure.entry nodes block →
    (∀ node ∈ nodes, procedure.IsCode node) → block ∈ (after procedure request).order

/-- A run visits blocks until all code that is reached through code has been visited. -/
theorem drains_of_built (built : procedure.Built) : Drains procedure := by
  have wellFormed := built.wellFormed
  have consistent := consistent_after wellFormed
  refine ⟨exists_answer_none wellFormed, ?_, order_after procedure, ?_, ?_, ?_, ?_, ?_, ?_, ?_⟩
  · intro request nothing later behind
    have same := after_of_answer_none nothing behind
    refine ⟨?_, same⟩
    rw [answer, same]
    exact nothing
  · exact fun requests => (consistent requests).distinct.of_append_left
  · exact fun requests asked => head?_order_after wellFormed asked
  · intro requests block member
    exact (consistent requests).reachable block (by simp [member])
  · exact fun requests => (consistent requests).distinct.of_append_right
  · exact fun requests => (consistent requests).ready
  · exact fun requests => (consistent requests).visited
  · exact fun request nothing nodes block path code =>
      mem_order_of_path wellFormed nothing path code

theorem drains_sideDoor : SideDoor.procedure.Built ∧ Drains SideDoor.procedure :=
  ⟨SideDoor.built, drains_of_built SideDoor.built⟩

-- The loop is forced open at block 1, and the padding is passed.
example : (List.range 6).map (answer SideDoor.procedure) =
    [some 0, some 1, some 2, some 3, some 4, none] := by
  decide +kernel

end Schedule

end SymbolicFlow

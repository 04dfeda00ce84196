import SymbolicFlow.Evaluation
import SymbolicFlow.Proofs.Evaluation.Expression

/-!
# What an evaluation leaves behind

A store only grows: nodes stay where they are, and a bound variable keeps its value, so an
expression that was read off a store is the same later on.  `Next` says this of two states of an
evaluation, and that the later store is sound if the earlier one is: every bound variable has an
expression that its definition allows, where the variables that were reported as too deep may
have been left as they are.

Statements about evaluations have the form `Yields`: what holds of the result and of the state
afterwards.
-/

set_option autoImplicit false

namespace SymbolicFlow

/-! ## Trees -/

/-- The expression of a node whose children have the given expressions. -/
def Node.tree (trees : ValueId → Tree) (node : Node) : Tree :=
  match node.shape with
  | .immediate value => .immediate value node.loaded
  | .register var => .register var node.loaded
  | .memory address => .memory address node.loaded
  | .binary operator left right => .binary operator (trees left) (trees right) node.loaded
  | .unary operator operand => .unary operator (trees operand) node.loaded

theorem Node.remarked_tree (trees : ValueId → Tree) (shape : Shape) (mark loaded : Bool) :
    (Node.tree trees ⟨shape, mark⟩).remarked loaded = Node.tree trees ⟨shape, loaded⟩ := by
  cases shape <;> rfl

namespace Arena

theorem tree_congr {arena other : Arena} {id : ValueId}
    (same : ∀ earlier ≤ id, arena[earlier]? = other[earlier]?) :
    Arena.tree arena id = Arena.tree other id := by
  induction id using Nat.strongRecOn with
  | ind id ih =>
      have child : ∀ earlier, (if earlier < id then Arena.tree arena earlier else .absent) =
          if earlier < id then Arena.tree other earlier else .absent := by
        intro earlier
        split
        · rename_i before
          exact ih earlier before fun first le => same first (Nat.le_trans le (Nat.le_of_lt before))
        · rfl
      rw [Arena.tree, Arena.tree, same id (Nat.le_refl id)]
      simp only [child]

theorem tree_of_node {arena : Arena} {id : ValueId} {node : Node} (found : arena[id]? = some node)
    (earlier : ∀ child ∈ node.shape.children, child < id) :
    Arena.tree arena id = node.tree (Arena.tree arena) := by
  obtain ⟨shape, loaded⟩ := node
  rw [Arena.tree, found]
  cases shape with
  | immediate => rfl
  | register => rfl
  | memory => rfl
  | binary operator left right =>
      have leftEarlier : left < id := earlier left (by simp [Shape.children])
      have rightEarlier : right < id := earlier right (by simp [Shape.children])
      simp only [Node.tree, if_pos leftEarlier, if_pos rightEarlier]
  | unary operator operand =>
      have operandEarlier : operand < id := earlier operand (by simp [Shape.children])
      simp only [Node.tree, if_pos operandEarlier]

theorem getElem?_of_tree_leaf {arena : Arena} {id : ValueId} {shape : Shape} {loaded : Bool}
    (leaf : shape.children = [])
    (tree : Arena.tree arena id = Node.tree (fun _ => .absent) ⟨shape, loaded⟩) :
    arena[id]? = some ⟨shape, loaded⟩ := by
  rw [Arena.tree] at tree
  cases found : arena[id]? with
  | none => cases shape <;> simp [found, Node.tree] at tree
  | some node =>
      obtain ⟨other, otherLoaded⟩ := node
      cases shape <;> cases other <;> simp_all [Node.tree, Shape.children]

theorem isConstant_tree {arena : Arena} (id : ValueId) :
    (Arena.tree arena id).isConstant = ((arena[id]?).bind Node.immediate?).isSome := by
  rw [Arena.tree]
  cases arena[id]? with
  | none => rfl
  | some node =>
      obtain ⟨shape, loaded⟩ := node
      cases shape <;> rfl

end Arena

/-! ## Stores -/

namespace Store

structure Extends (before after : Store) : Prop where
  size : before.arena.size ≤ after.arena.size
  nodes : ∀ {id : ValueId}, id < before.arena.size → after.arena[id]? = before.arena[id]?
  values : ∀ {var : VarId} {value : ValueId}, before.valueOf? var = some value →
    after.valueOf? var = some value

/-- Bound values exist, and nodes are made of earlier ones. -/
structure Valid (store : Store) : Prop where
  values : ∀ {var : VarId} {value : ValueId}, store.valueOf? var = some value →
    value < store.arena.size
  nodes : ∀ {id : ValueId} {node : Node}, store.arena[id]? = some node →
    ∀ child ∈ node.shape.children, child < id

def Agrees (store : Store) (trees : VarId → Tree) : Prop :=
  ∀ (var : VarId) (value : ValueId), store.valueOf? var = some value →
    Arena.tree store.arena value = trees var

/-- Bound variables have expressions that the reading allows. -/
def Sound (store : Store) (reading : Ssa.Reading) : Prop :=
  ∀ (var : VarId) (value : ValueId), store.valueOf? var = some value →
    reading.Denotes var (Arena.tree store.arena value)

namespace Extends

variable {before after last : Store}

theorem refl (store : Store) : store.Extends store :=
  ⟨Nat.le_refl _, fun _ => rfl, fun found => found⟩

theorem trans (first : before.Extends after) (second : after.Extends last) :
    before.Extends last where
  size := Nat.le_trans first.size second.size
  nodes := fun inside =>
    (second.nodes (Nat.lt_of_lt_of_le inside first.size)).trans (first.nodes inside)
  values := fun found => second.values (first.values found)

theorem lt_size (grows : before.Extends after) {id : ValueId} (inside : id < before.arena.size) :
    id < after.arena.size :=
  Nat.lt_of_lt_of_le inside grows.size

theorem node? (grows : before.Extends after) {id : ValueId} {node : Node}
    (found : before.node? id = some node) : after.node? id = some node :=
  (grows.nodes (Array.getElem?_eq_some_iff.mp found).1).trans found

theorem valueOf?_eq_none (grows : before.Extends after) {var : VarId}
    (missing : after.valueOf? var = none) : before.valueOf? var = none := by
  cases found : before.valueOf? var with
  | none => rfl
  | some value =>
      rw [grows.values found] at missing
      cases missing

theorem tree (grows : before.Extends after) {id : ValueId} (inside : id < before.arena.size) :
    Arena.tree after.arena id = Arena.tree before.arena id :=
  Arena.tree_congr fun _ le => grows.nodes (Nat.lt_of_le_of_lt le inside)

theorem agrees (grows : before.Extends after) (valid : before.Valid) {trees : VarId → Tree}
    (agrees : after.Agrees trees) : before.Agrees trees := by
  intro var value found
  rw [← grows.tree (valid.values found)]
  exact agrees var value (grows.values found)

theorem sound (grows : before.Extends after) (valid : before.Valid)
    {reading : Ssa.Reading} (sound : after.Sound reading) : before.Sound reading := by
  intro var value found
  rw [← grows.tree (valid.values found)]
  exact sound var value (grows.values found)

end Extends

theorem isBound_iff {store : Store} {var : VarId} :
    store.isBound var = true ↔ ∃ value, store.valueOf? var = some value := by
  rw [isBound, valueOf?, Std.TreeMap.contains_eq_isSome_getElem?, Option.isSome_iff_exists]

theorem valueOf?_bind_eq (store : Store) (var : VarId) (value : ValueId) :
    (store.bind var value).2.valueOf? var = some (store.bind var value).1 := by
  rw [bind]
  split
  · assumption
  · simp [valueOf?]

theorem arena_bind (store : Store) (var : VarId) (value : ValueId) :
    (store.bind var value).2.arena = store.arena := by
  rw [bind]
  split <;> rfl

theorem valueOf?_bind_cases {store : Store} {var other : VarId} {value bound : ValueId}
    (found : (store.bind var value).2.valueOf? other = some bound) :
    store.valueOf? other = some bound ∨ store.valueOf? var = none ∧ other = var ∧ bound = value := by
  rw [bind] at found
  split at found
  · exact Or.inl found
  · rename_i missing
    simp only [valueOf?, Std.TreeMap.getElem?_insert] at found
    split at found
    · rename_i same
      cases found
      exact Or.inr ⟨missing, (Std.LawfulEqOrd.compare_eq_iff_eq.mp same).symm, rfl⟩
    · exact Or.inl found

theorem extends_bind (store : Store) (var : VarId) (value : ValueId) :
    store.Extends (store.bind var value).2 := by
  refine ⟨?_, ?_, ?_⟩
  · exact Nat.le_of_eq (congrArg Array.size (arena_bind store var value).symm)
  · intro id _
    rw [arena_bind]
  · intro other bound found
    rw [bind]
    split
    · exact found
    · rename_i missing
      have different : var ≠ other := by
        intro same
        rw [← same, valueOf?, missing] at found
        cases found
      simp only [valueOf?, Std.TreeMap.getElem?_insert]
      rw [if_neg fun same => different (Std.LawfulEqOrd.compare_eq_iff_eq.mp same)]
      exact found

theorem extends_alloc (store : Store) (node : Node) : store.Extends (store.alloc node).2 where
  size := by simp [alloc]
  nodes := fun inside => by simp [alloc, Array.getElem?_push, Nat.ne_of_lt inside]
  values := fun found => found

/-- A mark changes nothing, or it adds the same node with the other mark. -/
theorem mark_cases (store : Store) (id : ValueId) (loaded : Bool) :
    (store.mark id loaded).2 = store ∨ ∃ shape, store.node? id = some ⟨shape, !loaded⟩ ∧
      (store.mark id loaded).2 = (store.alloc ⟨shape, loaded⟩).2 := by
  rw [mark, remarked?, node?]
  cases found : store.arena[id]? with
  | none => exact Or.inl rfl
  | some node =>
      obtain ⟨shape, marked⟩ := node
      by_cases same : marked = loaded
      · simp [same]
      · refine Or.inr ⟨shape, ?_, ?_⟩
        · rw [Bool.eq_not.mpr same]
        · simp [same]

theorem extends_mark (store : Store) (id : ValueId) (loaded : Bool) :
    store.Extends (store.mark id loaded).2 := by
  rcases store.mark_cases id loaded with same | ⟨shape, _, added⟩
  · rw [same]
    exact .refl store
  · rw [added]
    exact store.extends_alloc _

theorem Valid.alloc {store : Store} (valid : store.Valid) {node : Node}
    (children : ∀ child ∈ node.shape.children, child < store.arena.size) :
    (store.alloc node).2.Valid := by
  refine ⟨fun found => (store.extends_alloc node).lt_size (valid.values found), ?_⟩
  intro id other found child member
  have look : (store.arena.push node)[id]? = some other := found
  rw [Array.getElem?_push] at look
  split at look
  · rename_i last
    cases look
    exact last ▸ children child member
  · exact valid.nodes look child member

theorem tree_alloc (store : Store) {node : Node}
    (children : ∀ child ∈ node.shape.children, child < store.arena.size) :
    Arena.tree (store.alloc node).2.arena (store.alloc node).1 =
      node.tree (Arena.tree store.arena) := by
  have found : (store.alloc node).2.arena[(store.alloc node).1]? = some node :=
    Array.getElem?_push_size
  rw [Arena.tree_of_node found children]
  have kept := fun child inside => (store.extends_alloc node).tree (children child inside)
  obtain ⟨shape, loaded⟩ := node
  cases shape with
  | immediate => rfl
  | register => rfl
  | memory => rfl
  | binary operator left right =>
      simp only [Node.tree, kept left (by simp [Shape.children]),
        kept right (by simp [Shape.children])]
  | unary operator operand => simp only [Node.tree, kept operand (by simp [Shape.children])]

end Store

/-! ## States of an evaluation -/

def Progress.CutsIn (progress : Progress) (reading : Ssa.Reading) : Prop :=
  ∀ var limit, Event.tooDeep var limit ∈ progress.events → reading.cut var

structure Next (reading : Ssa.Reading) (before after : Progress) : Prop where
  grows : before.store.Extends after.store
  events : ∀ event ∈ before.events, event ∈ after.events
  valid : after.store.Valid
  sound : after.CutsIn reading → before.store.Sound reading → after.store.Sound reading

namespace Next

variable {reading : Ssa.Reading} {before after last : Progress}

theorem refl (valid : before.store.Valid) : Next reading before before :=
  ⟨.refl _, fun _ member => member, valid, fun _ sound => sound⟩

theorem cutsIn (next : Next reading before after) (cuts : after.CutsIn reading) :
    before.CutsIn reading :=
  fun var limit member => cuts var limit (next.events _ member)

theorem trans (first : Next reading before after)
    (second : Next reading after last) : Next reading before last where
  grows := first.grows.trans second.grows
  events := fun event member => second.events event (first.events event member)
  valid := second.valid
  sound := fun cuts sound => second.sound cuts (first.sound (second.cutsIn cuts) sound)

end Next

namespace Evaluation

def Yields {α : Type} (evaluation : Evaluation α) (before : Progress)
    (post : α → Progress → Prop) : Prop :=
  post (evaluation before).1 (evaluation before).2

namespace Yields

variable {α β : Type} {before : Progress}

theorem pure {result : α} {post : α → Progress → Prop} (holds : post result before) :
    Yields (Pure.pure result) before post :=
  holds

theorem bind {evaluation : Evaluation α} {continuation : α → Evaluation β}
    {middle : α → Progress → Prop} {post : β → Progress → Prop}
    (first : Yields evaluation before middle)
    (rest : ∀ result after, middle result after → Yields (continuation result) after post) :
    Yields (evaluation >>= continuation) before post :=
  rest _ _ first

theorem imp {evaluation : Evaluation α} {post weaker : α → Progress → Prop}
    (yields : Yields evaluation before post)
    (weaken : ∀ result after, post result after → weaker result after) :
    Yields evaluation before weaker :=
  weaken _ _ yields

theorem of_eq {evaluation other : Evaluation α} {post : α → Progress → Prop}
    (same : evaluation before = other before) (yields : Yields other before post) :
    Yields evaluation before post := by
  rw [Yields, same]
  exact yields

theorem mapM_some {argument : β} {evaluation : β → Evaluation α} {post : Option α → Progress → Prop}
    (yields : Yields (evaluation argument) before fun result after => post (some result) after) :
    Yields ((some argument).mapM evaluation) before post :=
  yields

theorem bind_ask {question : Store → α} {continuation : α → Evaluation β}
    {post : β → Progress → Prop}
    (rest : Yields (continuation (question before.store)) before post) :
    Yields (ask question >>= continuation) before post :=
  rest

end Yields

section Operations

variable (reading : Ssa.Reading) {before : Progress}

theorem yields_report (valid : before.store.Valid) (event : Event) :
    Yields (report event) before fun _ after => Next reading before after ∧
      after.store = before.store ∧ event ∈ after.events := by
  refine ⟨⟨.refl _, fun other member => ?_, valid, fun _ sound => sound⟩, rfl, ?_⟩
  · exact Array.mem_push_of_mem _ member
  · exact Array.mem_push_self

theorem yields_alloc (valid : before.store.Valid) (shape : Shape) (loaded : Bool)
    (children : ∀ child ∈ shape.children, child < before.store.arena.size) :
    Yields (alloc shape loaded) before fun id after => Next reading before after ∧
      id < after.store.arena.size ∧ Arena.tree after.store.arena id =
        Node.tree (Arena.tree before.store.arena) ⟨shape, loaded⟩ := by
  have grows := before.store.extends_alloc ⟨shape, loaded⟩
  refine ⟨⟨grows, fun _ member => member, valid.alloc children, ?_⟩, ?_,
    before.store.tree_alloc children⟩
  · intro _ sound var value found
    have kept := grows.tree (valid.values found)
    exact kept.symm ▸ sound var value found
  · exact Nat.lt_of_lt_of_eq (Nat.lt_succ_self _) (Array.size_push _).symm

theorem yields_bind (valid : before.store.Valid) {var : VarId} {value : ValueId}
    (inside : value < before.store.arena.size)
    (denotes : before.CutsIn reading → before.store.Sound reading →
      before.store.valueOf? var = none →
      reading.Denotes var (Arena.tree before.store.arena value)) :
    Yields (Evaluation.bind var value) before fun bound after =>
      Next reading before after ∧ after.store.valueOf? var = some bound := by
  have sameArena := before.store.arena_bind var value
  refine ⟨⟨before.store.extends_bind var value, fun _ member => member, ?_, ?_⟩,
    before.store.valueOf?_bind_eq var value⟩
  · have size : (before.store.bind var value).2.arena.size = before.store.arena.size :=
      congrArg Array.size sameArena
    refine ⟨fun {other bound} found => ?_, fun {id node} found => ?_⟩
    · rcases Store.valueOf?_bind_cases found with old | ⟨_, _, rfl⟩
      · exact Nat.lt_of_lt_of_eq (valid.values old) size.symm
      · exact Nat.lt_of_lt_of_eq inside size.symm
    · exact valid.nodes ((congrArg (·[id]?) sameArena).symm.trans found)
  · intro cuts sound other bound found
    have tree : Arena.tree (before.store.bind var value).2.arena bound =
        Arena.tree before.store.arena bound := congrArg (Arena.tree · bound) sameArena
    refine tree.symm ▸ ?_
    rcases Store.valueOf?_bind_cases found with old | ⟨missing, rfl, rfl⟩
    · exact sound other bound old
    · exact denotes cuts sound missing

theorem placeholder_of_bound {var : VarId} {bound : ValueId}
    (found : before.store.valueOf? var = some bound) : placeholder var before = (bound, before) := by
  have stored : before.store.bindings[var]? = some bound := found
  simp only [placeholder, onStore, Store.placeholder, stored]

theorem placeholder_of_unbound {var : VarId} (missing : before.store.valueOf? var = none) :
    placeholder var before = (alloc (.register var) false >>= Evaluation.bind var) before := by
  have absent : before.store.bindings[var]? = none := missing
  simp only [placeholder, onStore, Store.placeholder, absent]
  rfl

theorem extends_placeholder (before : Progress) (var : VarId) :
    before.store.Extends (placeholder var before).2.store := by
  cases found : before.store.valueOf? var with
  | some bound =>
      rw [placeholder_of_bound found]
      exact .refl before.store
  | none =>
      rw [placeholder_of_unbound found]
      exact (before.store.extends_alloc _).trans (Store.extends_bind _ _ _)

theorem valueOf?_placeholder (var : VarId) (before : Progress) :
    (placeholder var before).2.store.valueOf? var = some (placeholder var before).1 := by
  cases found : before.store.valueOf? var with
  | some bound =>
      rw [placeholder_of_bound found]
      exact found
  | none =>
      rw [placeholder_of_unbound found]
      exact Store.valueOf?_bind_eq _ var _

theorem isBound_placeholder (var : VarId) (before : Progress) :
    (placeholder var before).2.store.isBound var = true :=
  Store.isBound_iff.mpr ⟨_, valueOf?_placeholder var before⟩

theorem yields_placeholder (valid : before.store.Valid) (var : VarId)
    (denotes : before.CutsIn reading → before.store.Sound reading →
      before.store.valueOf? var = none → reading.Denotes var (.register var false)) :
    Yields (placeholder var) before fun bound after =>
      Next reading before after ∧ after.store.valueOf? var = some bound := by
  cases found : before.store.valueOf? var with
  | some bound =>
      exact Yields.of_eq (placeholder_of_bound found) (Yields.pure ⟨.refl valid, found⟩)
  | none =>
      refine Yields.of_eq (placeholder_of_unbound found) (Yields.bind
        (yields_alloc reading valid (.register var) false (by simp [Shape.children])) ?_)
      intro id after allocated
      obtain ⟨next, inside, tree⟩ := allocated
      refine (yields_bind reading next.valid inside fun cuts sound _ => ?_).imp fun _ _ bound =>
        ⟨next.trans bound.1, bound.2⟩
      rw [tree]
      exact denotes (next.cutsIn cuts) (next.grows.sound valid sound) found

end Operations

end Evaluation

end SymbolicFlow

import SymbolicFlow.Proofs.Evaluation.Invariants

/-!
# A variable has one placeholder

A variable becomes a placeholder for many reasons: it is not defined, it is merged by a phi, its
definition cannot be expressed, or it lies too deep.  Each time its node is made only if the
variable is not bound, and the variable is bound to it at once.  So a variable never has a second
node, and whoever finds the node in an expression knows the value of the variable.

Nodes are also copied, with another mark, when an address is computed.  Only marked nodes are copied
there, and a placeholder never has a mark.
-/

set_option autoImplicit false

namespace SymbolicFlow

def Tree.Mentions (var : VarId) : Tree → Prop
  | .register other _ => other = var
  | .binary _ left right _ => left.Mentions var ∨ right.Mentions var
  | .unary _ operand _ => operand.Mentions var
  | _ => False

theorem Arena.exists_register_of_mentions {arena : Arena} {id : ValueId} {var : VarId}
    (mentions : (Arena.tree arena id).Mentions var) :
    ∃ (own : ValueId) (loaded : Bool), arena[own]? = some ⟨.register var, loaded⟩ := by
  induction id using Nat.strongRecOn with
  | ind id ih =>
      have child : ∀ {earlier},
          (if earlier < id then Arena.tree arena earlier else .absent).Mentions var →
          ∃ (own : ValueId) (loaded : Bool), arena[own]? = some ⟨.register var, loaded⟩ := by
        intro earlier inside
        split at inside
        · rename_i before
          exact ih earlier before inside
        · cases inside
      rw [Arena.tree] at mentions
      cases found : arena[id]? with
      | none =>
          rw [found] at mentions
          cases mentions
      | some node =>
          obtain ⟨shape, loaded⟩ := node
          rw [found] at mentions
          cases shape with
          | immediate => cases mentions
          | memory => cases mentions
          | register other =>
              cases mentions
              exact ⟨id, loaded, found⟩
          | binary operator left right =>
              rcases mentions with inLeft | inRight
              · exact child inLeft
              · exact child inRight
          | unary operator operand => exact child mentions

namespace Store

/-- Every placeholder is unmarked, and its variable is bound to it. -/
def OwnsPlaceholders (store : Store) : Prop :=
  ∀ (id : ValueId) (var : VarId) (loaded : Bool),
    store.node? id = some ⟨.register var, loaded⟩ → loaded = false ∧ store.valueOf? var = some id

structure OnePlaceholder (store : Store) (var : VarId) : Prop where
  single : ∀ {id other : ValueId} {loaded otherLoaded : Bool},
    store.node? id = some ⟨.register var, loaded⟩ →
    store.node? other = some ⟨.register var, otherLoaded⟩ → id = other
  unmarked : ∀ {id : ValueId} {loaded : Bool},
    store.node? id = some ⟨.register var, loaded⟩ → loaded = false
  bound : ∀ {id : ValueId} {loaded : Bool},
    store.node? id = some ⟨.register var, loaded⟩ → store.valueOf? var = some id
  mentioned : ∀ {id : ValueId}, (Arena.tree store.arena id).Mentions var →
    ∃ own, store.valueOf? var = some own ∧ store.node? own = some ⟨.register var, false⟩

theorem OwnsPlaceholders.onePlaceholder {store : Store} (owns : store.OwnsPlaceholders)
    (var : VarId) : store.OnePlaceholder var where
  single := by
    intro id other loaded otherLoaded found alsoFound
    exact Option.some.inj ((owns _ _ _ found).2.symm.trans (owns _ _ _ alsoFound).2)
  unmarked := fun found => (owns _ _ _ found).1
  bound := fun found => (owns _ _ _ found).2
  mentioned := by
    intro id mentions
    obtain ⟨own, loaded, found⟩ := Arena.exists_register_of_mentions mentions
    obtain ⟨rfl, bound⟩ := owns _ _ _ found
    exact ⟨own, bound, found⟩

/-! ## What keeps placeholders -/

variable {store : Store}

theorem ownsPlaceholders_empty : Store.empty.OwnsPlaceholders := by
  intro id var loaded found
  simp [Store.empty, node?] at found

theorem OwnsPlaceholders.alloc (owns : store.OwnsPlaceholders) {node : Node}
    (other : node.isPlaceholder = false) : (store.alloc node).2.OwnsPlaceholders := by
  intro id var loaded found
  have look : (store.arena.push node)[id]? = some ⟨.register var, loaded⟩ := found
  rw [Array.getElem?_push] at look
  split at look
  · cases look
    cases other
  · exact owns _ _ _ look

theorem OwnsPlaceholders.unmark (owns : store.OwnsPlaceholders) (value : ValueId) :
    (store.mark value false).2.OwnsPlaceholders := by
  rcases store.mark_cases value false with same | ⟨shape, found, added⟩
  · rw [same]
    exact owns
  · rw [added]
    apply owns.alloc
    -- What is copied had a mark, so it is no placeholder.
    cases shape with
    | register var => cases (owns _ _ _ found).1
    | _ => rfl

theorem OwnsPlaceholders.bind (owns : store.OwnsPlaceholders) (var : VarId) (value : ValueId) :
    (store.bind var value).2.OwnsPlaceholders := by
  intro id other loaded found
  rw [node?, arena_bind] at found
  obtain ⟨unmarked, bound⟩ := owns _ _ _ found
  exact ⟨unmarked, (store.extends_bind var value).values bound⟩

theorem OwnsPlaceholders.placeholder (owns : store.OwnsPlaceholders) (var : VarId) :
    (store.placeholder var).2.OwnsPlaceholders := by
  rw [Store.placeholder]
  split
  · exact owns
  · rename_i missing
    have unbound : (store.register var).2.bindings[var]? = none := missing
    have grows : store.Extends ((store.register var).2.bind var (store.register var).1).2 :=
      (store.extends_alloc _).trans (Store.extends_bind _ _ _)
    intro id other loaded found
    rw [node?, arena_bind] at found
    have look : (store.arena.push ⟨.register var, false⟩)[id]? =
        some ⟨.register other, loaded⟩ := found
    rw [Array.getElem?_push] at look
    split at look
    · rename_i last
      cases look
      refine ⟨rfl, ?_⟩
      rw [valueOf?_bind_eq, Store.bind, unbound, last]
      rfl
    · obtain ⟨unmarked, bound⟩ := owns _ _ _ look
      exact ⟨unmarked, grows.values bound⟩

theorem kept_ownsPlaceholders : Kept (fun _ => True) OwnsPlaceholders where
  alloc := fun other owns => owns.alloc other
  unmark := fun value owns => owns.unmark value
  bind := fun {_ var} _ value owns => owns.bind var value
  placeholder := fun var owns => owns.placeholder var

theorem ownsPlaceholders_reached (setting : Setting) (requests : List Request) :
    (setting.reached requests).store.OwnsPlaceholders :=
  kept_ownsPlaceholders.reached (fun _ _ _ => trivial) (fun _ _ => trivial) ownsPlaceholders_empty
    requests

end Store

/-- Whatever is asked, and wherever a walk is cut off, a variable has at most one placeholder,
without a mark, and it is bound to it; so an expression mentions only variables that stand for
themselves. -/
theorem reached_onePlaceholder (procedure : Procedure) (policy : Policy) (limit : Nat)
    (requests : List Request) (var : VarId) :
    (Setting.reached ⟨procedure.ssa, policy, limit⟩ requests).store.OnePlaceholder var ∧
      (Session.reached procedure policy requests).store.OnePlaceholder var := by
  constructor
  · exact (Store.ownsPlaceholders_reached _ requests).onePlaceholder var
  · rw [Session.store, Session.progress_reached]
    exact (Store.ownsPlaceholders_reached _ requests).onePlaceholder var

/-- Three inputs of an addition are cut off, and each of them stands for itself. -/
example :
    let reached := Setting.reached ⟨Countdown.procedure.ssa, {}, 1⟩ [.resolve 6, .resolve 5]
    reached.events.toList.take 3 = [.tooDeep 4 1, .tooDeep 5 1, .tooDeep 1 1] ∧
      reached.store.arena.toList.filter (·.isPlaceholder) =
        [⟨.register 4, false⟩, ⟨.register 5, false⟩, ⟨.register 1, false⟩] ∧
      [4, 5, 1].map reached.store.valueOf? = [some 1, some 2, some 3] := by
  decide +kernel

end SymbolicFlow

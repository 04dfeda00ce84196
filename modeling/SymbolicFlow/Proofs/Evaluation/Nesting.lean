import Mathlib.Data.Finset.Sort
import SymbolicFlow.Proofs.Evaluation.Acyclic
import SymbolicFlow.Proofs.Evaluation.Invariants

/-!
# A walk is never nested

A walk that keeps the set of the variables in progress beside its stack, and that may start another
walk wherever a definition asks for a variable, goes through the same states as `walkStep`: when a
definition is evaluated everything that it demands is bound, so no other walk is ever started.

`Advance` says what one round does: it leaves the last variable entered, or enters one that its
definition reads, or makes that one a placeholder since there is no room.  From this it follows that
the stack is a chain of variables, each one read by the definition of the one below, from the
variable that is asked for on; with one more variable that finds no room this is a chain that is
longer than the depth limit.
-/

set_option autoImplicit false

namespace SymbolicFlow

open Ssa (Statement)

open Evaluation

/-- A walk: the variables in progress, first the one that was entered last, the set of the same
variables, and the state of the evaluation. -/
structure StackWalk where
  stack : List VarId
  inProgress : Finset VarId
  progress : Progress

/-- Resolves a variable while others are in progress.  One that is bound is looked up, one that is
in progress becomes a placeholder, and for any other one a nested walk is started. -/
def Evaluation.resolveAmid (inProgress : Finset VarId)
    (nested : Finset VarId → VarId → Evaluation ValueId) (var : VarId) : Evaluation ValueId := do
  match ← ask (·.valueOf? var) with
  | some bound => pure bound
  | none =>
      if var ∈ inProgress then do
        report (.cyclic var)
        placeholder var
      else nested inProgress var

namespace StackWalk

def enter (walk : StackWalk) (input : VarId) : StackWalk :=
  { walk with
    stack := input :: walk.stack
    inProgress := insert input walk.inProgress }

def leave (walk : StackWalk) : StackWalk :=
  match walk.stack with
  | [] => walk
  | top :: stack => { walk with stack, inProgress := walk.inProgress.erase top }

def run {α : Type} (walk : StackWalk) (evaluation : Evaluation α) : StackWalk :=
  { walk with progress := (evaluation walk.progress).2 }

/-- Goes on with a variable that is not bound yet.  If its definition waits for another one, that
one is entered, as long as there is room. -/
def pursue (setting : Setting) (nested : Finset VarId → VarId → Evaluation ValueId)
    (walk : StackWalk) (top : VarId) : StackWalk :=
  match setting.form.definition? top with
  | none => (walk.run (do report (.undefined top); placeholder top)).leave
  | some statement =>
      match waitsFor? walk.progress.store (walk.inProgress.sort (· ≤ ·)) statement with
      | some input =>
          if setting.depthLimit ≤ walk.inProgress.card then
            walk.run (do report (.tooDeep input setting.depthLimit); placeholder input)
          else walk.enter input
      | none =>
          let evaluation := evaluateStatement setting.policy (resolveAmid walk.inProgress nested)
          (walk.run (do let _ ← evaluation statement; placeholder top)).leave

def round (setting : Setting) (nested : Finset VarId → VarId → Evaluation ValueId)
    (walk : StackWalk) : StackWalk :=
  match walk.stack with
  | [] => walk
  | top :: _ =>
      if walk.progress.store.isBound top then walk.leave else walk.pursue setting nested top

def after (setting : Setting) (nested : Finset VarId → VarId → Evaluation ValueId) (var : VarId)
    (before : Progress) (rounds : Nat) : StackWalk :=
  (round setting nested)^[rounds] ⟨[var], {var}, before⟩

/-- Nothing is in progress twice, the set holds what is on the stack, the stack keeps within the
limit, and each variable on it is read by the definition of the one below. -/
structure Straight (setting : Setting) (walk : StackWalk) : Prop where
  distinct : walk.stack.Nodup
  recorded : walk.inProgress = walk.stack.toFinset
  bounded : walk.stack.length ≤ setting.depthLimit
  linked : walk.stack.IsChain fun used reader => used ∈ setting.form.inputs reader

end StackWalk

/-- A chain of unbound variables from the given one on, each one read by the definition of the one
before. -/
structure Ssa.Form.OpenChain (form : Ssa.Form) (store : Store) (var : VarId) (chain : List VarId) :
    Prop where
  starts : chain.head? = some var
  linked : chain.IsChain fun reader used => used ∈ form.inputs reader
  unbound : ∀ member ∈ chain, store.valueOf? member = none

namespace Evaluation

/-! ## One round -/

inductive Advance (setting : Setting) (top : VarId) (pending : List VarId) (before : Progress) :
    List VarId → Progress → Prop where
  | leave {after : Progress} (bound : after.store.isBound top = true)
      (adds : Adds Event.NotTooDeep before after) : Advance setting top pending before pending after
  | enter {input : VarId} (reads : input ∈ setting.form.inputs top)
      (unbound : before.store.valueOf? input = none)
      (room : (top :: pending).length < setting.depthLimit) :
      Advance setting top pending before (input :: top :: pending) before
  | cut {input : VarId} {after : Progress} (reads : input ∈ setting.form.inputs top)
      (unbound : before.store.valueOf? input = none) (bound : after.store.isBound input = true)
      (full : setting.depthLimit ≤ (top :: pending).length) :
      Advance setting top pending before (top :: pending) after

section Rounds

variable {setting : Setting} {top : VarId} {pending : List VarId} {before : Progress}

theorem yields_advance (orderly : setting.form.Orderly)
    (ascending : (top :: pending).Pairwise (· < ·)) :
    Yields (walkStep setting (top :: pending)) before (Advance setting top pending before) := by
  refine Yields.bind_ask ?_
  split
  · rename_i bound
    exact Yields.pure (.leave bound (.refl before))
  · cases defined : setting.form.definition? top with
    | none =>
        have reported : Adds Event.NotTooDeep before (report (.undefined top) before).2 :=
          .report (by simp [Event.NotTooDeep]) before
        exact .leave (isBound_placeholder top _) (reported.trans (.placeholder top _))
    | some statement =>
        obtain ⟨place, placed⟩ := Ssa.Form.exists_place_of_definition? defined
        refine Yields.bind_ask ?_
        cases waits : waitsFor? before.store (top :: pending) statement with
        | some input =>
            obtain ⟨machine, used, unbound, _⟩ := open_of_waitsFor? orderly placed waits
            have reads : input ∈ setting.form.inputs top := by
              simpa [Ssa.Form.inputs, defined, machine] using used
            dsimp only
            split
            · rename_i full
              exact .cut reads unbound (isBound_placeholder input _) full
            · rename_i notFull
              exact Yields.pure (.enter reads unbound (Nat.lt_of_not_le notFull))
        | none =>
            have evaluated := adds_evaluateStatement_settled
              (fun _ => Event.IsRoutine.notTooDeep) setting.policy
              fun used => isBound_of_demands orderly ascending defined placed waits
            exact .leave (isBound_placeholder top _) (evaluated.trans (.placeholder top _))

theorem extends_walkStep (setting : Setting) (pending : List VarId) (before : Progress) :
    before.store.Extends (walkStep setting pending before).2.store :=
  preserves_walkStep (setting.upholds_extends before.store) pending before (.refl before.store)

end Rounds

/-! ## All rounds -/

def advance (setting : Setting) (state : List VarId × Progress) : List VarId × Progress :=
  walkStep setting state.1 state.2

def trail (setting : Setting) (var : VarId) (before : Progress) (rounds : Nat) :
    List VarId × Progress :=
  (advance setting)^[rounds] ([var], before)

theorem trail_succ (setting : Setting) (var : VarId) (before : Progress) (rounds : Nat) :
    trail setting var before (rounds + 1) = advance setting (trail setting var before rounds) :=
  Function.iterate_succ_apply' _ _ _

/-- The variables in progress form a chain of unbound variables from the one asked for on, and that
one is bound when none is left. -/
structure Course (setting : Setting) (var : VarId) (before : Progress) (stack : List VarId)
    (progress : Progress) : Prop where
  linked : stack.IsChain fun used reader => used ∈ setting.form.inputs reader
  bounded : stack.length ≤ setting.depthLimit
  grounded : stack.getLast? = some var ∨ stack = [] ∧ progress.store.isBound var = true
  unbound : ∀ member ∈ stack, member = var ∨ before.store.valueOf? member = none
  grows : before.store.Extends progress.store

namespace Course

variable {setting : Setting} {var top : VarId} {stack pending rest : List VarId}
  {before progress after : Progress}

theorem ascending (course : Course setting var before stack progress)
    (orderly : setting.form.Orderly) : stack.Pairwise (· < ·) :=
  List.isChain_iff_pairwise.mp (course.linked.imp fun _ _ => orderly.inputsOlder)

theorem bottom (course : Course setting var before (top :: pending) progress) :
    (top :: pending).getLast? = some var := by
  simpa using course.grounded

theorem start (positive : 0 < setting.depthLimit) : Course setting var before [var] before where
  linked := List.isChain_singleton var
  bounded := positive
  grounded := .inl rfl
  unbound := fun _ member => .inl (List.mem_singleton.mp member)
  grows := .refl before.store

theorem next (course : Course setting var before (top :: pending) progress)
    (advances : Advance setting top pending progress rest after)
    (grows : progress.store.Extends after.store) : Course setting var before rest after := by
  have last := course.bottom
  have soFar := course.grows.trans grows
  cases advances with
  | leave bound _ =>
      refine ⟨course.linked.tail, Nat.le_of_succ_le course.bounded, ?_,
        fun member inside => course.unbound member (List.mem_cons_of_mem top inside), soFar⟩
      cases pending with
      | nil =>
          cases last
          exact .inr ⟨rfl, bound⟩
      | cons below pending => exact .inl last
  | enter reads unbound room =>
      refine ⟨course.linked.cons_cons reads, room, .inl last, ?_, soFar⟩
      intro member inside
      rcases List.mem_cons.mp inside with rfl | below
      · exact .inr (course.grows.valueOf?_eq_none unbound)
      · exact course.unbound member below
  | cut _ _ _ _ => exact ⟨course.linked, course.bounded, .inl last, course.unbound, soFar⟩

theorem openChain (course : Course setting var before (top :: pending) progress)
    (unbound : before.store.valueOf? var = none) {input : VarId}
    (reads : input ∈ setting.form.inputs top) (missing : progress.store.valueOf? input = none) :
    setting.form.OpenChain before.store var (input :: top :: pending).reverse where
  starts := by rw [List.head?_reverse, List.getLast?_cons_cons, course.bottom]
  linked := List.isChain_reverse.mpr (course.linked.cons_cons reads)
  unbound := by
    intro member inside
    rcases List.mem_cons.mp (List.mem_reverse.mp inside) with rfl | below
    · exact course.grows.valueOf?_eq_none missing
    · rcases course.unbound member below with rfl | stillUnbound
      · exact unbound
      · exact stillUnbound

theorem adds (course : Course setting var before (top :: pending) progress)
    (unbound : before.store.valueOf? var = none)
    (short : ∀ chain, setting.form.OpenChain before.store var chain →
      chain.length ≤ setting.depthLimit)
    (advances : Advance setting top pending progress rest after) :
    Adds Event.NotTooDeep progress after := by
  cases advances with
  | leave _ adds => exact adds
  | enter _ _ _ => exact .refl progress
  | cut reads missing _ full =>
      -- The stack and the input together are one variable too many.
      have fits := short _ (course.openChain unbound reads missing)
      simp only [List.length_reverse, List.length_cons] at fits full
      omega

end Course

section Trails

variable {setting : Setting} (orderly : setting.form.Orderly) (positive : 0 < setting.depthLimit)
  (var : VarId) (before : Progress)
include orderly

theorem remaining_advance {top : VarId} {pending rest : List VarId} {progress after : Progress}
    (ascending : (top :: pending).Pairwise (· < ·))
    (advances : Advance setting top pending progress rest after)
    (grows : progress.store.Extends after.store) :
    remaining setting.form after.store rest <
      remaining setting.form progress.store (top :: pending) := by
  have inTable {input : VarId} (reads : input ∈ setting.form.inputs top) :
      input < setting.form.vars.size ∧ input ∉ top :: pending := by
    have older := orderly.inputsOlder reads
    exact ⟨Nat.lt_trans older (Ssa.Form.lt_size_of_mem_inputs reads),
      notMem_of_older ascending older⟩
  cases advances with
  | leave bound _ => exact remaining_leave grows (Store.isBound_iff.mp bound)
  | enter reads unbound _ => exact remaining_enter (inTable reads).1 unbound (inTable reads).2
  | cut reads unbound bound _ =>
      exact remaining_bind grows (inTable reads).1 unbound (inTable reads).2
        (Store.isBound_iff.mp bound)

include positive

/-- What holds at first and after every round holds all along, and so does `Course`. -/
theorem trail_induction {motive : Nat → List VarId → Progress → Prop}
    (start : motive 0 [var] before)
    (idle : ∀ {rounds progress}, motive rounds [] progress → motive (rounds + 1) [] progress)
    (next : ∀ {rounds top pending progress rest after},
      Course setting var before (top :: pending) progress →
      Advance setting top pending progress rest after → progress.store.Extends after.store →
      motive rounds (top :: pending) progress → motive (rounds + 1) rest after) (rounds : Nat) :
    Course setting var before (trail setting var before rounds).1
        (trail setting var before rounds).2 ∧
      motive rounds (trail setting var before rounds).1 (trail setting var before rounds).2 := by
  induction rounds with
  | zero => exact ⟨.start positive, start⟩
  | succ rounds ih =>
      rw [trail_succ]
      generalize trail setting var before rounds = state at ih
      obtain ⟨stack, progress⟩ := state
      obtain ⟨course, holds⟩ := ih
      cases stack with
      | nil => exact ⟨course, idle holds⟩
      | cons top pending =>
          have advances : Yields (walkStep setting (top :: pending)) progress
              (Advance setting top pending progress) :=
            yields_advance orderly (course.ascending orderly)
          have grows := extends_walkStep setting (top :: pending) progress
          exact ⟨course.next advances grows, next course advances grows holds⟩

theorem course_trail (rounds : Nat) :
    Course setting var before (trail setting var before rounds).1
      (trail setting var before rounds).2 :=
  (trail_induction (motive := fun _ _ _ => True) orderly positive var before trivial
    (fun _ => trivial) (fun _ _ _ _ => trivial) rounds).1

theorem trail_spent (rounds : Nat) :
    (trail setting var before rounds).1 = [] ∨
      remaining setting.form (trail setting var before rounds).2.store
        (trail setting var before rounds).1 + rounds ≤
          remaining setting.form before.store [var] := by
  refine (trail_induction (motive := fun rounds stack progress => stack = [] ∨
    remaining setting.form progress.store stack + rounds ≤
      remaining setting.form before.store [var])
    orderly positive var before (.inr (Nat.le_refl _)) (fun _ => .inl rfl) ?_ rounds).2
  intro rounds top pending progress rest after course advances grows spent
  have soFar := spent.resolve_left (List.cons_ne_nil _ _)
  have less := remaining_advance orderly (course.ascending orderly) advances grows
  exact .inr (by omega)

theorem trail_ends :
    (trail setting var before (2 * (setting.form.vars.size + 1))).1 = [] ∧
      (trail setting var before (2 * (setting.form.vars.size + 1))).2.store.isBound var = true := by
  have course := course_trail orderly positive var before (2 * (setting.form.vars.size + 1))
  have ended : (trail setting var before (2 * (setting.form.vars.size + 1))).1 = [] := by
    refine (trail_spent orderly positive var before _).resolve_right fun unspent => ?_
    have few : (openVars setting.form before.store [var]).card ≤ setting.form.vars.size :=
      (Finset.card_filter_le _ _).trans_eq (Finset.card_range _)
    simp only [remaining, List.length_singleton] at unspent
    omega
  refine ⟨ended, (course.grounded.resolve_left fun last => ?_).2⟩
  rw [ended] at last
  cases last

theorem adds_trail (unbound : before.store.valueOf? var = none)
    (short : ∀ chain, setting.form.OpenChain before.store var chain →
      chain.length ≤ setting.depthLimit) (rounds : Nat) :
    Adds Event.NotTooDeep before (trail setting var before rounds).2 := by
  refine (trail_induction (motive := fun _ _ progress => Adds Event.NotTooDeep before progress)
    orderly positive var before (.refl before) (fun soFar => soFar) ?_ rounds).2
  intro rounds top pending progress rest after course advances _ soFar
  exact soFar.trans (course.adds unbound short advances)

end Trails

theorem walk_eq_iterate (setting : Setting) (rounds : Nat) (stack : List VarId)
    (progress : Progress) :
    (walk setting rounds stack progress).2 =
      ((advance setting)^[rounds] (stack, progress)).2 := by
  induction rounds generalizing stack progress with
  | zero => rfl
  | succ rounds ih =>
      cases stack with
      | nil =>
          have still : advance setting ([], progress) = ([], progress) := rfl
          rw [Function.iterate_fixed still]
          rfl
      | cons top pending => exact ih _ _

/-! ## Nested walks are not started -/

section Amid

variable {inProgress : Finset VarId} {nested : Finset VarId → VarId → Evaluation ValueId}
  {before : Progress}

theorem settled_eq_resolveAmid {var : VarId} (bound : before.store.isBound var = true) :
    settled var before = resolveAmid inProgress nested var before := by
  obtain ⟨value, found⟩ := Store.isBound_iff.mp bound
  have looked : Yields (settled var) before
      fun result after => (result, after) = (value, before) := by
    apply Yields.bind_ask
    rw [found]
    exact Yields.pure rfl
  have again : Yields (resolveAmid inProgress nested var) before
      fun result after => (result, after) = (value, before) := by
    apply Yields.bind_ask
    rw [found]
    exact Yields.pure rfl
  exact looked.trans again.symm

/-- If everything that a statement demands is bound, it is evaluated without a nested walk. -/
theorem evaluateStatement_resolveAmid (policy : Policy) {statement : Statement}
    (bound : ∀ used, statement.Demands used → before.store.isBound used = true) :
    evaluateStatement policy (resolveAmid inProgress nested) statement before =
      evaluateStatement policy settled statement before := by
  refine ((script_evaluateStatement policy statement).eq_of_agree
    (fun progress => ∀ used, statement.Demands used → progress.store.isBound used = true)
    ?_ (fun demands reached => settled_eq_resolveAmid (reached _ demands)) bound).symm
  -- A look-up of a bound variable changes nothing, so what is demanded is bound after any move.
  intro earlier later reached move used demands
  have adds : Adds Event.IsRoutine earlier later :=
    .of_moves_settled (fun _ routine => routine) (.single move) reached
  exact adds.isBound (reached used demands)

end Amid

theorem waitsFor?_congr {pending others : List VarId} (same : ∀ var, var ∈ pending ↔ var ∈ others)
    (store : Store) (statement : Statement) :
    waitsFor? store pending statement = waitsFor? store others statement := by
  have contains (var : VarId) : pending.contains var = others.contains var := by
    simp [same var]
  simp only [waitsFor?, contains]

end Evaluation

namespace StackWalk

def along (stack : List VarId) (progress : Progress) : StackWalk :=
  ⟨stack, stack.toFinset, progress⟩

section Simulation

variable {setting : Setting} {nested : Finset VarId → VarId → Evaluation ValueId} {top : VarId}
  {stack pending : List VarId} {progress : Progress}

theorem leave_along (fresh : top ∉ pending) (progress : Progress) :
    (along (top :: pending) progress).leave = along pending progress := by
  simp [along, leave, fresh]

theorem enter_along (input : VarId) :
    (along stack progress).enter input = along (input :: stack) progress := by
  simp [along, enter]

theorem card_along (nodup : stack.Nodup) : (along stack progress).inProgress.card = stack.length :=
  List.toFinset_card_of_nodup nodup

theorem waitsFor?_along (statement : Statement) :
    waitsFor? progress.store ((along stack progress).inProgress.sort (· ≤ ·)) statement =
      waitsFor? progress.store stack statement :=
  waitsFor?_congr (by simp [along]) progress.store statement

theorem yields_round (orderly : setting.form.Orderly)
    (ascending : (top :: pending).Pairwise (· < ·)) :
    Yields (walkStep setting (top :: pending)) progress fun rest after =>
      round setting nested (along (top :: pending) progress) = along rest after := by
  have nodup : (top :: pending).Nodup := ascending.imp Nat.ne_of_lt
  have fresh : top ∉ pending := (List.nodup_cons.mp nodup).1
  refine Yields.bind_ask ?_
  split
  · rename_i bound
    refine Yields.pure ?_
    rw [← leave_along fresh]
    exact if_pos bound
  · rename_i unbound
    have pursued : round setting nested (along (top :: pending) progress) =
        (along (top :: pending) progress).pursue setting nested top := if_neg unbound
    rw [pursued, pursue]
    cases defined : setting.form.definition? top with
    | none => exact leave_along fresh _
    | some statement =>
        obtain ⟨place, placed⟩ := Ssa.Form.exists_place_of_definition? defined
        refine Yields.bind_ask ?_
        have sameStore : (along (top :: pending) progress).progress = progress := rfl
        simp only [sameStore, waitsFor?_along, card_along nodup]
        cases waits : waitsFor? progress.store (top :: pending) statement with
        | some input =>
            by_cases full : setting.depthLimit ≤ (top :: pending).length
            · simp only [if_pos full]
              rfl
            · simp only [if_neg full]
              exact enter_along input
        | none =>
            change leave (along _ (placeholder top
              (evaluateStatement _ _ statement progress).2).2) = _
            rw [evaluateStatement_resolveAmid setting.policy
              fun used => isBound_of_demands orderly ascending defined placed waits]
            exact leave_along fresh _

theorem after_eq_along (orderly : setting.form.Orderly) (positive : 0 < setting.depthLimit)
    (nested : Finset VarId → VarId → Evaluation ValueId) (var : VarId) (before : Progress)
    (rounds : Nat) :
    after setting nested var before rounds =
      along (trail setting var before rounds).1 (trail setting var before rounds).2 := by
  induction rounds with
  | zero => rfl
  | succ rounds ih =>
      have course := course_trail orderly positive var before rounds
      rw [after, Function.iterate_succ_apply', ← after, ih, trail_succ]
      generalize trail setting var before rounds = state at course
      obtain ⟨stack, progress⟩ := state
      cases stack with
      | nil => rfl
      | cons top pending => exact yields_round orderly (course.ascending orderly)

theorem straight_along {var : VarId} {before : Progress} (orderly : setting.form.Orderly)
    (course : Course setting var before stack progress) :
    (along stack progress).Straight setting where
  distinct := (course.ascending orderly).imp Nat.ne_of_lt
  recorded := rfl
  bounded := course.bounded
  linked := course.linked

end Simulation

end StackWalk

/-! ## Resolving a variable -/

namespace Evaluation

section Resolving

variable {setting : Setting} {var : VarId} {before : Progress}

theorem trail_of_isBound (bound : before.store.isBound var = true) (rounds : Nat) :
    (trail setting var before rounds).2 = before := by
  cases rounds with
  | zero => rfl
  | succ rounds =>
      have left : advance setting ([var], before) = ([], before) := by
        have step : Yields (walkStep setting [var]) before
            fun rest after => (rest, after) = ([], before) := by
          refine Yields.bind_ask ?_
          rw [if_pos bound]
          exact Yields.pure rfl
        exact step
      have still : advance setting ([], before) = ([], before) := rfl
      rw [trail, Function.iterate_succ_apply, left, Function.iterate_fixed still]

theorem yields_resolveVar_trail (orderly : setting.form.Orderly)
    (positive : 0 < setting.depthLimit) (var : VarId) (before : Progress) :
    Yields (resolveVar setting var) before fun value after =>
      after = (trail setting var before (2 * (setting.form.vars.size + 1))).2 ∧
        after.store.valueOf? var = some value := by
  refine Yields.bind_ask ?_
  cases found : before.store.valueOf? var with
  | some bound =>
      have isBound := Store.isBound_iff.mpr ⟨bound, found⟩
      exact Yields.pure ⟨(trail_of_isBound isBound _).symm, found⟩
  | none =>
      have walked : Yields (walk setting (2 * (setting.form.vars.size + 1)) [var]) before
          fun _ after => after = (trail setting var before (2 * (setting.form.vars.size + 1))).2 :=
        walk_eq_iterate setting _ [var] before
      refine Yields.bind walked ?_
      rintro _ _ rfl
      obtain ⟨value, known⟩ := Store.isBound_iff.mp (trail_ends orderly positive var before).2
      exact Yields.of_eq (placeholder_of_bound known) (Yields.pure ⟨rfl, known⟩)

theorem adds_resolveVar_of_short (orderly : setting.form.Orderly)
    (positive : 0 < setting.depthLimit)
    (short : ∀ chain, setting.form.OpenChain before.store var chain →
      chain.length ≤ setting.depthLimit) :
    Adds Event.NotTooDeep before (resolveVar setting var before).2 := by
  have walked : (resolveVar setting var before).2 = _ :=
    (yields_resolveVar_trail orderly positive var before).1
  rw [walked]
  cases found : before.store.valueOf? var with
  | some bound =>
      rw [trail_of_isBound (Store.isBound_iff.mpr ⟨bound, found⟩)]
      exact .refl before
  | none => exact adds_trail orderly positive var before found short _

end Resolving

/-- From any state, any variable is resolved by a single walk, whatever a nested one would do.  The
walk keeps its stack straight within the depth limit, ends with the variable bound and nothing in
progress, and meets the limit only if there is a chain of unbound variables that exceeds it. -/
theorem resolveVar_single_walk {procedure : Procedure} (built : procedure.Built) (policy : Policy)
    {limit : Nat} (positive : 0 < limit) (before : Progress) (var : VarId) :
    let setting : Setting := { form := procedure.ssa, policy, depthLimit := limit }
    let resolved := resolveVar setting var before
    (∀ nested rounds, let walk := StackWalk.after setting nested var before rounds
      walk.Straight setting ∧ (walk.stack, walk.progress) = trail setting var before rounds) ∧
    (∀ nested other rounds, StackWalk.after setting nested var before rounds =
      StackWalk.after setting other var before rounds) ∧
    (∀ nested, StackWalk.after setting nested var before (2 * (procedure.ssa.vars.size + 1)) =
      ⟨[], ∅, resolved.2⟩) ∧
    resolved.2.store.valueOf? var = some resolved.1 ∧
    ((∀ chain, procedure.ssa.OpenChain before.store var chain → chain.length ≤ limit) →
      ∃ added : List Event, resolved.2.events.toList = before.events.toList ++ added ∧
        ∀ event ∈ added, event.NotTooDeep) := by
  intro setting resolved
  have orderly : setting.form.Orderly := Ssa.orderly_ssa built.wellFormed
  have limited : 0 < setting.depthLimit := positive
  have same := StackWalk.after_eq_along orderly limited
  obtain ⟨walked, found⟩ := yields_resolveVar_trail orderly limited var before
  refine ⟨?_, ?_, ?_, found, ?_⟩
  · intro nested rounds walk
    have goesAlong : walk = _ := same nested var before rounds
    rw [goesAlong]
    exact ⟨StackWalk.straight_along orderly (course_trail orderly limited var before rounds), rfl⟩
  · intro nested other rounds
    rw [same nested, same other]
  · intro nested
    have ended := (trail_ends orderly limited var before).1
    have lastState : resolved.2 = _ := walked
    rw [same, lastState]
    change StackWalk.along (trail setting var before (2 * (setting.form.vars.size + 1))).1 _ = _
    rw [ended]
    rfl
  · intro short
    exact (adds_resolveVar_of_short orderly limited short).appends

/-- The longest chain from 7 on is 7, 6, 5, 0; the one by way of 4 ends at a read of the program
counter, which is bound. -/
theorem length_openChain_countdown {chain : List VarId}
    (isOpen : Countdown.procedure.ssa.OpenChain
      (Session.seed Countdown.procedure.ssa.counterReads) 7 chain) : chain.length ≤ 4 := by
  have reads : [7, 6, 5, 4, 1, 0].map Countdown.procedure.ssa.inputs =
      [[6], [4, 5, 1], [0], [3], [], []] := by decide +kernel
  simp only [List.map_cons, List.map_nil, List.cons.injEq, and_true] at reads
  obtain ⟨readsBySeven, readsBySix, readsByFive, readsByFour, readsByOne, readsByZero⟩ := reads
  have counter : (Session.seed Countdown.procedure.ssa.counterReads).valueOf? 3 ≠ none := by
    decide +kernel
  rcases chain with _ | ⟨first, _ | ⟨second, _ | ⟨third, _ | ⟨fourth, _ | ⟨fifth, rest⟩⟩⟩⟩⟩
  case cons.cons.cons.cons.cons =>
    obtain ⟨starts, linked, unbound⟩ := isOpen
    obtain rfl : first = 7 := by simpa using starts
    simp only [List.isChain_cons_cons] at linked
    obtain ⟨toSecond, toThird, toFourth, toFifth, _⟩ := linked
    obtain rfl : second = 6 := by simpa [readsBySeven] using toSecond
    have thirdCases : third = 4 ∨ third = 5 ∨ third = 1 := by simpa [readsBySix] using toThird
    rcases thirdCases with rfl | rfl | rfl
    · obtain rfl : fourth = 3 := by simpa [readsByFour] using toFourth
      exact absurd (unbound 3 (by simp)) counter
    · obtain rfl : fourth = 0 := by simpa [readsByFive] using toFourth
      simp [readsByZero] at toFifth
    · simp [readsByOne] at toFourth
  all_goals simp

theorem resolveVar_single_walk_countdown :
    Countdown.procedure.Built ∧ 0 < 4 ∧
      StackWalk.after ⟨Countdown.procedure.ssa, {}, 4⟩ (fun _ => settled) 7
          (Setting.reached ⟨Countdown.procedure.ssa, {}, 4⟩ []) 20 =
        ⟨[], ∅, Setting.reached ⟨Countdown.procedure.ssa, {}, 4⟩ [.resolve 7]⟩ ∧
      ∀ event ∈ (Setting.reached ⟨Countdown.procedure.ssa, {}, 4⟩ [.resolve 7]).events,
        event.NotTooDeep := by
  obtain ⟨_, _, ends, _, shallow⟩ := resolveVar_single_walk Countdown.built {} (by decide : 0 < 4)
    (Setting.reached ⟨Countdown.procedure.ssa, {}, 4⟩ []) 7
  refine ⟨Countdown.built, by decide, ends _, ?_⟩
  obtain ⟨added, allAdded, harmless⟩ := shallow fun _ => length_openChain_countdown
  have oneRequest : Setting.reached ⟨Countdown.procedure.ssa, {}, 4⟩ [.resolve 7] =
      (resolveVar ⟨Countdown.procedure.ssa, {}, 4⟩ 7
        (Setting.reached ⟨Countdown.procedure.ssa, {}, 4⟩ [])).2 := rfl
  intro event member
  rw [oneRequest, ← Array.mem_toList_iff, allAdded] at member
  exact harmless event member

/-- With room for one less, the end of that chain is cut off. -/
example :
    (trail ⟨Countdown.procedure.ssa, {}, 4⟩ 7 (Setting.reached ⟨Countdown.procedure.ssa, {}, 4⟩ [])
        5).1 = [0, 5, 6, 7] ∧
      .tooDeep 0 3 ∈ (Setting.reached ⟨Countdown.procedure.ssa, {}, 3⟩ [.resolve 7]).events := by
  decide +kernel

end Evaluation

end SymbolicFlow

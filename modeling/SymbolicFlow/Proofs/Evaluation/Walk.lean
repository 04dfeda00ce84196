import Mathlib.Data.Finset.Card
import SymbolicFlow.Proofs.Evaluation.Statements

/-!
# Walking down definitions

The variables in progress ascend: each one is read by the definition of the next, and inputs are
older than outputs.  So nothing that a definition reads is itself in progress, and when nothing is
left to wait for, everything that it reads is bound.  A step either leaves a variable, which is
bound then, or enters or binds one that was open; counting open variables twice, the count drops
with every step, and the walk ends before its steps run out.
-/

set_option autoImplicit false

namespace SymbolicFlow

open Ssa (Statement)

def Store.BindsCounters (store : Store) (form : Ssa.Form) : Prop :=
  ∀ var next, form.counterRead? var = some next → ∃ value, store.valueOf? var = some value

theorem Store.Extends.bindsCounters {before after : Store} (grows : before.Extends after)
    {form : Ssa.Form} (binds : before.BindsCounters form) : after.BindsCounters form := by
  intro var next read
  obtain ⟨value, found⟩ := binds var next read
  exact ⟨value, grows.values found⟩

def Setting.reading (setting : Setting) (cut : VarId → Prop) : Ssa.Reading :=
  ⟨setting.form, setting.policy, cut⟩

namespace Evaluation

theorem resolver_settled (reading : Ssa.Reading) :
    Resolver reading settled fun var progress =>
      ∃ value, progress.store.valueOf? var = some value where
  stable := fun bound grows => by
    obtain ⟨value, found⟩ := bound
    exact ⟨value, grows.values found⟩
  resolves := fun {var before} valid bound => by
    obtain ⟨value, found⟩ := bound
    refine Yields.bind_ask ?_
    rw [found]
    exact Yields.pure ⟨.refl valid, found⟩

/-! ## Waiting -/

section Waiting

variable {form : Ssa.Form} {statement : Statement} {place : Ssa.Location} {store : Store}
  {pending : List VarId}

theorem open_of_waitsFor? (orderly : form.Orderly)
    (placed : form.statement? place = some statement) {input : VarId}
    (waits : waitsFor? store pending statement = some input) :
    statement.isPhi = false ∧ input ∈ statement.usedVars ∧ store.valueOf? input = none ∧
      input ∉ pending := by
  cases machine : statement.instruction with
  | none =>
      have isPhi : statement.isPhi = true := by simp [Statement.isPhi, machine]
      simp only [waitsFor?, machine] at waits
      split at waits
      · rename_i source single
        exact absurd single (orderly.phiMerges placed isPhi source)
      · cases waits
  | some instruction =>
      simp only [waitsFor?, machine] at waits
      have isOpen := List.find?_some waits
      simp only [Bool.and_eq_true, Bool.not_eq_true', List.contains_eq_mem,
        decide_eq_false_iff_not] at isOpen
      refine ⟨by simp [Statement.isPhi, machine], List.mem_of_find?_eq_some waits, ?_, isOpen.2⟩
      cases found : store.valueOf? input with
      | none => rfl
      | some value =>
          rw [Store.isBound_iff.mpr ⟨value, found⟩] at isOpen
          cases isOpen.1

theorem bound_of_waitsFor?_none (waits : waitsFor? store pending statement = none)
    (machine : statement.isPhi = false) {used : VarId} (reads : used ∈ statement.usedVars)
    (notPending : used ∉ pending) : ∃ value, store.valueOf? used = some value := by
  rw [Statement.isPhi, Option.isNone_eq_false_iff, Option.isSome_iff_exists] at machine
  obtain ⟨instruction, machine⟩ := machine
  simp only [waitsFor?, machine] at waits
  have notOpen := List.find?_eq_none.mp waits used reads
  rw [← Store.isBound_iff]
  simpa [notPending] using notOpen

end Waiting

def openVars (form : Ssa.Form) (store : Store) (pending : List VarId) : Finset VarId :=
  (Finset.range form.vars.size).filter fun var =>
    store.valueOf? var = none ∧ var ∉ pending

/-- What is left to do: an open variable has to be entered and to be left. -/
def remaining (form : Ssa.Form) (store : Store) (pending : List VarId) : Nat :=
  2 * (openVars form store pending).card + pending.length

section Remaining

variable {form : Ssa.Form} {before after : Store} {var input : VarId} {pending : List VarId}

theorem remaining_leave (grows : before.Extends after)
    (bound : ∃ value, after.valueOf? var = some value) :
    remaining form after pending < remaining form before (var :: pending) := by
  have fewer : openVars form after pending ⊆ openVars form before (var :: pending) := by
    intro other member
    obtain ⟨inside, missing, notPending⟩ := Finset.mem_filter.mp member
    refine Finset.mem_filter.mpr ⟨inside, grows.valueOf?_eq_none missing, ?_⟩
    rw [List.mem_cons, not_or]
    refine ⟨?_, notPending⟩
    rintro rfl
    obtain ⟨value, found⟩ := bound
    rw [found] at missing
    cases missing
  have count := Finset.card_le_card fewer
  simp only [remaining, List.length_cons]
  omega

theorem remaining_enter (inside : input < form.vars.size) (missing : before.valueOf? input = none)
    (notPending : input ∉ pending) :
    remaining form before (input :: pending) < remaining form before pending := by
  have fewer : openVars form before (input :: pending) ⊂ openVars form before pending := by
    refine Finset.ssubset_iff_subset_ne.mpr ⟨?_, ?_⟩
    · intro other member
      obtain ⟨inRange, unbound, notIn⟩ := Finset.mem_filter.mp member
      exact Finset.mem_filter.mpr ⟨inRange, unbound, fun old => notIn (List.mem_cons_of_mem _ old)⟩
    · intro same
      have member : input ∈ openVars form before pending :=
        Finset.mem_filter.mpr ⟨Finset.mem_range.mpr inside, missing, notPending⟩
      rw [← same] at member
      exact (Finset.mem_filter.mp member).2.2 List.mem_cons_self
  have count := Finset.card_lt_card fewer
  simp only [remaining, List.length_cons]
  omega

theorem remaining_bind (grows : before.Extends after) (inside : input < form.vars.size)
    (missing : before.valueOf? input = none) (notPending : input ∉ pending)
    (bound : ∃ value, after.valueOf? input = some value) :
    remaining form after pending < remaining form before pending :=
  Nat.lt_trans (remaining_leave grows bound) (remaining_enter inside missing notPending)

end Remaining

/-! ## Steps and walks -/

/-- What a step achieves: it makes progress, and the variables that it leaves are bound. -/
structure Stepped (setting : Setting) (cut : VarId → Prop) (before after : Progress)
    (pending rest : List VarId) : Prop where
  next : Next (setting.reading cut) before after
  ascending : rest.Pairwise (· < ·)
  left : ∀ var ∈ pending, var ∉ rest → ∃ value, after.store.valueOf? var = some value
  progress : remaining setting.form after.store rest < remaining setting.form before.store pending

section Walks

variable {setting : Setting} {cut : VarId → Prop} {before : Progress} {var : VarId}
  {pending : List VarId}

theorem Stepped.leave {after : Progress} (next : Next (setting.reading cut) before after)
    (ascending : (var :: pending).Pairwise (· < ·))
    (bound : ∃ value, after.store.valueOf? var = some value) :
    Stepped setting cut before after (var :: pending) pending where
  next := next
  ascending := ascending.of_cons
  left := by
    intro other member outside
    rcases List.mem_cons.mp member with rfl | inside
    · exact bound
    · exact absurd inside outside
  progress := remaining_leave next.grows bound

theorem denotes_undefined (undefined : setting.form.definition? var = none)
    (binds : before.store.BindsCounters setting.form) (missing : before.store.valueOf? var = none) :
    (setting.reading cut).Denotes var (.register var false) := by
  have noCounter : setting.form.counterRead? var = none := by
    cases read : setting.form.counterRead? var with
    | none => rfl
    | some next =>
        obtain ⟨value, found⟩ := binds var next read
        rw [found] at missing
        cases missing
  have shape : setting.form.definitionTree setting.policy (fun _ => .absent) var =
      .register var false := by
    rw [Ssa.Form.definitionTree, noCounter, undefined]
  have noInputs : setting.form.inputs var = [] := by rw [Ssa.Form.inputs, undefined]
  refine shape ▸ Ssa.Reading.Denotes.unfold fun used reads => ?_
  have reads : used ∈ setting.form.inputs var := reads
  rw [noInputs] at reads
  cases reads

theorem older_of_definition {statement : Statement} (orderly : setting.form.Orderly)
    (defined : setting.form.definition? var = some statement) (machine : statement.isPhi = false)
    {used : VarId} (reads : used ∈ statement.usedVars) : used < var := by
  refine orderly.inputsOlder ?_
  simpa [Ssa.Form.inputs, defined, machine] using reads

theorem notMem_of_older (ascending : (var :: pending).Pairwise (· < ·)) {used : VarId}
    (older : used < var) : used ∉ var :: pending := by
  intro member
  rcases List.mem_cons.mp member with rfl | behind
  · exact Nat.lt_irrefl _ older
  · have younger := (List.pairwise_cons.mp ascending).1 used behind
    exact Nat.lt_asymm older younger

theorem yields_enter {statement : Statement} {place : Ssa.Location} {input : VarId}
    (orderly : setting.form.Orderly)
    (valid : before.store.Valid) (ascending : (var :: pending).Pairwise (· < ·))
    (defined : setting.form.definition? var = some statement)
    (placed : setting.form.statement? place = some statement)
    (waits : waitsFor? before.store (var :: pending) statement = some input) :
    Yields (if setting.depthLimit ≤ (var :: pending).length then do
          report (.tooDeep input setting.depthLimit)
          let _ ← placeholder input
          pure (var :: pending)
        else pure (input :: var :: pending)) before fun rest after =>
      Stepped setting cut before after (var :: pending) rest := by
  obtain ⟨machine, reads, missing, notPending⟩ := open_of_waitsFor? orderly placed waits
  have older := older_of_definition orderly defined machine reads
  have inside := Nat.lt_trans older (Ssa.Form.lt_size_of_definition? defined)
  split
  · refine Yields.bind (yields_report (setting.reading cut) valid _) ?_
    intro _ first reported
    obtain ⟨next, _, inEvents⟩ := reported
    have stands := yields_placeholder (setting.reading cut) next.valid input
      fun cuts _ _ => .leave (cuts input _ inEvents)
    refine Yields.bind stands fun value last done => Yields.pure ?_
    have grown := next.trans done.1
    exact ⟨grown, ascending, fun other member outside => absurd member outside,
      remaining_bind grown.grows inside missing notPending ⟨value, done.2⟩⟩
  · refine Yields.pure ⟨.refl valid, ?_, ?_, remaining_enter inside missing notPending⟩
    · refine List.pairwise_cons.mpr ⟨fun other member => ?_, ascending⟩
      rcases List.mem_cons.mp member with rfl | behind
      · exact older
      · exact Nat.lt_trans older ((List.pairwise_cons.mp ascending).1 other behind)
    · exact fun other member outside => absurd (List.mem_cons_of_mem _ member) outside

theorem yields_finish {statement : Statement} {place : Ssa.Location}
    (orderly : setting.form.Orderly) (valid : before.store.Valid)
    (ascending : (var :: pending).Pairwise (· < ·))
    (defined : setting.form.definition? var = some statement)
    (placed : setting.form.statement? place = some statement)
    (waits : waitsFor? before.store (var :: pending) statement = none) :
    Yields (do
        let _ ← evaluateStatement setting.policy settled statement
        let _ ← placeholder var
        pure pending) before fun rest after =>
      Stepped setting cut before after (var :: pending) rest := by
  have bound : statement.isPhi = false → ∀ used ∈ statement.usedVars,
      ∃ value, before.store.valueOf? used = some value := by
    intro machine used reads
    have older := older_of_definition orderly defined machine reads
    exact bound_of_waitsFor?_none waits machine reads (notMem_of_older ascending older)
  have readingOrderly : (setting.reading cut).form.Orderly := orderly
  have evaluates := yields_evaluateStatement readingOrderly placed (resolver_settled _) valid bound
  refine Yields.bind evaluates fun _ first evaluated => ?_
  have stands := yields_placeholder (setting.reading cut) evaluated.next.valid var
    fun _ sound missing => sound.denotes_unexpressed orderly defined
      fun isOutput trees agrees => evaluated.unexpressed isOutput missing agrees
  refine Yields.bind stands fun value last done => Yields.pure ?_
  exact .leave (evaluated.next.trans done.1) ascending ⟨value, done.2⟩

theorem yields_walkStep (cut : VarId → Prop) (orderly : setting.form.Orderly) (valid : before.store.Valid)
    (binds : before.store.BindsCounters setting.form)
    (ascending : (var :: pending).Pairwise (· < ·)) :
    Yields (walkStep setting (var :: pending)) before fun rest after =>
      Stepped setting cut before after (var :: pending) rest := by
  refine Yields.bind_ask ?_
  split
  · rename_i bound
    exact Yields.pure (.leave (.refl valid) ascending (Store.isBound_iff.mp bound))
  · cases defined : setting.form.definition? var with
    | none =>
        refine Yields.bind (yields_report (setting.reading cut) valid _) ?_
        intro _ first reported
        obtain ⟨next, sameStore, _⟩ := reported
        have stands := yields_placeholder (setting.reading cut) next.valid var
          fun _ _ missing => denotes_undefined defined binds (sameStore ▸ missing)
        refine Yields.bind stands fun value last done => Yields.pure ?_
        exact .leave (next.trans done.1) ascending ⟨value, done.2⟩
    | some statement =>
        obtain ⟨place, placed⟩ := Ssa.Form.exists_place_of_definition? defined
        refine Yields.bind_ask ?_
        cases waits : waitsFor? before.store (var :: pending) statement with
        | some input => exact yields_enter orderly valid ascending defined placed waits
        | none => exact yields_finish orderly valid ascending defined placed waits

theorem yields_walk (cut : VarId → Prop) (orderly : setting.form.Orderly) (steps : Nat)
    (valid : before.store.Valid)
    (binds : before.store.BindsCounters setting.form) (ascending : pending.Pairwise (· < ·))
    (enough : remaining setting.form before.store pending ≤ steps) :
    Yields (walk setting steps pending) before fun _ after =>
      Next (setting.reading cut) before after ∧
        ∀ var ∈ pending, ∃ value, after.store.valueOf? var = some value := by
  induction steps generalizing before pending with
  | zero =>
      cases pending with
      | nil => exact Yields.pure ⟨.refl valid, by simp⟩
      | cons var pending =>
          simp only [remaining, List.length_cons] at enough
          omega
  | succ steps ih =>
      cases pending with
      | nil => exact Yields.pure ⟨.refl valid, by simp⟩
      | cons var pending =>
          refine Yields.bind (yields_walkStep cut orderly valid binds ascending) ?_
          intro rest middle stepped
          have fewer : remaining setting.form middle.store rest ≤ steps :=
            Nat.le_of_lt_succ (Nat.lt_of_lt_of_le stepped.progress enough)
          refine (ih stepped.next.valid (stepped.next.grows.bindsCounters binds)
            stepped.ascending fewer).imp ?_
          intro _ last finished
          refine ⟨stepped.next.trans finished.1, fun other member => ?_⟩
          by_cases inRest : other ∈ rest
          · exact finished.2 other inRest
          · obtain ⟨value, found⟩ := stepped.left other member inRest
            exact ⟨value, finished.1.grows.values found⟩

/-- A variable can always be resolved, once the program-counter reads are bound. -/
theorem resolver_resolveVar (orderly : setting.form.Orderly) (cut : VarId → Prop) :
    Resolver (setting.reading cut) (resolveVar setting) fun _ progress =>
      progress.store.BindsCounters setting.form where
  stable := fun binds grows => grows.bindsCounters binds
  resolves := fun {var before} valid binds => by
    refine Yields.bind_ask ?_
    cases found : before.store.valueOf? var with
    | some bound => exact Yields.pure ⟨.refl valid, found⟩
    | none =>
        have few : (openVars setting.form before.store [var]).card ≤ setting.form.vars.size :=
          (Finset.card_filter_le _ _).trans_eq (Finset.card_range _)
        have enough : remaining setting.form before.store [var] ≤
            2 * (setting.form.vars.size + 1) := by
          simp only [remaining, List.length_singleton]
          omega
        refine Yields.bind (yields_walk cut orderly _ valid binds
          (List.pairwise_singleton _ var) enough) ?_
        intro _ middle finished
        obtain ⟨value, known⟩ := finished.2 var List.mem_cons_self
        refine (yields_placeholder (setting.reading cut) finished.1.valid var
          fun _ _ missing => ?_).imp fun _ _ done => ⟨finished.1.trans done.1, done.2⟩
        rw [known] at missing
        cases missing

end Walks

end Evaluation

end SymbolicFlow

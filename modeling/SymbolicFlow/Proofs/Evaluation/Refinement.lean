import SymbolicFlow.Analysis
import SymbolicFlow.Proofs.Evaluation.Walk
import SymbolicFlow.Proofs.Ssa.Orderly

/-!
# Sessions refine the recursion

A session can be asked to evaluate statements, to find the value at a position of a statement and
to find the value of a variable, in any order.  Whatever it was asked, a bound variable has the
expression that the plain recursion over definitions gives it, unless a variable was cut off for
lying too deep.
-/

set_option autoImplicit false

namespace SymbolicFlow

open Ssa (Statement Location)

inductive Request where
  | evaluate (place : Location)
  | operand (place : Location) (position : Nat)
  | resolve (var : VarId)
  deriving DecidableEq, Inhabited

namespace Session

/-- The session after a request; a request for a place without a statement changes nothing. -/
def serve (session : Session) : Request → Session
  | .evaluate place =>
      match session.subject.form.statement? place with
      | none => session
      | some statement => (session.evaluate statement).2
  | .operand place position =>
      match session.subject.form.statement? place with
      | none => session
      | some statement => (session.resolveOperand statement position).2
  | .resolve var => (session.resolveVar var).2

def reached (procedure : Procedure) (policy : Policy) (requests : List Request) : Session :=
  requests.foldl serve (start (.ofProcedure procedure) policy)

/-! ## The start -/

theorem denotes_counterRead {reading : Ssa.Reading} (orderly : reading.form.Orderly)
    {var : VarId} {address : UInt64} (read : reading.form.counterRead? var = some address) :
    reading.Denotes var (.immediate address.toInt64 false) := by
  have shape : reading.form.definitionTree reading.policy
      (reading.form.expression reading.policy) var = .immediate address.toInt64 false := by
    rw [Ssa.Form.definitionTree, read]
  exact shape ▸ .unfold fun used _ => orderly.denotes_expression used

theorem counterRead?_of_append {form : Ssa.Form} {done rest : List (VarId × UInt64)}
    {var : VarId} {address : UInt64}
    (all : form.counterReads.toList = done ++ (var, address) :: rest)
    (new : ∀ pair ∈ done, pair.1 ≠ var) : form.counterRead? var = some address := by
  have missing : done.find? (·.1 = var) = none := by simpa using new
  rw [Ssa.Form.counterRead?, ← Array.find?_toList, all, List.find?_append, missing]
  simp

theorem next_seed {reading : Ssa.Reading} (orderly : reading.form.Orderly) {store : Store}
    (valid : store.Valid) {var : VarId} {address : UInt64}
    (read : store.valueOf? var = none → reading.form.counterRead? var = some address) :
    Evaluation.Yields (Evaluation.immediate address.toInt64 >>= Evaluation.bind var) ⟨store, #[]⟩
      fun value after =>
        Next reading ⟨store, #[]⟩ after ∧ after.store.valueOf? var = some value := by
  refine Evaluation.Yields.bind
    (Evaluation.yields_alloc reading valid (.immediate _) false (by simp [Shape.children])) ?_
  intro value middle allocated
  obtain ⟨next, inside, tree⟩ := allocated
  refine (Evaluation.yields_bind reading next.valid inside ?_).imp
    fun _ _ done => ⟨next.trans done.1, done.2⟩
  intro _ _ missing
  have unbound : store.valueOf? var = none := by
    cases found : store.valueOf? var with
    | none => rfl
    | some bound =>
        rw [next.grows.values found] at missing
        cases missing
  rw [tree]
  exact denotes_counterRead orderly (read unbound)

theorem seeded_foldl {reading : Ssa.Reading} (orderly : reading.form.Orderly)
    (rest : List (VarId × UInt64)) {done : List (VarId × UInt64)}
    (all : reading.form.counterReads.toList = done ++ rest)
    {store : Store} (valid : store.Valid) (sound : store.Sound reading)
    (bound : ∀ pair ∈ done, ∃ value, store.valueOf? pair.1 = some value) :
    let final := rest.foldl
      (fun store (var, address) =>
        let (value, allocated) := store.immediate address.toInt64
        (allocated.bind var value).2) store
    final.Valid ∧ final.Sound reading ∧
      ∀ pair ∈ reading.form.counterReads, ∃ value, final.valueOf? pair.1 = some value := by
  induction rest generalizing done store with
  | nil =>
      refine ⟨valid, sound, fun pair member => bound pair ?_⟩
      rw [List.append_nil] at all
      exact all ▸ Array.mem_toList_iff.mpr member
  | cons pair rest ih =>
      obtain ⟨var, address⟩ := pair
      have read : store.valueOf? var = none → reading.form.counterRead? var = some address := by
        intro missing
        refine counterRead?_of_append all fun pair member same => ?_
        obtain ⟨value, found⟩ := bound pair member
        rw [same, missing] at found
        cases found
      obtain ⟨next, found⟩ := next_seed orderly valid read
      have quiet : Progress.CutsIn
          ((Evaluation.immediate address.toInt64 >>= Evaluation.bind var) ⟨store, #[]⟩).2 reading :=
        fun cut limit member => absurd member (Array.not_mem_empty _)
      have moved : reading.form.counterReads.toList = (done ++ [(var, address)]) ++ rest := by
        rw [all, List.append_assoc, List.singleton_append]
      refine ih moved next.valid (next.sound quiet sound) ?_
      intro pair member
      rcases List.mem_append.mp member with old | last
      · obtain ⟨value, known⟩ := bound pair old
        exact ⟨value, next.grows.values known⟩
      · rw [List.mem_singleton.mp last]
        exact ⟨_, found⟩

theorem seeded_start {reading : Ssa.Reading} (orderly : reading.form.Orderly) :
    (seed reading.form.counterReads).Valid ∧ (seed reading.form.counterReads).Sound reading ∧
      (seed reading.form.counterReads).BindsCounters reading.form := by
  have noValue : ∀ var, Store.empty.valueOf? var = none := by
    simp [Store.empty, Store.valueOf?]
  have valid : Store.empty.Valid :=
    ⟨fun found => by simp [noValue] at found, fun found => by simp [Store.empty] at found⟩
  have sound : Store.empty.Sound reading := fun var value found => by simp [noValue] at found
  rw [seed, ← Array.foldl_toList]
  obtain ⟨finalValid, finalSound, bound⟩ := seeded_foldl orderly _ (List.nil_append _).symm valid
    sound (by simp)
  refine ⟨finalValid, finalSound, fun var next read => ?_⟩
  exact bound (var, next) (Ssa.Form.mem_counterReads_of_counterRead? read)

/-! ## Requests -/

theorem serve_subject (session : Session) (request : Request) :
    (session.serve request).subject = session.subject ∧
      (session.serve request).policy = session.policy := by
  cases request with
  | evaluate place =>
      rw [serve]
      split
      · exact ⟨rfl, rfl⟩
      · exact ⟨rfl, rfl⟩
  | operand place position =>
      rw [serve]
      split
      · exact ⟨rfl, rfl⟩
      · exact ⟨rfl, rfl⟩
  | resolve var => exact ⟨rfl, rfl⟩

theorem next_serve {session : Session} (orderly : session.subject.form.Orderly)
    (valid : session.store.Valid) (binds : session.store.BindsCounters session.subject.form)
    (cut : VarId → Prop) (request : Request) :
    Next (session.setting.reading cut) session.progress (session.serve request).progress ∧
      ∀ var, request = .resolve var → ∃ value, (session.serve request).store.valueOf? var =
        some value := by
  have readingOrderly : (session.setting.reading cut).form.Orderly := orderly
  have settingOrderly : session.setting.form.Orderly := orderly
  have resolver := Evaluation.resolver_resolveVar settingOrderly cut
  cases request with
  | evaluate place =>
      refine ⟨?_, by simp⟩
      rw [serve]
      cases placed : session.subject.form.statement? place with
      | none => exact .refl valid
      | some statement =>
          exact (Evaluation.yields_evaluateStatement readingOrderly placed resolver valid
            fun _ _ _ => binds).next
  | operand place position =>
      refine ⟨?_, by simp⟩
      rw [serve]
      cases session.subject.form.statement? place with
      | none => exact .refl valid
      | some statement =>
          exact (Evaluation.yields_resolveOperand resolver valid (fun _ _ => binds) position).next
  | resolve var =>
      obtain ⟨next, found⟩ := resolver.resolves valid binds
      refine ⟨next, fun other same => ?_⟩
      cases same
      exact ⟨_, found⟩

theorem next_foldl (requests : List Request) {session : Session}
    (orderly : session.subject.form.Orderly) (valid : session.store.Valid)
    (binds : session.store.BindsCounters session.subject.form) (cut : VarId → Prop) :
    Next (session.setting.reading cut) session.progress (requests.foldl serve session).progress ∧
      ∀ var, Request.resolve var ∈ requests →
        ∃ value, (requests.foldl serve session).store.valueOf? var = some value := by
  induction requests generalizing session with
  | nil => exact ⟨.refl valid, by simp⟩
  | cons request requests ih =>
      obtain ⟨next, answered⟩ := next_serve orderly valid binds cut request
      obtain ⟨subject, policy⟩ := session.serve_subject request
      have sameSetting : (session.serve request).setting = session.setting := by
        rw [setting, setting, subject, policy]
      obtain ⟨rest, others⟩ := ih (subject ▸ orderly) next.valid
        (subject.symm ▸ next.grows.bindsCounters binds)
      rw [sameSetting] at rest
      refine ⟨next.trans rest, fun var member => ?_⟩
      rcases List.mem_cons.mp member with here | later
      · obtain ⟨value, found⟩ := answered var here.symm
        exact ⟨value, rest.grows.values found⟩
      · exact others var later

theorem reached_sound {procedure : Procedure} (wellFormed : procedure.WellFormed) (policy : Policy)
    (cut : VarId → Prop) (requests : List Request) :
    (∀ var, Request.resolve var ∈ requests →
      ∃ value, (reached procedure policy requests).store.valueOf? var = some value) ∧
    ((reached procedure policy requests).progress.CutsIn ⟨procedure.ssa, policy, cut⟩ →
      (reached procedure policy requests).store.Sound ⟨procedure.ssa, policy, cut⟩) := by
  have orderly := Ssa.orderly_ssa wellFormed
  have readingOrderly : (Ssa.Reading.mk procedure.ssa policy cut).form.Orderly := orderly
  have startOrderly : (start (.ofProcedure procedure) policy).subject.form.Orderly := orderly
  obtain ⟨valid, sound, binds⟩ := seeded_start readingOrderly
  have run := next_foldl requests startOrderly valid binds cut
  exact ⟨run.2, fun cuts => run.1.sound cuts sound⟩

/-- Which request comes first does not matter: the recursion over definitions has exactly one
solution, and every bound variable has the expression that it gives. -/
theorem reached_refines_recursion {procedure : Procedure} (built : procedure.Built)
    (policy : Policy) :
    ∃ trees : VarId → Tree, procedure.ssa.Unfolds policy trees ∧
      (∀ others, procedure.ssa.Unfolds policy others → others = trees) ∧
      ∀ requests : List Request,
        (∀ var, Request.resolve var ∈ requests →
          ∃ value, (reached procedure policy requests).store.valueOf? var = some value) ∧
        ((∀ var limit, Event.tooDeep var limit ∉
            (reached procedure policy requests).progress.events) →
          ∀ var value, (reached procedure policy requests).store.valueOf? var = some value →
            Arena.tree (reached procedure policy requests).store.arena value = trees var) := by
  have wellFormed := built.wellFormed
  have orderly := Ssa.orderly_ssa wellFormed
  have unfolds := orderly.unfolds_expression policy
  refine ⟨procedure.ssa.expression policy, unfolds,
    fun others othersUnfold => orderly.unfolds_unique othersUnfold unfolds, fun requests => ?_⟩
  obtain ⟨answered, sound⟩ := reached_sound wellFormed policy (fun _ => False) requests
  refine ⟨answered, fun quiet var value found => ?_⟩
  have denotes := sound (fun cut limit member => quiet cut limit member) var value found
  exact denotes.eq_of_unfolds (fun _ => id) unfolds

theorem reached_refines_recursion_countdown :
    Countdown.procedure.Built ∧ ∃ trees : VarId → Tree, Countdown.procedure.ssa.Unfolds {} trees ∧
      ∃ value, (reached Countdown.procedure {} [.evaluate ⟨1, 3⟩, .resolve 7]).store.valueOf? 7 =
        some value ∧
      Arena.tree (reached Countdown.procedure {} [.evaluate ⟨1, 3⟩, .resolve 7]).store.arena value =
        trees 7 := by
  obtain ⟨trees, unfolds, _, runs⟩ := reached_refines_recursion Countdown.built {}
  obtain ⟨answered, refines⟩ := runs [.evaluate ⟨1, 3⟩, .resolve 7]
  obtain ⟨value, found⟩ := answered 7 (by decide)
  have shallow : ∀ event ∈ (reached Countdown.procedure {} [.evaluate ⟨1, 3⟩,
      .resolve 7]).progress.events, (event matches .evaluating _) = true := by
    decide +kernel
  have quiet : ∀ var limit, Event.tooDeep var limit ∉ (reached Countdown.procedure {}
      [.evaluate ⟨1, 3⟩, .resolve 7]).progress.events := by
    intro var limit member
    cases shallow _ member
  exact ⟨Countdown.built, trees, unfolds, value, found, refines quiet 7 value found⟩

end Session

end SymbolicFlow

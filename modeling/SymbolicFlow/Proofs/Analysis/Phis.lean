import SymbolicFlow.Proofs.Analysis.Lasting
import SymbolicFlow.Proofs.Ssa.Phis

/-!
# Phis in an analysis

A phi merges what arrives in at least two ways, so it is never taken for a copy: evaluating it
resolves none of its sources and binds its output to a placeholder.  Since no other statement has
this output, it is bound to nothing else in all that an analysis does.
-/

set_option autoImplicit false

namespace SymbolicFlow

open Ssa (Statement)

/-- Evaluating the phi leaves its sources alone. -/
structure Ssa.Statement.NeverCopies (phi : Statement) : Prop where
  evaluated : ∀ (policy : Policy) (resolve : VarId → Evaluation ValueId),
    Evaluation.evaluateStatement policy resolve phi = Evaluation.placeholderOutput phi
  waits : ∀ (store : Store) (pending : List VarId), Evaluation.waitsFor? store pending phi = none

def Ssa.Form.IsMerged (form : Ssa.Form) (var : VarId) : Prop :=
  ∃ place phi, form.statement? place = some phi ∧ phi.isPhi = true ∧ var ∈ phi.outputs

/-- What phis define is bound to itself, if at all. -/
def Store.LeavesMerged (store : Store) (form : Ssa.Form) : Prop :=
  ∀ var, form.IsMerged var → ∀ value, store.valueOf? var = some value →
    store.node? value = some ⟨.register var, false⟩

/-! ## Evaluating a phi -/

namespace Evaluation

variable {phi : Statement}

theorem ask_bind {α β : Type} (question : Store → α) (continuation : α → Evaluation β)
    (before : Progress) :
    (ask question >>= continuation) before = continuation (question before.store) before :=
  rfl

theorem evaluatePhi_eq_placeholderOutput (several : 2 ≤ phi.usedVars.length)
    (resolve : VarId → Evaluation ValueId) : evaluatePhi resolve phi = placeholderOutput phi := by
  rw [evaluatePhi, placeholderOutput]
  cases phi.output? with
  | none => rfl
  | some output =>
      funext before
      have placed : (some output).mapM placeholder before =
          (some (placeholder output before).1, (placeholder output before).2) := rfl
      rw [placed]
      dsimp only
      rw [ask_bind]
      cases found : before.store.valueOf? output with
      | some bound =>
          rw [placeholder_of_bound found]
          rfl
      | none =>
          cases sources : phi.usedVars with
          | nil => rfl
          | cons source others =>
              cases others with
              | nil => simp [sources] at several
              | cons second others => rfl

theorem neverCopies_of_several (isPhi : phi.isPhi = true) (several : 2 ≤ phi.usedVars.length) :
    phi.NeverCopies := by
  have noInstruction : phi.instruction = none := by simpa [Statement.isPhi] using isPhi
  refine ⟨?_, ?_⟩
  · intro policy resolve
    rw [evaluateStatement, noInstruction]
    exact evaluatePhi_eq_placeholderOutput several resolve
  · intro store pending
    simp only [waitsFor?, noInstruction]
    split
    · rename_i source single
      simp [single] at several
    · rfl

end Evaluation

/-! ## Stores that leave merged variables alone -/

namespace Store

variable {store : Store}

theorem valueOf?_placeholder_cases {var other : VarId} {value : ValueId}
    (found : (store.placeholder var).2.valueOf? other = some value) :
    store.valueOf? other = some value ∨
      other = var ∧ (store.placeholder var).2.node? value = some ⟨.register var, false⟩ := by
  rw [placeholder] at found ⊢
  split at found
  · exact Or.inl found
  · rcases valueOf?_bind_cases found with old | ⟨_, rfl, rfl⟩
    · exact Or.inl old
    · have sameArena := arena_bind (store.register other).2 other (store.register other).1
      refine Or.inr ⟨rfl, ?_⟩
      exact (congrArg (·[store.arena.size]?) sameArena).trans Array.getElem?_push_size

theorem lasting_leavesMerged (form : Ssa.Form) :
    Lasting (fun var => ¬ form.IsMerged var) (·.LeavesMerged form) := by
  refine ⟨?_, ?_, ?_⟩
  · intro store node leaves var merged value bound
    exact (store.extends_alloc node).node? (leaves var merged value bound)
  · intro store var notMerged value leaves other merged bound found
    rcases valueOf?_bind_cases found with old | ⟨_, rfl, _⟩
    · rw [node?, arena_bind]
      exact leaves other merged bound old
    · exact absurd merged notMerged
  · intro store var leaves other merged value found
    rcases valueOf?_placeholder_cases found with old | ⟨rfl, isNode⟩
    · have grows := Evaluation.extends_placeholder { store } var
      exact grows.node? (leaves other merged value old)
    · exact isNode

end Store

/-! ## Forms of procedures -/

namespace Ssa

variable {procedure : Procedure}

theorem givesOnly_notMerged (wellFormed : procedure.WellFormed) :
    procedure.ssa.GivesOnly fun var => ¬ procedure.ssa.IsMerged var := by
  obtain ⟨phis, exits, naming, construction⟩ := exists_construction wellFormed
  intro place statement placed var receives merged
  obtain ⟨other, phi, found, isPhi, output⟩ := merged
  have first : var ∈ statement.outputs := List.mem_of_head? receives.1
  -- A variable has one place, so the statement is the phi itself, and that is no copy.
  cases construction.onePlace placed first found output
  cases placed.symm.trans found
  obtain ⟨source, single⟩ := receives.2 isPhi
  exact construction.usedVars_ne_singleton wellFormed found isPhi source single

theorem notMerged_of_counterRead (wellFormed : procedure.WellFormed) {read : VarId × UInt64}
    (listed : read ∈ procedure.ssa.counterReads) : ¬ procedure.ssa.IsMerged read.1 := by
  obtain ⟨phis, exits, naming, construction⟩ := exists_construction wellFormed
  intro merged
  obtain ⟨place, phi, found, _, output⟩ := merged
  rw [construction.counterReads] at listed
  obtain ⟨version, known⟩ := construction.valid.counterFound listed
  obtain ⟨named, alsoKnown, defined⟩ := construction.defined.mpr ⟨phi, found, output⟩
  cases known.symm.trans alsoKnown
  cases defined

end Ssa

/-- Every phi has a slot for each way into its block and merges at least two of them, so it is no
copy; and whatever a client brings about, is shown or asks for at the end, what phis define is bound
to itself if it is bound. -/
theorem phis_merge_and_stay {procedure : Procedure} (built : procedure.Built) :
    (∀ {place : Ssa.Location} {phi : Statement}, procedure.ssa.statement? place = some phi →
      phi.isPhi = true → procedure.Merges place.block phi ∧ phi.NeverCopies) ∧
    ∀ {σ : Type} (client : Client σ), client.Always procedure (·.LeavesMerged procedure.ssa) := by
  have wellFormed := built.wellFormed
  refine ⟨?_, ?_⟩
  · intro place phi found isPhi
    have merges := Ssa.merges_ssa wellFormed found isPhi
    exact ⟨merges, Evaluation.neverCopies_of_several isPhi merges.several⟩
  · intro σ client
    have lasting := Store.lasting_leavesMerged procedure.ssa
    apply Client.always_of_lasting client wellFormed lasting (Ssa.givesOnly_notMerged wellFormed)
    apply lasting.seed fun read => Ssa.notMerged_of_counterRead wellFormed
    intro var _ value bound
    simp [Store.empty, Store.valueOf?] at bound

/-- The phi behind a doubled edge, with an empty slot for the block that is out of reach. -/
def Crossroads.joined : Statement :=
  .phi 1 [some 8, some 8, some 3, none]

theorem phis_merge_and_stay_crossroads :
    Crossroads.procedure.Built ∧
      Crossroads.procedure.ssa.statement? ⟨3, 0⟩ = some Crossroads.joined ∧
      Crossroads.procedure.Merges 3 Crossroads.joined ∧ Crossroads.joined.NeverCopies ∧
      ∃ value, (Client.idle.analyse Crossroads.procedure).1.store.valueOf? 1 = some value ∧
        (Client.idle.analyse Crossroads.procedure).1.store.node? value =
          some ⟨.register 1, false⟩ := by
  obtain ⟨merge, always⟩ := phis_merge_and_stay Crossroads.built
  have found : Crossroads.procedure.ssa.statement? ⟨3, 0⟩ = some Crossroads.joined := by
    decide +kernel
  have bound : (Client.idle.analyse Crossroads.procedure).1.store.valueOf? 1 = some 7 := by
    decide +kernel
  obtain ⟨merges, neverCopies⟩ := merge found rfl
  have isMerged : Crossroads.procedure.ssa.IsMerged 1 :=
    ⟨_, _, found, rfl, List.mem_singleton_self 1⟩
  exact ⟨Crossroads.built, found, merges, neverCopies, 7, bound,
    (always Client.idle).finished [] 1 isMerged 7 bound⟩

end SymbolicFlow

import Mathlib

/-! Runs of a transition system. A run may be confined to the steps whose state and label meet a condition `ok`. -/

namespace Moxide.Lib

/-- The states that runs from `s₀` reach when each step meets `ok`. -/
inductive Reach {σ ι : Type} (step : σ → ι → σ → Prop) (ok : σ → ι → Prop) (s₀ : σ) : σ → Prop where
  | start : Reach step ok s₀ s₀
  | step {s t : σ} (i : ι) (h : Reach step ok s₀ s) (hok : ok s i) (hs : step s i t) : Reach step ok s₀ t

namespace Reach
variable {σ ι : Type} {step : σ → ι → σ → Prop} {ok : σ → ι → Prop} {s₀ s : σ}

/-- What holds initially and is kept by every step that meets the condition holds in every state reached. -/
theorem invariant {I : σ → Prop} (h0 : I s₀) (hstep : ∀ s i t, I s → ok s i → step s i t → I t)
    (h : Reach step ok s₀ s) : I s := by
  induction h with
  | start => exact h0
  | step i _ hok hs ih => exact hstep _ i _ ih hok hs

theorem mono {ok' : σ → ι → Prop} (himp : ∀ s i, ok s i → ok' s i) (h : Reach step ok s₀ s) : Reach step ok' s₀ s := by
  induction h with
  | start => exact .start
  | step i _ hok hs ih => exact .step i ih (himp _ i hok) hs

/-- A run of a step function: each label must meet `ok` and have a successor. -/
def run (f : σ → ι → Option σ) (ok : σ → ι → Bool) : σ → List ι → Option σ
  | s, [] => some s
  | s, i :: is =>
    if ok s i then
      match f s i with
      | some t => run f ok t is
      | none => none
    else none

theorem of_run {f : σ → ι → Option σ} {ok : σ → ι → Bool} (is : List ι) :
    ∀ {s t : σ}, Reach (fun s i t => f s i = some t) (fun s i => ok s i) s₀ s →
      run f ok s is = some t → Reach (fun s i t => f s i = some t) (fun s i => ok s i) s₀ t := by
  induction is with
  | nil =>
    intro s t hs hrun
    cases hrun
    exact hs
  | cons i is ih =>
    intro s t hs hrun
    unfold run at hrun
    split at hrun
    · rename_i hok
      split at hrun
      · rename_i u hu
        exact ih (.step i hs hok hu) hrun
      · cases hrun
    · cases hrun

section
variable {f : σ → ι → Option σ} {ok : σ → ι → Bool} {is : List ι} {A B : σ → Prop} [DecidablePred A]

/-- The last state of a run, with what is computed of it and what follows for a state that is reached. -/
theorem exists_run_and (h : (run f ok s₀ is).any (A ·))
    (hB : ∀ s, Reach (fun s i t => f s i = some t) (fun s i => ok s i) s₀ s → A s → B s) :
    ∃ s, run f ok s₀ is = some s ∧ B s := by
  obtain ⟨s, hs, hA⟩ := (Option.any_eq_true _ _).mp h
  exact ⟨s, hs, hB s (of_run is .start hs) (of_decide_eq_true hA)⟩

theorem exists_run (h : (run f ok s₀ is).any (A ·)) : ∃ s, run f ok s₀ is = some s ∧ A s :=
  exists_run_and h fun _ _ hA => hA

end

end Reach

end Moxide.Lib

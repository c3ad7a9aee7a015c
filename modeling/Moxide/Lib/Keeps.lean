import Mathlib

/-! What programs with a state and errors keep. An error leaves the state as it is by then. -/

namespace Moxide.Lib

variable {ε σ α β : Type}

/-- Ask for a value that the state has; the state stays. -/
def ask (f : σ → Except ε α) : EStateM ε σ α := fun s =>
  match f s with
  | .ok a => .ok a s
  | .error e => .error e s

/-- The state after a program, whether it fails or not. -/
def stateAfter (m : EStateM ε σ α) (s : σ) : σ :=
  match m s with
  | .ok _ t => t
  | .error _ t => t

def Keeps (R : σ → σ → Prop) (m : EStateM ε σ α) : Prop := ∀ s, R s (stateAfter m s)

def Yields (P : α → Prop) (m : EStateM ε σ α) : Prop := ∀ s a t, m s = .ok a t → P a

namespace Yields
variable {P : β → Prop}

theorem pure {b : β} (h : P b) : Yields P (Pure.pure b : EStateM ε σ β) := by
  rintro s a t ⟨⟩
  exact h

theorem throw (e : ε) : Yields P (throw e : EStateM ε σ β) := by
  rintro s a t ⟨⟩

theorem bind (m : EStateM ε σ α) {f : α → EStateM ε σ β} (hf : ∀ a, Yields P (f a)) : Yields P (m >>= f) := by
  intro s b t hrun
  simp only [Bind.bind, EStateM.bind] at hrun
  cases hm : m s with
  | ok a u =>
    rw [hm] at hrun
    exact hf a u b t hrun
  | error e u =>
    rw [hm] at hrun
    cases hrun

theorem tryCatch {m : EStateM ε σ β} (hm : Yields P m) {f : ε → EStateM ε σ β} (hf : ∀ e, Yields P (f e)) :
    Yields P (tryCatch m f) := by
  intro s b t hrun
  simp only [MonadExcept.tryCatch, tryCatchThe, MonadExceptOf.tryCatch, EStateM.tryCatch] at hrun
  cases hfirst : m s with
  | ok a u =>
    rw [hfirst] at hrun
    cases hrun
    exact hm s _ _ hfirst
  | error e u =>
    rw [hfirst] at hrun
    exact hf e u b t hrun

end Yields

namespace Keeps
variable {R : σ → σ → Prop} {m : EStateM ε σ α}

theorem pure (hrefl : ∀ s, R s s) (a : α) : Keeps R (Pure.pure a : EStateM ε σ α) := hrefl

theorem throw (hrefl : ∀ s, R s s) (e : ε) : Keeps R (throw e : EStateM ε σ α) := hrefl

theorem ask (hrefl : ∀ s, R s s) (f : σ → Except ε α) : Keeps R (Lib.ask f) := by
  intro s
  rw [stateAfter, Lib.ask]
  cases f s with
  | ok a => exact hrefl s
  | error e => exact hrefl s

/-- The second program need only keep the relation for what the first can return. -/
theorem bind (htrans : ∀ s t u, R s t → R t u → R s u) (hm : Keeps R m) {P : α → Prop} (hP : Yields P m)
    {f : α → EStateM ε σ β} (hf : ∀ a, P a → Keeps R (f a)) : Keeps R (m >>= f) := by
  intro s
  have hfirst := hm s
  simp only [stateAfter, Bind.bind, EStateM.bind] at hfirst ⊢
  cases hrun : m s with
  | ok a t =>
    rw [hrun] at hfirst
    exact htrans _ _ _ hfirst (hf a (hP s a t hrun) t)
  | error e t =>
    rw [hrun] at hfirst
    exact hfirst

theorem tryCatch (htrans : ∀ s t u, R s t → R t u → R s u) (hm : Keeps R m) {f : ε → EStateM ε σ α}
    (hf : ∀ e, Keeps R (f e)) : Keeps R (tryCatch m f) := by
  intro s
  have hfirst := hm s
  simp only [stateAfter, MonadExcept.tryCatch, tryCatchThe, MonadExceptOf.tryCatch, EStateM.tryCatch] at hfirst ⊢
  cases hrun : m s with
  | ok a t =>
    rw [hrun] at hfirst
    exact hfirst
  | error e t =>
    rw [hrun] at hfirst
    exact htrans _ _ _ hfirst (hf e t)

end Keeps

end Moxide.Lib

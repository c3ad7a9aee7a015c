import Moxide.User

/-! Copies to and from user memory: what is written can be read back, and writes side by side are one write. -/

namespace Moxide.User
open List Option

/-- Every byte of the range is mapped. -/
def Mapped (m : Mem) (dst len : Nat) : Prop := ∀ a, dst ≤ a → a < dst + len → (m a).isSome

variable {m : Mem} {dst len : Nat} {bytes b₁ b₂ : List UInt8}

theorem Mapped.overlay (h : Mapped m dst len) (d : Nat) (bytes : List UInt8) : Mapped (overlay m d bytes) dst len := by
  intro a hlow hhigh
  have hm := h a hlow hhigh
  rw [User.overlay]
  split_ifs
  · cases bytes[a - d]? with
    | none => exact hm
    | some b => rfl
  · exact hm

theorem overlay_nil : overlay m dst [] = m := by
  funext a
  simp [overlay]

theorem overlay_append : overlay (overlay m dst b₁) (dst + b₁.length) b₂ = overlay m dst (b₁ ++ b₂) := by
  funext a
  by_cases hlow : dst ≤ a
  · by_cases hmid : dst + b₁.length ≤ a
    · have hnone : b₁[a - dst]? = none := getElem?_eq_none (by omega)
      have hsub : a - dst - b₁.length = a - (dst + b₁.length) := by omega
      simp only [overlay, if_pos hmid, if_pos hlow, hnone, none_or,
        getElem?_append_right (show b₁.length ≤ a - dst by omega), hsub]
    · have hlt : a - dst < b₁.length := by omega
      simp only [overlay, if_neg hmid, if_pos hlow, getElem?_append_left hlt]
  · have hmid : ¬ dst + b₁.length ≤ a := by omega
    simp only [overlay, if_neg hmid, if_neg hlow]

/-- A copy to a mapped range succeeds. -/
theorem copyToUser_mapped (hdst : dst ≠ 0) (hend : dst + bytes.length ≤ USER_SPACE_END) (h : Mapped m dst bytes.length) :
    copyToUser m dst bytes = some (overlay m dst bytes) := by
  rw [copyToUser]
  split_ifs with hlen hok
  · rw [length_eq_zero_iff.mp hlen, overlay_nil]
  · rfl
  refine absurd ?_ hok
  rw [validateUserPtr, userAccessOk, decide_eq_true hdst, decide_eq_true hend, Bool.and_self, Bool.true_and,
    List.all_eq_true]
  intro i hi
  exact h _ (Nat.le_add_right _ _) (Nat.add_lt_add_left (mem_range.mp hi) _)

theorem mapM_eq_some_iff {α β : Type} {f : α → Option β} {l : List α} {ys : List β} :
    l.mapM f = some ys ↔ l.map f = ys.map some := by
  induction l generalizing ys with
  | nil => cases ys <;> simp
  | cons x l ih =>
    cases ys with
    | nil => simp [mapM_cons, bind_eq_some_iff]
    | cons y ys => simp [mapM_cons, bind_eq_some_iff, ih]

/-- What is read is what stands there. -/
theorem copyFromUser_get (h : copyFromUser m dst len = some bytes) {i : Nat} (hi : i < len) : bytes[i]? = m (dst + i) := by
  rw [copyFromUser] at h
  split_ifs at h with hzero
  · omega
  have hget := congrArg (·[i]?) (mapM_eq_some_iff.mp h)
  rw [getElem?_map, getElem?_map, getElem?_range hi] at hget
  cases hb : bytes[i]? with
  | none =>
    rw [hb] at hget
    cases hget
  | some b =>
    rw [hb] at hget
    exact (some.inj hget).symm

variable (hdst : dst ≠ 0) (hend : dst + bytes.length ≤ USER_SPACE_END)
include hdst hend

theorem copyFromUser_eq (h : ∀ i < bytes.length, m (dst + i) = bytes[i]?) :
    copyFromUser m dst bytes.length = some bytes := by
  rw [copyFromUser]
  split_ifs with hlen hok
  · rw [length_eq_zero_iff.mp hlen]
  · rw [mapM_eq_some_iff]
    refine ext_getElem (by simp) fun i hi _ => ?_
    rw [length_map, length_range] at hi
    simp [h i hi, hi]
  · refine absurd ?_ hok
    rw [validateUserPtr, userAccessOk, decide_eq_true hdst, decide_eq_true hend, Bool.and_self]

/-- What was copied out is read back. -/
theorem copyFromUser_overlay : copyFromUser (overlay m dst bytes) dst bytes.length = some bytes := by
  refine copyFromUser_eq hdst hend fun i hi => ?_
  rw [overlay, if_pos (Nat.le_add_right _ _), Nat.add_sub_cancel_left, getElem?_eq_getElem hi, some_or]

end Moxide.User

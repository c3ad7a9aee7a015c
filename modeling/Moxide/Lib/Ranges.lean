import Mathlib

/-! Lists of ranges in order: each entry ends before the next one begins. An entry may be empty. -/

namespace Moxide.Lib
open List
variable {α β : Type}

structure Ranges [Preorder α] (lo hi : β → α) (l : List β) : Prop where
  le : ∀ v ∈ l, lo v ≤ hi v
  apart : l.Pairwise fun v w => hi v ≤ lo w

namespace Ranges

section Preorder
variable [Preorder α] {lo hi : β → α} {l : List β}

section
variable (h : Ranges lo hi l)
include h

theorem sorted : l.Pairwise fun v w => lo v ≤ lo w :=
  h.apart.imp_of_mem fun hv _ hvw => le_trans (h.le _ hv) hvw

theorem disjoint : l.Pairwise fun v w => ∀ x, ¬((lo v ≤ x ∧ x < hi v) ∧ lo w ≤ x ∧ x < hi w) :=
  h.apart.imp fun hvw _ hx => not_lt_of_ge (le_trans hvw hx.2.1) hx.1.2

theorem sublist {l' : List β} (hs : l'.Sublist l) : Ranges lo hi l' :=
  ⟨fun v hv => h.le v (hs.subset hv), h.apart.sublist hs⟩

theorem cons {v : β} (hv : lo v ≤ hi v) (hl : ∀ w ∈ l, hi v ≤ lo w) : Ranges lo hi (v :: l) :=
  ⟨forall_mem_cons.mpr ⟨hv, h.le⟩, pairwise_cons.mpr ⟨hl, h.apart⟩⟩

end

/-- A range fits between those that end before it and those that begin after it. -/
theorem insert {a b : List β} {v : β} (h : Ranges lo hi (a ++ b)) (hv : lo v ≤ hi v) (ha : ∀ w ∈ a, hi w ≤ lo v)
    (hb : ∀ w ∈ b, hi v ≤ lo w) : Ranges lo hi (a ++ v :: b) := by
  have hab := pairwise_append.mp h.apart
  have hvb := (h.sublist (sublist_append_right a b)).cons hv hb
  refine ⟨fun w hw => ?_, pairwise_append.mpr ⟨hab.1, hvb.apart, fun w hw u hu => ?_⟩⟩
  · rcases mem_append.mp hw with hw | hw
    · exact h.le w (mem_append_left _ hw)
    · exact hvb.le w hw
  · rcases mem_cons.mp hu with rfl | hu
    · exact ha w hw
    · exact hab.2.2 w hw u hu

theorem flatMap {f : β → List β} (h : Ranges lo hi l) (hf : ∀ v ∈ l, Ranges lo hi (f v))
    (hin : ∀ v ∈ l, ∀ w ∈ f v, lo v ≤ lo w ∧ hi w ≤ hi v) : Ranges lo hi (l.flatMap f) := by
  constructor
  · intro w hw
    obtain ⟨v, hv, hw⟩ := mem_flatMap.mp hw
    exact (hf v hv).le w hw
  · rw [pairwise_flatMap]
    refine ⟨fun v hv => (hf v hv).apart, h.apart.imp_of_mem fun hv hu hvu w hw x hx => ?_⟩
    exact le_trans (hin _ hv w hw).2 (le_trans hvu (hin _ hu x hx).1)

theorem map {f : β → β} (h : Ranges lo hi l) (hlo : ∀ v, lo (f v) = lo v) (hhi : ∀ v, hi (f v) = hi v) :
    Ranges lo hi (l.map f) := by
  rw [map_eq_flatMap]
  refine h.flatMap (fun v hv => ⟨?_, pairwise_singleton _ _⟩) ?_
  · simpa [hlo, hhi] using h.le v hv
  · simp [hlo, hhi]

end Preorder

theorem of_sorted [LinearOrder α] {lo hi : β → α} {l : List β} (hne : ∀ v ∈ l, lo v < hi v)
    (hs : l.Pairwise fun v w => lo v ≤ lo w)
    (hd : l.Pairwise fun v w => ∀ x, ¬((lo v ≤ x ∧ x < hi v) ∧ lo w ≤ x ∧ x < hi w)) : Ranges lo hi l := by
  refine ⟨fun v hv => le_of_lt (hne v hv), (hs.and hd).imp_of_mem fun {v w} _ hw hvw => ?_⟩
  rcases le_or_gt (hi v) (lo w) with hle | hlt
  · exact hle
  · exact absurd ⟨⟨hvw.1, hlt⟩, le_refl _, hne w hw⟩ (hvw.2 (lo w))

end Ranges

end Moxide.Lib

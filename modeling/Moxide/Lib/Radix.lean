import Mathlib

/-! Radix trees in memory. In a forest no two paths of at most `d` indices lead to the same node, so that a change in one
    entry is seen only by the paths through it. -/

namespace Moxide.Lib.Radix
open List Option
open Function (update update_of_ne update_self)
variable {F I E : Type} (next : E → Option F)

def walk (mem : F → I → E) : F → List I → Option F
  | t, [] => some t
  | t, i :: p => (next (mem t i)).bind fun u => walk mem u p

def Node (mem : F → I → E) (d : Nat) (R : F → Prop) (t : F) : Prop :=
  ∃ r p, R r ∧ p.length ≤ d ∧ walk next mem r p = some t

/-- Each node is met on one path from one root only. -/
def Forest (mem : F → I → E) (d : Nat) (R : F → Prop) : Prop :=
  ∀ {r r' p p' t}, R r → R r' → p.length ≤ d → p'.length ≤ d → walk next mem r p = some t →
    walk next mem r' p' = some t → r = r' ∧ p = p'

section Walks
variable {next} {mem mem' : F → I → E} {d : Nat} {R : F → Prop} {t r : F} {p q : List I}

theorem walk_append : walk next mem t (p ++ q) = (walk next mem t p).bind fun u => walk next mem u q := by
  induction p generalizing t with
  | nil => rfl
  | cons i p ih =>
    rw [cons_append, walk, walk, bind_assoc]
    congr 1
    funext u
    exact ih

theorem walk_snoc {i : I} : walk next mem t (p ++ [i]) = (walk next mem t p).bind fun u => next (mem u i) := by
  rw [walk_append]
  congr 1
  funext u
  cases h : next (mem u i) with
  | none => rw [walk, h, bind_none]
  | some w => rw [walk, h, bind_some, walk]

theorem walk_congr (h : ∀ q i q' u, p = q ++ i :: q' → walk next mem t q = some u → next (mem' u i) = next (mem u i)) :
    walk next mem' t p = walk next mem t p := by
  induction p generalizing t with
  | nil => rfl
  | cons i p ih =>
    rw [walk, walk, h [] i p t rfl rfl]
    cases hn : next (mem t i) with
    | none => rfl
    | some u =>
      refine ih fun q j q' w hp hw => h (i :: q) j q' w (by rw [hp, cons_append]) ?_
      rw [walk, hn]
      exact hw

theorem Forest.of_walk (hF : Forest next mem d R)
    (hwalk : ∀ {r p}, R r → p.length ≤ d → walk next mem' r p = walk next mem r p) : Forest next mem' d R := by
  intro r r' p p' t hr hr' hp hp' hw hw'
  rw [hwalk hr hp] at hw
  rw [hwalk hr' hp'] at hw'
  exact hF hr hr' hp hp' hw hw'

theorem node_of_walk (hwalk : ∀ {r p}, R r → p.length ≤ d → walk next mem' r p = walk next mem r p) :
    Node next mem' d R t ↔ Node next mem d R t := by
  constructor
  · rintro ⟨r, p, hr, hp, hw⟩
    exact ⟨r, p, hr, hp, by rw [← hwalk hr hp]; exact hw⟩
  · rintro ⟨r, p, hr, hp, hw⟩
    exact ⟨r, p, hr, hp, by rw [hwalk hr hp]; exact hw⟩

theorem walk_outside (hsame : ∀ t, Node next mem d R t → mem' t = mem t) (hr : R r) (hp : p.length ≤ d) :
    walk next mem' r p = walk next mem r p := by
  refine walk_congr fun q i q' u heq hu => ?_
  rw [hsame u ⟨r, q, hr, ?_, hu⟩]
  rw [heq, length_append] at hp
  omega

theorem Forest.outside (hF : Forest next mem d R) (hsame : ∀ t, Node next mem d R t → mem' t = mem t) :
    Forest next mem' d R :=
  hF.of_walk (walk_outside hsame)

theorem node_outside (hsame : ∀ t, Node next mem d R t → mem' t = mem t) : Node next mem' d R t ↔ Node next mem d R t :=
  node_of_walk (walk_outside hsame)

theorem walk_of_none {i : I} (hw : walk next mem r p = some t) (hnone : next (mem t i) = none) (q : List I) :
    walk next mem r (p ++ [i] ++ q) = none := by
  rw [walk_append, walk_snoc, hw, bind_some, hnone, bind_none]

theorem walk_bare (h : ∀ i, next (mem t i) = none) (hp : p ≠ []) : walk next mem t p = none := by
  cases p with
  | nil => exact absurd rfl hp
  | cons i p => rw [walk, h i, bind_none]

theorem not_append_isPrefix {i : I} : ¬p ++ [i] <+: p := by
  intro h
  have hlen := h.length_le
  rw [length_append, length_singleton] at hlen
  omega

/-- A node that is in no tree yet and leads nowhere. -/
structure Fresh (next : E → Option F) (mem : F → I → E) (d : Nat) (R : F → Prop) (f : F) : Prop where
  new : ¬Node next mem d R f
  bare : ∀ i, next (mem f i) = none

end Walks

section Roots
variable {next} {mem : F → I → E} {d : Nat} {R : F → Prop} {f u : F}

theorem Forest.addRoot (hF : Forest next mem d R) (hf : Fresh next mem d R f) : Forest next mem d fun r => R r ∨ r = f := by
  have hself : ∀ {p t}, walk next mem f p = some t → p = [] ∧ t = f := by
    intro p t hw
    by_cases hp : p = []
    · subst hp
      exact ⟨rfl, (some.inj hw).symm⟩
    · rw [walk_bare hf.bare hp] at hw
      cases hw
  intro r r' p p' t hr hr' hp hp' hw hw'
  rcases hr with hr | rfl
  · rcases hr' with hr' | rfl
    · exact hF hr hr' hp hp' hw hw'
    · obtain ⟨-, rfl⟩ := hself hw'
      exact absurd ⟨r, p, hr, hp, hw⟩ hf.new
  · obtain ⟨rfl, rfl⟩ := hself hw
    rcases hr' with hr' | rfl
    · exact absurd ⟨r', p', hr', hp', hw'⟩ hf.new
    · exact ⟨rfl, (hself hw').1.symm⟩

theorem node_addRoot (hf : Fresh next mem d R f) :
    Node next mem d (fun r => R r ∨ r = f) u ↔ Node next mem d R u ∨ u = f := by
  constructor
  · rintro ⟨r, p, hr | rfl, hp, hw⟩
    · exact .inl ⟨r, p, hr, hp, hw⟩
    · by_cases hnil : p = []
      · subst hnil
        exact .inr (some.inj hw).symm
      · rw [walk_bare hf.bare hnil] at hw
        cases hw
  · rintro (⟨r, p, hr, hp, hw⟩ | rfl)
    · exact ⟨r, p, .inl hr, hp, hw⟩
    · exact ⟨u, [], .inr rfl, Nat.zero_le d, rfl⟩

end Roots

section Set
variable [DecidableEq F] [DecidableEq I]

def set (mem : F → I → E) (t : F) (i : I) (e : E) : F → I → E := update mem t (update (mem t) i e)

variable {next} {mem : F → I → E} {d : Nat} {R : F → Prop} {t u f r r₀ : F} {p p₀ q : List I} {i j : I} {e : E}

theorem set_self : set mem t i e t i = e := by
  rw [set, update_self, update_self]

theorem set_of_ne (h : ¬(u = t ∧ j = i)) : set mem t i e u j = mem u j := by
  unfold set
  by_cases hu : u = t
  · subst hu
    rw [update_self, update_of_ne fun hj => h ⟨rfl, hj⟩]
  · rw [update_of_ne hu]

theorem set_of_ne_node (h : u ≠ t) : set mem t i e u = mem u := by
  rw [set, update_of_ne h]

theorem set_undo : set (set mem t i e) t i (mem t i) = mem := by
  funext u j
  by_cases hat : u = t ∧ j = i
  · obtain ⟨rfl, rfl⟩ := hat
    exact set_self
  · rw [set_of_ne hat, set_of_ne hat]

theorem walk_set_ne (hF : Forest next mem d R) (hr₀ : R r₀) (hp₀ : p₀.length ≤ d) (hw : walk next mem r₀ p₀ = some t)
    (hr : R r) (hp : p.length ≤ d) (hout : ¬(r = r₀ ∧ p₀ ++ [i] <+: p)) :
    walk next (set mem t i e) r p = walk next mem r p := by
  refine walk_congr fun q j q' u heq hu => ?_
  rw [set_of_ne]
  rintro ⟨rfl, rfl⟩
  have hq : q.length ≤ d := by
    rw [heq, length_append] at hp
    omega
  obtain ⟨rfl, rfl⟩ := hF hr hr₀ hq hp₀ hu hw
  exact hout ⟨rfl, q', by rw [append_assoc]; exact heq.symm⟩

/-- With an entry that leads nowhere, a path leads where it did or nowhere. -/
theorem walk_set_none (hnone : next e = none) :
    walk next (set mem t i e) r p = none ∨ walk next (set mem t i e) r p = walk next mem r p := by
  induction p generalizing r with
  | nil => exact .inr rfl
  | cons j p ih =>
    by_cases hat : r = t ∧ j = i
    · obtain ⟨rfl, rfl⟩ := hat
      left
      rw [walk, set_self, hnone, bind_none]
    rw [walk, walk, set_of_ne hat]
    cases next (mem r j) with
    | none => exact .inl rfl
    | some u => exact ih

/-- No path of at most `d` indices reads an entry of the last nodes. -/
theorem walk_set_bottom (hF : Forest next mem d R) (hr₀ : R r₀) (hp₀ : p₀.length = d)
    (hw : walk next mem r₀ p₀ = some t) (hr : R r)
    (hp : p.length ≤ d) : walk next (set mem t i e) r p = walk next mem r p := by
  refine walk_set_ne hF hr₀ (le_of_eq hp₀) hw hr hp ?_
  rintro ⟨-, h⟩
  have hlen := h.length_le
  rw [length_append, length_singleton] at hlen
  omega

section Insert
variable (hF : Forest next mem d R) (hr₀ : R r₀) (hp₀ : p₀.length < d) (hw : walk next mem r₀ p₀ = some t)
  (hnone : next (mem t i) = none) (hnext : next e = some f) (hf : Fresh next mem d R f)
include hF hr₀ hp₀ hw

theorem walk_insert_of_ne (hr : R r) (hp : p.length ≤ d) (hout : ¬(r = r₀ ∧ p₀ ++ [i] <+: p)) :
    walk next (set mem t i e) r p = walk next mem r p :=
  walk_set_ne hF hr₀ (le_of_lt hp₀) hw hr hp hout

include hnext

theorem walk_insert_self : walk next (set mem t i e) r₀ (p₀ ++ [i]) = some f := by
  have hsame := walk_insert_of_ne (i := i) (e := e) hF hr₀ hp₀ hw hr₀ (le_of_lt hp₀) fun h => not_append_isPrefix h.2
  rw [walk_snoc, hsame, hw, bind_some, set_self, hnext]

include hf

theorem walk_insert_deep (hq : q ≠ []) : walk next (set mem t i e) r₀ (p₀ ++ [i] ++ q) = none := by
  have hne : f ≠ t := fun h => hf.new (h ▸ ⟨r₀, p₀, hr₀, le_of_lt hp₀, hw⟩)
  rw [walk_append, walk_insert_self hF hr₀ hp₀ hw hnext]
  refine walk_bare (fun j => ?_) hq
  rw [set_of_ne fun h => hne h.1]
  exact hf.bare j

theorem walk_insert_cases (hr : R r) (hp : p.length ≤ d) (hu : walk next (set mem t i e) r p = some u) :
    (r = r₀ ∧ p = p₀ ++ [i] ∧ u = f) ∨ walk next mem r p = some u := by
  by_cases hin : r = r₀ ∧ p₀ ++ [i] <+: p
  · obtain ⟨rfl, q, rfl⟩ := hin
    by_cases hq : q = []
    · subst hq
      rw [append_nil, walk_insert_self hF hr₀ hp₀ hw hnext] at hu
      exact .inl ⟨rfl, append_nil _, (some.inj hu).symm⟩
    · rw [walk_insert_deep hF hr₀ hp₀ hw hnext hf hq] at hu
      cases hu
  · rw [walk_insert_of_ne hF hr₀ hp₀ hw hr hp hin] at hu
    exact .inr hu

theorem Forest.insert : Forest next (set mem t i e) d R := by
  intro r r' p p' u hr hr' hp hp' hu hu'
  have hnot : ∀ {r p}, R r → p.length ≤ d → walk next mem r p ≠ some f := fun hr hp h => hf.new ⟨_, _, hr, hp, h⟩
  rcases walk_insert_cases hF hr₀ hp₀ hw hnext hf hr hp hu with ⟨rfl, rfl, rfl⟩ | hu
  · rcases walk_insert_cases hF hr₀ hp₀ hw hnext hf hr' hp' hu' with ⟨rfl, rfl, -⟩ | hu'
    · exact ⟨rfl, rfl⟩
    · exact absurd hu' (hnot hr' hp')
  · rcases walk_insert_cases hF hr₀ hp₀ hw hnext hf hr' hp' hu' with ⟨-, -, rfl⟩ | hu'
    · exact absurd hu (hnot hr hp)
    · exact hF hr hr' hp hp' hu hu'

include hnone

theorem node_insert : Node next (set mem t i e) d R u ↔ Node next mem d R u ∨ u = f := by
  constructor
  · rintro ⟨r, p, hr, hp, hu⟩
    rcases walk_insert_cases hF hr₀ hp₀ hw hnext hf hr hp hu with ⟨-, -, rfl⟩ | hu
    · exact .inr rfl
    · exact .inl ⟨r, p, hr, hp, hu⟩
  · rintro (⟨r, p, hr, hp, hu⟩ | rfl)
    · refine ⟨r, p, hr, hp, ?_⟩
      rw [walk_insert_of_ne hF hr₀ hp₀ hw hr hp]
      · exact hu
      · rintro ⟨rfl, q, rfl⟩
        rw [walk_of_none hw hnone q] at hu
        cases hu
    · refine ⟨r₀, p₀ ++ [i], hr₀, ?_, walk_insert_self hF hr₀ hp₀ hw hnext⟩
      rw [length_append]
      exact hp₀

end Insert

end Set

end Moxide.Lib.Radix

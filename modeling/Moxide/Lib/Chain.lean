import Mathlib

/-! Linked lists: the nodes met from a head by following a `next` pointer, up to the null pointer. -/

namespace Moxide.Lib
open List

variable {α : Type}

/-- From the head `h` the pointers lead through the nodes of the list, in order, and end there. -/
def Chain (next : α → Option α) : Option α → List α → Prop
  | h, [] => h = none
  | h, a :: l => h = some a ∧ Chain next (next a) l

def walk (next : α → Option α) : Nat → Option α → List α
  | 0, _ => []
  | _ + 1, none => []
  | n + 1, some a => a :: walk next n (next a)

namespace Chain
variable {next next' : α → Option α} {h : Option α} {a : α} {l l' : List α}

theorem eq_nil (hc : Chain next none l) : l = [] := by
  cases l with
  | nil => rfl
  | cons a l => cases hc.1

theorem eq_cons (hc : Chain next (some a) l) : ∃ l', l = a :: l' ∧ Chain next (next a) l' := by
  cases l with
  | nil => cases hc
  | cons b l =>
    obtain ⟨heq, hl⟩ := hc
    cases heq
    exact ⟨l, rfl, hl⟩

section
variable (hc : Chain next h l)
include hc

theorem congr (heq : ∀ a ∈ l, next' a = next a) : Chain next' h l := by
  induction l generalizing h with
  | nil => exact hc
  | cons a l ih =>
    refine ⟨hc.1, ?_⟩
    rw [heq a mem_cons_self]
    exact ih hc.2 fun b hb => heq b (mem_cons_of_mem _ hb)

theorem walk_eq_take (n : Nat) : walk next n h = l.take n := by
  induction l generalizing h n with
  | nil =>
    cases hc
    cases n <;> rfl
  | cons a l ih =>
    obtain ⟨rfl, hl⟩ := hc
    cases n with
    | zero => rfl
    | succ n => exact congrArg (a :: ·) (ih hl n)

theorem walk_eq {n : Nat} (hn : l.length ≤ n) : walk next n h = l := by
  rw [hc.walk_eq_take, take_of_length_le hn]

theorem eq_walk {n : Nat} (hn : (walk next n h).length < n) : l = walk next n h := by
  rw [hc.walk_eq_take, length_take] at hn
  exact (hc.walk_eq (by omega)).symm

end

end Chain

/-! Doubly linked lists: from a head, `next` pointers lead through the nodes and `prev` pointers lead back. -/

/-- The nodes from the head `h` on, where `b` stands before the head. -/
def DList (next prev : α → Option α) : Option α → Option α → List α → Prop
  | _, h, [] => h = none
  | b, h, a :: l => h = some a ∧ prev a = b ∧ DList next prev (some a) (next a) l

namespace DList
variable {next prev next' prev' : α → Option α} {b h : Option α} {a : α} {l l₁ l₂ : List α}

section
variable (hl : DList next prev b h l)
include hl

theorem chain : Chain next h l := by
  induction l generalizing b h with
  | nil => exact hl
  | cons a l ih => exact ⟨hl.1, ih hl.2.2⟩

theorem head_eq : h = l.head? := by
  cases l with
  | nil => exact hl
  | cons a l => exact hl.1

theorem congr (hn : ∀ c ∈ l, next' c = next c) (hp : ∀ c ∈ l, prev' c = prev c) : DList next' prev' b h l := by
  induction l generalizing b h with
  | nil => exact hl
  | cons a l ih =>
    obtain ⟨hh, hb, hl⟩ := hl
    refine ⟨hh, by rw [hp a mem_cons_self, hb], ?_⟩
    rw [hn a mem_cons_self]
    exact ih hl (fun c hc => hn c (mem_cons_of_mem _ hc)) fun c hc => hp c (mem_cons_of_mem _ hc)

end

section
variable (hl : DList next prev b h (l₁ ++ a :: l₂))
include hl

theorem tail : DList next prev (some a) (next a) l₂ := by
  induction l₁ generalizing b h with
  | nil => exact hl.2.2
  | cons c l₁ ih => exact ih hl.2.2

theorem next_eq : next a = l₂.head? := hl.tail.head_eq

/-- The node before `a`: the last one of those in front, or what stands before the head. -/
theorem prev_eq : prev a = l₁.getLast?.or b := by
  induction l₁ generalizing b h with
  | nil => exact hl.2.1
  | cons c l₁ ih =>
    rw [ih hl.2.2]
    cases l₁ with
    | nil => rfl
    | cons d l₁ =>
      rw [getLast?_cons_cons]
      cases hd : (d :: l₁).getLast? with
      | none => simp at hd
      | some e => rfl

end

variable (next' prev' : α → Option α)

theorem push (hl : DList next prev none h l) (hnew : next' a = h) (hfirst : prev' a = none)
    (hback : ∀ c, h = some c → prev' c = some a) (hn : ∀ c ∈ l, next' c = next c)
    (hp : ∀ c ∈ l, h ≠ some c → prev' c = prev c) (hnd : l.Nodup) : DList next' prev' none (some a) (a :: l) := by
  refine ⟨rfl, hfirst, ?_⟩
  rw [hnew]
  cases l with
  | nil => exact hl
  | cons c l =>
    obtain ⟨hh, -, hl⟩ := hl
    refine ⟨hh, hback c hh, ?_⟩
    rw [hn c mem_cons_self]
    refine hl.congr (fun d hd => hn d (mem_cons_of_mem _ hd)) fun d hd => hp d (mem_cons_of_mem _ hd) ?_
    rw [hh]
    rintro ⟨⟩
    exact (nodup_cons.mp hnd).1 hd

theorem remove (hl : DList next prev b h (l₁ ++ a :: l₂)) (hnd : (l₁ ++ a :: l₂).Nodup) (hb : ∀ c ∈ l₂, b ≠ some c)
    (hnext : ∀ c ∈ l₁, prev a = some c → next' c = next a) (hprev : ∀ c, next a = some c → prev' c = prev a)
    (hn : ∀ c ∈ l₁ ++ l₂, prev a ≠ some c → next' c = next c) (hp : ∀ c ∈ l₁ ++ l₂, next a ≠ some c → prev' c = prev c) :
    DList next' prev' b (if l₁ = [] then next a else h) (l₁ ++ l₂) := by
  induction l₁ generalizing b h with
  | nil =>
    obtain ⟨-, hpa, hl⟩ := hl
    rw [if_pos rfl]
    cases l₂ with
    | nil => exact hl
    | cons c l =>
      obtain ⟨hh, -, hl⟩ := hl
      have hnd' := nodup_cons.mp (nodup_cons.mp hnd).2
      refine ⟨hh, by rw [hprev c hh, hpa], ?_⟩
      rw [hn c mem_cons_self (by rw [hpa]; exact hb c mem_cons_self)]
      refine hl.congr (fun d hd => hn d (mem_cons_of_mem _ hd) (by rw [hpa]; exact hb d (mem_cons_of_mem _ hd)))
        fun d hd => hp d (mem_cons_of_mem _ hd) ?_
      rw [hh]
      rintro ⟨⟩
      exact hnd'.1 hd
  | cons d l₁ ih =>
    have hna := hl.next_eq
    obtain ⟨hh, hpd, hl⟩ := hl
    have hpa := hl.prev_eq
    obtain ⟨hd, hnd⟩ := nodup_cons.mp hnd
    have hd₂ : d ∉ l₂ := fun hmem => hd (mem_append_right _ (mem_cons_of_mem _ hmem))
    have hd₁ : d ∉ l₁ := fun hmem => hd (mem_append_left _ hmem)
    have hkeep : next a ≠ some d := by
      rw [hna]
      exact fun heq => hd₂ (mem_of_mem_head? heq)
    have hrest := ih hl hnd (fun c hc heq => by cases heq; exact hd₂ hc) (fun c hc => hnext c (mem_cons_of_mem _ hc))
      (fun c hc => hn c (mem_cons_of_mem _ hc)) fun c hc => hp c (mem_cons_of_mem _ hc)
    rw [if_neg (cons_ne_nil d l₁)]
    refine ⟨hh, by rw [hp d mem_cons_self hkeep, hpd], ?_⟩
    -- the pointer of `d` changes just when `d` stands right before `a`
    cases hl₁ : l₁ with
    | nil =>
      subst hl₁
      rw [hnext d mem_cons_self hpa]
      exact hrest
    | cons e l =>
      have hpad : prev a ≠ some d := by
        rw [hpa]
        cases hlast : l₁.getLast? with
        | none => simp [hl₁] at hlast
        | some f =>
          rintro ⟨⟩
          exact hd₁ (mem_of_getLast? hlast)
      rw [hn d mem_cons_self hpad, ← hl₁]
      rw [if_neg (by rw [hl₁]; exact cons_ne_nil e l)] at hrest
      exact hrest

end DList

end Moxide.Lib

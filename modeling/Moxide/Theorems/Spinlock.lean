import Moxide.Lib.Reach
import Moxide.Spinlock

/-! Exclusion and fairness of the ticket lock: guards are granted in the order of the tickets. -/

namespace Moxide.Spinlock
open Lib List Option

/-- What a processor knows at a place of `lock` or `try_lock`. -/
def State.Knows (s : State) (c : Nat) : Pc → Prop
  | .idle => True
  | .spin t => s.taken[t.toNat]? = some (c, t) ∧ s.granted.length ≤ t.toNat
  | .loadNext t | .exchange t => t.toNat ≤ s.dropped

structure Inv (s : State) : Prop where
  next : s.lock.nextTicket.toNat = s.taken.length
  serving : s.lock.nowServing.toNat = s.dropped
  ticket : ∀ {i c} {t : UInt32}, s.taken[i]? = some (c, t) → t.toNat = i
  order : s.granted <+: s.taken
  count : s.granted.length = s.dropped + s.guards.length
  one : s.guards.length ≤ 1
  pcs : ∀ c, s.Knows c (s.pc c)

section
variable {s t : State} {c : Nat}

theorem Inv.dropped_le (h : Inv s) : s.dropped + s.guards.length ≤ s.taken.length := by
  have hle := h.order.length_le
  rw [h.count] at hle
  exact hle

theorem Inv.new : Inv .new where
  next := rfl
  serving := rfl
  ticket hi := by cases hi
  order := prefix_rfl
  count := rfl
  one := Nat.zero_le 1
  pcs _ := trivial

theorem State.Knows.mono {pc : Pc} (h : s.Knows c pc) (htaken : s.taken <+: t.taken) (hgranted : t.granted = s.granted)
    (hdropped : s.dropped ≤ t.dropped) : t.Knows c pc := by
  cases pc with
  | idle => trivial
  | spin u =>
    obtain ⟨l, hl⟩ := htaken
    refine ⟨?_, hgranted ▸ h.2⟩
    rw [← hl, getElem?_append_left (List.getElem?_eq_some_iff.mp h.1).1]
    exact h.1
  | loadNext u => exact le_trans h hdropped
  | exchange u => exact le_trans h hdropped

section
variable (h : Inv s)
include h

theorem Inv.goto {pc : Pc} (hk : s.Knows c pc) : Inv (s.goto c pc) := by
  refine { h with pcs := fun d => ?_ }
  change s.Knows d (Function.update s.pc c pc d)
  by_cases heq : d = c
  · subst heq
    rw [Function.update_self]
    exact hk
  · rw [Function.update_of_ne heq]
    exact h.pcs d

theorem Inv.take (hlt : s.taken.length + 1 < 2 ^ 32) :
    Inv (s.take c) ∧ (s.take c).taken[s.lock.nextTicket.toNat]? = some (c, s.lock.nextTicket) := by
  have hself : (s.take c).taken[s.lock.nextTicket.toNat]? = some (c, s.lock.nextTicket) := by
    rw [h.next]
    exact getElem?_concat_length
  refine ⟨⟨?_, h.serving, fun {i d t} hi => ?_, h.order.trans (prefix_append _ _), h.count, h.one,
    fun d => (h.pcs d).mono (prefix_append _ _) rfl le_rfl⟩, hself⟩
  · change (s.lock.nextTicket + 1).toNat = (s.taken ++ _).length
    have hsum : s.lock.nextTicket.toNat + (1 : UInt32).toNat < 2 ^ 32 := by
      rw [h.next]
      exact hlt
    rw [UInt32.toNat_add, Nat.mod_eq_of_lt hsum, h.next, length_append]
    rfl
  · by_cases hold : i < s.taken.length
    · exact h.ticket ((getElem?_append_left hold).symm.trans hi)
    have hlen := (List.getElem?_eq_some_iff.mp hi).1
    have heq : i = s.lock.nextTicket.toNat := by
      change i < (s.taken ++ _).length at hlen
      rw [length_append, length_singleton] at hlen
      rw [h.next]
      omega
    rw [heq, hself] at hi
    cases hi
    exact heq.symm

/-- The guard goes to the ticket that is served. -/
theorem Inv.grant {t : UInt32} (ht : s.taken[t.toNat]? = some (c, t)) (hserved : s.dropped = t.toNat)
    (hle : s.granted.length ≤ t.toNat) : Inv (s.grant c t) := by
  have hcount := h.count
  have hlen : s.granted.length = t.toNat := by omega
  have hnone : s.guards.length = 0 := by omega
  refine ⟨h.next, h.serving, h.ticket, ?_, ?_, ?_, fun d => ?_⟩
  · refine prefix_iff_eq_take.mpr ?_
    change s.granted ++ [(c, t)] = s.taken.take (s.granted ++ [(c, t)]).length
    rw [length_append, length_singleton, take_add_one, hlen, ht, toList_some, ← hlen,
      ← prefix_iff_eq_take.mp h.order]
  · change (s.granted ++ [(c, t)]).length = s.dropped + (c :: s.guards).length
    rw [length_append, length_singleton, length_cons]
    omega
  · change (c :: s.guards).length ≤ 1
    rw [length_cons]
    omega
  · have hd := h.pcs d
    change (s.grant c t).Knows d (Function.update s.pc c .idle d)
    by_cases heq : d = c
    · rw [heq, Function.update_self]
      trivial
    rw [Function.update_of_ne heq]
    generalize s.pc d = pc at hd ⊢
    cases pc with
    | spin u =>
      obtain ⟨hu, hle'⟩ := hd
      have hne : u.toNat ≠ t.toNat := by
        intro hsame
        rw [hsame, ht] at hu
        cases hu
        exact heq rfl
      refine ⟨hu, ?_⟩
      change (s.granted ++ [(c, t)]).length ≤ u.toNat
      rw [length_append, length_singleton]
      omega
    | idle => trivial
    | loadNext u => exact hd
    | exchange u => exact hd

theorem Inv.drop (hlt : s.taken.length < 2 ^ 32) (hc : c ∈ s.guards) :
    Inv { s with
      lock := { s.lock with nowServing := s.lock.nowServing + 1 }
      guards := s.guards.erase c
      dropped := s.dropped + 1 } := by
  have hone := h.one
  have hpos := length_pos_of_mem hc
  have hle := h.dropped_le
  have hcount := h.count
  have hlen := length_erase_of_mem hc
  refine ⟨h.next, ?_, h.ticket, h.order, ?_, ?_, fun d => (h.pcs d).mono prefix_rfl rfl (Nat.le_succ _)⟩
  · have hsum : s.lock.nowServing.toNat + (1 : UInt32).toNat < 2 ^ 32 := by
      rw [h.serving]
      change s.dropped + 1 < 2 ^ 32
      omega
    rw [UInt32.toNat_add, Nat.mod_eq_of_lt hsum, h.serving]
    rfl
  · change s.granted.length = s.dropped + 1 + (s.guards.erase c).length
    omega
  · change (s.guards.erase c).length ≤ 1
    omega

theorem Inv.advance (hs : s.advance c = some t) (hlt : t.taken.length < 2 ^ 32) : Inv t := by
  have hknows := h.pcs c
  unfold State.advance at hs
  split at hs <;> rename_i hpc
  · cases hs
  · rw [hpc] at hknows
    cases hs
    split
    · rename_i hserved
      exact h.grant hknows.1 (by rw [← h.serving, hserved]) hknows.2
    · exact h
  · rw [hpc] at hknows
    cases hs
    split
    · rename_i heq
      refine h.goto ?_
      rw [← heq]
      exact hknows
    · exact h.goto trivial
  rename_i next
  rw [hpc] at hknows
  cases hs
  by_cases heq : s.lock.nextTicket = next
  · subst heq
    rw [if_pos rfl] at hlt ⊢
    have hlen : s.taken.length + 1 < 2 ^ 32 := by
      change (s.taken ++ [_]).length < 2 ^ 32 at hlt
      rw [length_append] at hlt
      exact hlt
    obtain ⟨htake, hself⟩ := h.take (c := c) hlen
    -- all tickets up to the one that it takes have been served
    have hle : s.lock.nextTicket.toNat ≤ s.dropped := hknows
    have hdropped := h.dropped_le
    have hcount := h.count
    have hnext := h.next
    exact htake.grant hself (by change s.dropped = _; omega) (by change s.granted.length ≤ _; omega)
  · rw [if_neg heq]
    exact h.goto trivial

theorem Inv.step {e : Event} (hs : s.step e = some t) (hlt : t.taken.length < 2 ^ 32) : Inv t := by
  cases e with
  | lock c =>
    obtain ⟨-, hs⟩ := ite_none_right_eq_some.mp hs
    cases hs
    have hlen : s.taken.length + 1 < 2 ^ 32 := by
      change (s.taken ++ [_]).length < 2 ^ 32 at hlt
      rw [length_append] at hlt
      exact hlt
    obtain ⟨htake, hself⟩ := h.take (c := c) hlen
    refine htake.goto ⟨hself, ?_⟩
    rw [h.next]
    exact h.order.length_le
  | tryLock c =>
    obtain ⟨-, hs⟩ := ite_none_right_eq_some.mp hs
    cases hs
    exact h.goto (le_of_eq h.serving)
  | advance c => exact h.advance hs hlt
  | drop c =>
    obtain ⟨⟨-, hc⟩, hs⟩ := ite_none_right_eq_some.mp hs
    cases hs
    exact h.drop hlt hc

end

theorem taken_le {e : Event} (hs : s.step e = some t) : s.taken.length ≤ t.taken.length := by
  have htake : ∀ c, s.taken.length ≤ (s.take c).taken.length := fun c => (prefix_append _ _).length_le
  cases e with
  | lock c =>
    obtain ⟨-, hs⟩ := ite_none_right_eq_some.mp hs
    cases hs
    exact htake c
  | tryLock c | drop c =>
    obtain ⟨-, hs⟩ := ite_none_right_eq_some.mp hs
    cases hs
    exact le_refl _
  | advance c =>
    change s.advance c = some t at hs
    unfold State.advance at hs
    split at hs
    · cases hs
    · cases hs
      split <;> exact le_refl _
    · cases hs
      exact le_refl _
    cases hs
    split
    · exact htake c
    · exact le_refl _

theorem inv_reach (h : Reach (fun s e t => State.step s e = some t) (fun _ _ => True) .new s)
    (hlt : s.taken.length < 2 ^ 32) : Inv s :=
  h.invariant (I := fun s => s.taken.length < 2 ^ 32 → Inv s) (fun _ => .new)
    (fun _ _ _ ih _ hs hlt => (ih (lt_of_le_of_lt (taken_le hs) hlt)).step hs hlt) hlt

theorem trying_lock {e : Event} (htry : s.trying e) (hs : s.step e = some t) (hg : t.granted = s.granted) :
    t.lock = s.lock := by
  cases e with
  | lock c => cases htry
  | drop c => cases htry
  | tryLock c =>
    obtain ⟨-, hs⟩ := ite_none_right_eq_some.mp hs
    cases hs
    rfl
  | advance c =>
    change s.advance c = some t at hs
    unfold State.trying at htry
    unfold State.advance at hs
    split at hs
    · cases hs
    · rename_i hpc
      simp [hpc] at htry
    · cases hs
      rfl
    rename_i next _
    cases hs
    by_cases heq : s.lock.nextTicket = next
    · rw [if_pos heq] at hg
      change s.granted ++ [_] = s.granted at hg
      simp at hg
    · rw [if_neg heq]
      rfl

/-- In every interleaving with fewer than `2 ^ 32` tickets there is at most one guard, guards are granted in the order of the
    tickets, `now_serving` counts the guards dropped, and a `try_lock` that gets no guard changes neither counter. -/
theorem ticket_lock (h : Reach (fun s e t => State.step s e = some t) (fun _ _ => True) .new s)
    (hlt : s.taken.length < 2 ^ 32) :
    s.guards.length ≤ 1 ∧ s.granted <+: s.taken ∧ s.lock.nextTicket.toNat = s.taken.length ∧
      s.lock.nowServing.toNat = s.dropped ∧ s.lock.nowServing ≤ s.lock.nextTicket ∧
      ∀ e t, s.trying e = true → s.step e = some t → t.granted = s.granted → t.lock = s.lock := by
  have hinv := inv_reach h hlt
  refine ⟨hinv.one, hinv.order, hinv.next, hinv.serving, UInt32.le_iff_toNat_le.mpr ?_, fun e t => trying_lock⟩
  rw [hinv.next, hinv.serving]
  exact le_trans (Nat.le_add_right _ _) hinv.dropped_le

end

/-- A `try_lock` that another processor overtakes, one that finds the lock taken, a `lock` that waits, and a `try_lock`
    that gets the lock. -/
def contended : List Event :=
  [.tryLock 0, .advance 0, .lock 1, .advance 0, .advance 1, .tryLock 2, .advance 2, .lock 0, .advance 0, .drop 1, .advance 0,
    .drop 0, .tryLock 2, .advance 2, .advance 2]

theorem ticket_lock_contended : ∃ s, Reach.run State.step (fun _ _ => true) .new contended = some s ∧
    s.taken.length = 3 ∧ s.guards.length ≤ 1 ∧ s.granted <+: s.taken := by
  have hfacts : (Reach.run State.step (fun _ _ => true) .new contended).map (fun s => s.taken.length) = some 3 := by decide
  obtain ⟨s, hs, hlen⟩ := map_eq_some_iff.mp hfacts
  obtain ⟨hone, horder, -⟩ := ticket_lock ((Reach.of_run contended .start hs).mono fun _ _ _ => trivial) (by omega)
  exact ⟨s, hs, hlen, hone, horder⟩

end Moxide.Spinlock

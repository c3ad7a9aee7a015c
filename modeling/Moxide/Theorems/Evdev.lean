import Moxide.Evdev
import Moxide.Lib.Reach

/-! The ring as a queue that drops its oldest events. A push into a full ring advances the tail, which the consumer advances
    too, so what a pop reads is safe as long as none is under way at that moment. -/

namespace Moxide.Evdev
open Lib List Option

/-- A push that makes room does so while no pop is under way and the ring is not empty, and the count of dropped events
    does not wrap. -/
def State.undisturbed (s : State) : Event → Bool
  | .pushStep =>
    match s.push with
    | .advanceTail _ _ => s.pop = .idle && s.ring.tail ≠ s.ring.head
    | .countDropped _ _ => s.ring.dropped.toNat + 1 < 2 ^ 32
    | _ => true
  | _ => true

/-- An event that has left the ring and is not yet counted as dropped. -/
def Push.uncounted : Push → Nat
  | .countDropped _ _ => 1
  | _ => 0

def State.PushOk (s : State) (gone : Nat) : Push → Prop
  | .idle => True
  | .loadTail _ head | .advanceTail _ head => head = s.ring.head
  | .countDropped _ head | .store _ head => head = s.ring.head ∧ s.pushed.length < gone + 256
  | .advanceHead ev => s.pushed.length < gone + 256 ∧ s.ring.buf (s.pushed.length % 256) = ev

def State.PopOk (s : State) (gone : Nat) : Pop → Prop
  | .idle => True
  | .loadHead tail => tail = s.ring.tail
  | .read tail => tail = s.ring.tail ∧ gone < s.pushed.length
  | .advanceTail ev => s.pushed[gone]? = some ev

/-- `gone` events have left the ring: it holds those behind them, and the popped ones are among them. -/
structure Inv (s : State) (gone : Nat) : Prop where
  head : s.ring.head = UInt32.ofNat s.pushed.length
  tail : s.ring.tail = UInt32.ofNat gone
  order : s.popped.Sublist (s.pushed.take gone)
  count : s.popped.length + (s.ring.dropped.toNat + s.drained) + s.push.uncounted = gone
  le : gone ≤ s.pushed.length
  bound : s.pushed.length ≤ gone + 256
  slot : ∀ {k x}, gone ≤ k → s.pushed[k]? = some x → s.ring.buf (k % 256) = x
  push : s.PushOk gone s.push
  pop : s.PopOk gone s.pop

section
variable {s t : State} {gone : Nat}

theorem toNat_mask (n : Nat) : (UInt32.ofNat n &&& RING_MASK).toNat = n % 256 := by
  change n % 2 ^ 32 &&& 2 ^ 8 - 1 = n % 256
  rw [Nat.and_two_pow_sub_one_eq_mod]
  omega

theorem Inv.used (h : Inv s gone) : (s.ring.head - s.ring.tail).toNat = s.pushed.length - gone := by
  have hle := h.le
  have hbound := h.bound
  rw [h.head, h.tail, UInt32.toNat_sub, UInt32.toNat_ofNat', UInt32.toNat_ofNat']
  omega

theorem Inv.lt_of_ne (h : Inv s gone) (hne : s.ring.tail ≠ s.ring.head) : gone < s.pushed.length := by
  refine lt_of_le_of_ne h.le fun heq => hne ?_
  rw [h.head, h.tail, heq]

theorem Inv.new : Inv .new 0 :=
  ⟨rfl, rfl, .slnil, rfl, Nat.zero_le _, Nat.zero_le _, fun _ hx => absurd hx (by simp [State.new]), trivial, trivial⟩

/-- The producer makes room: the oldest event is gone. -/
theorem Inv.advanceTail {ev : InputEvent} {head : UInt32} (h : Inv s gone) (hp : s.push = .advanceTail ev head)
    (hidle : s.pop = .idle) (hne : s.ring.tail ≠ s.ring.head) :
    Inv { s with ring.tail := s.ring.tail + 1, push := .countDropped ev head } (gone + 1) := by
  have hpush := h.push
  have hcount := h.count
  have hbound := h.bound
  rw [hp] at hpush hcount
  refine ⟨h.head, ?_, h.order.trans (take_sublist_take_left (Nat.le_succ _)), congrArg (· + 1) hcount, h.lt_of_ne hne,
    Nat.le_succ_of_le hbound, fun hk hx => h.slot (Nat.le_of_succ_le hk) hx, ⟨hpush, Nat.lt_succ_of_le hbound⟩, ?_⟩
  · rw [h.tail, UInt32.ofNat_add]
    rfl
  · rw [hidle]
    trivial

/-- The producer publishes the event that it has stored. -/
theorem Inv.advanceHead {ev : InputEvent} (h : Inv s gone) (hp : s.push = .advanceHead ev) :
    Inv { s with ring.head := s.ring.head + 1, push := .idle, pushed := s.pushed ++ [ev] } gone := by
  have hpush := h.push
  have hcount := h.count
  rw [hp] at hpush hcount
  obtain ⟨hlt, hev⟩ := hpush
  have hlen : (s.pushed ++ [ev]).length = s.pushed.length + 1 := by rw [length_append, length_singleton]
  refine ⟨?_, h.tail, ?_, hcount, ?_, ?_, fun {k x} hk hx => ?_, trivial, ?_⟩
  · rw [hlen, h.head, UInt32.ofNat_add]
    rfl
  · rw [take_append_of_le_length h.le]
    exact h.order
  · rw [hlen]
    exact Nat.le_succ_of_le h.le
  · rw [hlen]
    exact hlt
  · rw [getElem?_append] at hx
    split at hx
    · exact h.slot hk hx
    have hk' := (List.getElem?_eq_some_iff.mp hx).1
    rw [length_singleton] at hk'
    obtain rfl : k = s.pushed.length := by omega
    rw [Nat.sub_self] at hx
    cases hx
    exact hev
  · have hpop := h.pop
    generalize s.pop = q at hpop ⊢
    cases q with
    | idle => trivial
    | loadHead tail => exact hpop
    | read tail => exact ⟨hpop.1, lt_of_lt_of_le hpop.2 (prefix_append _ _).length_le⟩
    | advanceTail ev' => exact (getElem?_append_left (List.getElem?_eq_some_iff.mp hpop).1).trans hpop

theorem Inv.pushStep (h : Inv s gone) (hok : s.undisturbed .pushStep = true) (hs : s.pushStep = some t) :
    ∃ gone, Inv t gone := by
  have hpush := h.push
  have hcount := h.count
  unfold State.pushStep at hs
  unfold State.undisturbed at hok
  split at hs
  · cases hs
  · rename_i ev head hp
    cases hs
    rw [hp] at hpush hcount
    obtain rfl : head = s.ring.head := hpush
    refine ⟨gone, ?_⟩
    split_ifs with hfull
    · exact { h with count := hcount, push := rfl }
    · have hused : s.pushed.length - gone < 256 := h.used ▸ UInt32.lt_iff_toNat_lt.mp (UInt32.not_le.mp hfull)
      have hroom : s.pushed.length < gone + 256 := by omega
      exact { h with count := hcount, push := ⟨rfl, hroom⟩ }
  · rename_i ev head hp
    cases hs
    rw [hp, Bool.and_eq_true, decide_eq_true_eq, decide_eq_true_eq] at hok
    exact ⟨gone + 1, h.advanceTail hp hok.1 hok.2⟩
  · rename_i ev head hp
    cases hs
    rw [hp] at hpush hcount hok
    have hwrap : (s.ring.dropped + 1).toNat = s.ring.dropped.toNat + 1 := by
      rw [UInt32.toNat_add]
      exact Nat.mod_eq_of_lt (of_decide_eq_true hok)
    refine ⟨gone, { h with count := ?_, push := hpush }⟩
    change s.popped.length + ((s.ring.dropped + 1).toNat + s.drained) + 0 = gone
    change s.popped.length + (s.ring.dropped.toNat + s.drained) + 1 = gone at hcount
    omega
  · rename_i ev head hp
    cases hs
    rw [hp] at hpush hcount
    obtain ⟨rfl, hlt⟩ := hpush
    rw [h.head, toNat_mask]
    refine ⟨gone, { h with count := hcount, slot := fun {k x} hk hx => ?_, push := ⟨hlt, Function.update_self ..⟩ }⟩
    have hklt : k < s.pushed.length := (List.getElem?_eq_some_iff.mp hx).1
    -- the slot is not one of those in use
    have hne : k % 256 ≠ s.pushed.length % 256 := by omega
    exact (Function.update_of_ne hne _ _).trans (h.slot hk hx)
  · rename_i ev hp
    cases hs
    exact ⟨gone, h.advanceHead hp⟩

theorem Inv.popStep (h : Inv s gone) (hs : s.popStep = some t) : ∃ gone, Inv t gone := by
  have hpop := h.pop
  unfold State.popStep at hs
  split at hs
  · cases hs
  · rename_i tail hp
    cases hs
    rw [hp] at hpop
    obtain rfl : tail = s.ring.tail := hpop
    refine ⟨gone, { h with pop := ?_ }⟩
    by_cases heq : s.ring.tail = s.ring.head
    · rw [if_pos heq]
      trivial
    · rw [if_neg heq]
      exact ⟨rfl, h.lt_of_ne heq⟩
  · rename_i tail hp
    cases hs
    rw [hp] at hpop
    obtain ⟨rfl, hlt⟩ := hpop
    refine ⟨gone, { h with pop := ?_ }⟩
    have hget := getElem?_eq_getElem hlt
    change s.pushed[gone]? = some (s.ring.buf (s.ring.tail &&& RING_MASK).toNat)
    rw [h.tail, toNat_mask, h.slot le_rfl hget, hget]
  · rename_i ev hp
    cases hs
    rw [hp] at hpop
    have hev : s.pushed[gone]? = some ev := hpop
    have hcount := h.count
    have hbound := h.bound
    refine ⟨gone + 1, h.head, ?_, ?_, ?_, (List.getElem?_eq_some_iff.mp hev).1, Nat.le_succ_of_le hbound,
      fun hk hx => h.slot (Nat.le_of_succ_le hk) hx, ?_, trivial⟩
    · rw [h.tail, UInt32.ofNat_add]
      rfl
    · rw [take_add_one, hev]
      exact h.order.append (Sublist.refl _)
    · rw [length_append, length_singleton]
      change s.popped.length + 1 + (s.ring.dropped.toNat + s.drained) + s.push.uncounted = gone + 1
      omega
    · have hpush := h.push
      generalize s.push = q at hpush ⊢
      cases q with
      | idle => trivial
      | loadTail | advanceTail => exact hpush
      | countDropped | store => exact ⟨hpush.1, Nat.lt_succ_of_lt hpush.2⟩
      | advanceHead ev' => exact ⟨Nat.lt_succ_of_lt hpush.1, hpush.2⟩

theorem Inv.step (h : Inv s gone) {e : Event} (hok : s.undisturbed e) (hs : s.step e = some t) : ∃ gone, Inv t gone := by
  cases e with
  | push ev =>
    obtain ⟨hidle, hs⟩ := ite_none_right_eq_some.mp hs
    cases hs
    have hcount := h.count
    rw [hidle] at hcount
    exact ⟨gone, { h with count := hcount, push := rfl }⟩
  | pushStep => exact h.pushStep hok hs
  | pop =>
    obtain ⟨-, hs⟩ := ite_none_right_eq_some.mp hs
    cases hs
    exact ⟨gone, { h with pop := rfl }⟩
  | popStep => exact h.popStep hs
  | drainDropped =>
    obtain ⟨-, hs⟩ := ite_none_right_eq_some.mp hs
    cases hs
    have hcount := h.count
    refine ⟨gone, { h with count := ?_ }⟩
    change s.popped.length + (0 + (s.drained + s.ring.dropped.toNat)) + s.push.uncounted = gone
    omega

/-- In runs in which no push makes room while a pop is under way, events come out in the order in which they went in, at most
    256 are in the ring, and every event that was pushed is popped, in the ring or counted as dropped (or about to be). -/
theorem events_in_order (h : Reach (fun s e t => State.step s e = some t) (fun s e => s.undisturbed e = true) .new s) :
    s.popped.Sublist s.pushed ∧ (s.ring.head - s.ring.tail).toNat ≤ 256 ∧ s.pushed.length =
      s.popped.length + (s.ring.head - s.ring.tail).toNat + (s.ring.dropped.toNat + s.drained) + s.push.uncounted := by
  obtain ⟨gone, hinv⟩ : ∃ gone, Inv s gone :=
    h.invariant (I := fun s => ∃ gone, Inv s gone) ⟨0, .new⟩ fun s e t ⟨_, h⟩ hok hs => h.step hok hs
  have hle := hinv.le
  have hbound := hinv.bound
  have hcount := hinv.count
  rw [hinv.used]
  exact ⟨hinv.order.trans (take_sublist _ _), by omega, by omega⟩

end

def key (code : Nat) : InputEvent := ⟨0, 0, 1, UInt16.ofNat code, 1⟩

def pushKey (code : Nat) : List Event := [.push (key code), .pushStep, .pushStep, .pushStep]

def fill : List Event := (List.range 256).flatMap pushKey

/-- The ring is full, a push makes room in it, and a pop runs while the push stores its event. -/
def fullThenPop : List Event :=
  List.append fill [.push (key 256), .pushStep, .pushStep, .pushStep, .pop, .popStep, .pushStep, .popStep,
    .pushStep, .popStep]

set_option maxRecDepth 100000 in
theorem events_in_order_full : ∃ s, Reach.run State.step State.undisturbed .new fullThenPop = some s ∧
    (s.popped = [key 1] ∧ s.ring.dropped = 1) ∧ s.popped.Sublist s.pushed := by
  exact Reach.exists_run_and (by decide +kernel) fun s hs hpopped => ⟨hpopped, (events_in_order hs).1⟩

/-- The ring is full and a pop has begun when another push takes the oldest slot and overwrites it. -/
def overflow : List Event :=
  List.append fill [.pop, .popStep, .push (key 256), .pushStep, .pushStep, .pushStep, .pushStep, .pushStep,
    .popStep, .popStep, .pop, .popStep, .popStep, .popStep]

set_option maxRecDepth 100000 in
/-- The pop returns the newest event, and the next one an event that was pushed long before it. -/
theorem overflow_corrupts : (Reach.run State.step (fun _ _ => true) .new overflow).map (fun s =>
    (s.popped, decide (s.popped.Sublist s.pushed))) = some ([key 256, key 2], false) := by
  decide +kernel

end Moxide.Evdev

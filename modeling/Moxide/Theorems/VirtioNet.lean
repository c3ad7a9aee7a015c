import Moxide.Theorems.SchemeProxy.Wire

/-! The receive queue: every descriptor is available, held by the device or in the used ring, so that no frame is
    overwritten before the driver has copied it. Positions in the rings are counted without bound; the indices are their
    last sixteen bits. -/

namespace Moxide.VirtioNet
open Ipc (Bytes)
open List Option
open Lib

namespace NetDriver
variable (s : NetDriver) (k : Nat)

/-- The descriptor at a position of the avail ring. -/
def availId : Nat := (s.rxAvail.ring (k % 256)).toNat

/-- The descriptor at a position of the used ring. -/
def usedId : Nat := (s.rxUsed.ring (k % 256)).id.toNat

/-- The frame at a position of the used ring. -/
def frameAt : Bytes := (s.rxBufs (s.usedId k)).take (min (s.rxUsed.ring (k % 256)).len.toNat MAX_FRAME_LEN)

/-- The frames in the used ring that the driver has not read. -/
def waiting : List Bytes := (List.range' s.rxLastUsed.toNat (s.rxUsed.idx - s.rxLastUsed).toNat).map s.frameAt

end NetDriver

theorem toNat_slot (k : Nat) : (UInt16.ofNat k % QUEUE_SIZE).toNat = k % 256 := by
  rw [UInt16.toNat_mod, UInt16.toNat_ofNat']
  exact Nat.mod_mod_of_dvd k (by decide)

theorem toNat_sub_ofNat {m n : Nat} (hle : m ≤ n) (hlt : n < m + 2 ^ 16) :
    (UInt16.ofNat n - UInt16.ofNat m).toNat = n - m := by
  rw [UInt16.toNat_sub, UInt16.toNat_ofNat', UInt16.toNat_ofNat']
  omega

theorem ofNat_succ (n : Nat) : UInt16.ofNat n + 1 = UInt16.ofNat (n + 1) := by
  rw [UInt16.ofNat_add]
  rfl

/-- All descriptors: those that are available, those of the device, and those in the used ring. -/
def Net.owned (s : Net) (n u : Nat) : List Nat :=
  (List.range' (u + s.held.length) (n + 256 - (u + s.held.length))).map s.driver.availId ++
    (s.held ++ (List.range' n (u - n)).map s.driver.usedId)

/-- `n` frames have been read of `u` that the device has put into the used ring. -/
structure Inv (s : Net) (n u : Nat) : Prop where
  last : s.driver.rxLastUsed = UInt16.ofNat n
  used : s.driver.rxUsed.idx = UInt16.ofNat u
  avail : s.driver.rxAvail.idx = UInt16.ofNat (n + 256)
  taken : s.taken = UInt16.ofNat (u + s.held.length)
  le : n ≤ u
  bound : u + s.held.length ≤ n + 256
  nodup : (s.owned n u).Nodup
  small : ∀ d ∈ s.owned n u, d < 256
  delivered : s.delivered.length = u
  frames : ∀ k, n ≤ k → k < u → s.delivered[k]? = some (s.driver.frameAt k)
  out : framesOf s.replies ++ s.driver.rxPending = s.delivered.take n

theorem inv_new : Inv Net.new 0 0 := by
  have howned : Net.new.owned 0 0 = List.range 256 := by decide +kernel
  refine ⟨rfl, rfl, rfl, rfl, le_rfl, by decide, ?_, ?_, rfl, fun k _ hk => absurd hk (Nat.not_lt_zero k), rfl⟩
  · rw [howned]
    exact nodup_range
  · rw [howned]
    exact fun d hd => mem_range.mp hd

variable {s t : Net} {n u : Nat}

theorem Inv.take (h : Inv s n u) (hs : s.step .take = some t) : Inv t n u := by
  obtain ⟨hne, hs⟩ := ite_none_left_eq_some.mp hs
  cases hs
  have hbound := h.bound
  rw [h.taken, h.avail] at hne
  have hlt : u + s.held.length < n + 256 := lt_of_le_of_ne hbound fun heq => hne (by rw [heq])
  have hlen : (s.held ++ [(s.driver.rxAvail.ring (s.taken % QUEUE_SIZE).toNat).toNat]).length = s.held.length + 1 := by
    rw [length_append, length_singleton]
  have hid : (s.driver.rxAvail.ring (s.taken % QUEUE_SIZE).toNat).toNat = s.driver.availId (u + s.held.length) := by
    rw [h.taken, toNat_slot]
    rfl
  -- the first available descriptor becomes the last one that the device holds
  have howned : (Net.owned { s with
      taken := s.taken + 1
      held := s.held ++ [(s.driver.rxAvail.ring (s.taken % QUEUE_SIZE).toNat).toNat] } n u).Perm (s.owned n u) := by
    obtain ⟨k, hk⟩ : ∃ k, n + 256 - (u + s.held.length) = k + 1 := ⟨n + 256 - (u + s.held.length) - 1, by omega⟩
    have hk' : n + 256 - (u + (s.held.length + 1)) = k := by omega
    rw [Net.owned, Net.owned, hlen, hid, hk, hk', range'_succ, map_cons, ← Nat.add_assoc]
    refine perm_iff_count.mpr fun d => ?_
    simp only [count_append, count_cons, count_nil]
    omega
  refine { h with
    taken := ?_
    bound := ?_
    nodup := howned.nodup_iff.mpr h.nodup
    small := fun d hd => h.small d (howned.mem_iff.mp hd) }
  · rw [hlen, h.taken, ofNat_succ, Nat.add_assoc]
  · rw [hlen]
    omega

theorem Inv.complete {i d : Nat} {frame : Bytes} (h : Inv s n u) (hd : s.held[i]? = some d)
    (hlen : frame.length ≤ MAX_FRAME_LEN) : Inv (s.complete i d frame) n (u + 1) := by
  have hle := h.le
  have hbound := h.bound
  obtain ⟨hi, hget⟩ := List.getElem?_eq_some_iff.mp hd
  have hheld : (s.held.eraseIdx i).length + 1 = s.held.length := by
    rw [length_eraseIdx_of_lt hi]
    omega
  have hperm : s.held.Perm (d :: s.held.eraseIdx i) := hget ▸ (getElem_cons_eraseIdx_perm hi).symm
  have hsmall : d < 256 := h.small d (mem_append_right _ (mem_append_left _ (mem_of_getElem? hd)))
  have hslot : (s.driver.rxUsed.idx % QUEUE_SIZE).toNat = u % 256 := by rw [h.used, toNat_slot]
  have hring : ∀ k, n ≤ k → k < u → (s.complete i d frame).driver.rxUsed.ring (k % 256) =
    s.driver.rxUsed.ring (k % 256) := by
    intro k hnk hku
    refine Function.update_of_ne ?_ _ _
    rw [hslot]
    omega
  have hlast : (s.complete i d frame).driver.rxUsed.ring (u % 256) = ⟨UInt32.ofNat d, UInt32.ofNat frame.length⟩ := by
    rw [← hslot]
    exact Function.update_self ..
  have hused : ∀ k, n ≤ k → k < u → (s.complete i d frame).driver.usedId k = s.driver.usedId k :=
    fun k hnk hku => congrArg (fun elem => elem.id.toNat) (hring k hnk hku)
  have hid : (s.complete i d frame).driver.usedId u = d := by
    rw [NetDriver.usedId, hlast]
    exact UInt32.toNat_ofNat_of_lt' (lt_of_lt_of_le hsmall (by decide))
  -- the descriptor moves from the device to the end of the used ring
  have howned : ((s.complete i d frame).owned n (u + 1)).Perm (s.owned n u) := by
    have hmap :
      (List.range' n (u - n)).map (s.complete i d frame).driver.usedId = (List.range' n (u - n)).map s.driver.usedId := by
      refine map_congr_left fun k hk => ?_
      have hk := mem_range'_1.mp hk
      exact hused k (by omega) (by omega)
    have hrange : List.range' n (u + 1 - n) = List.range' n (u - n) ++ [u] := by
      rw [Nat.succ_sub hle, range'_concat, Nat.one_mul, Nat.add_sub_cancel' hle]
    have hstart : u + 1 + (s.complete i d frame).held.length = u + s.held.length := by
      change u + 1 + (s.held.eraseIdx i).length = _
      omega
    rw [Net.owned, Net.owned, hstart, hrange, map_append, hmap, map_singleton, hid]
    refine perm_iff_count.mpr fun c => ?_
    have hc := perm_iff_count.mp hperm c
    change count c (_ ++ (s.held.eraseIdx i ++ _)) = _
    simp only [count_append, count_cons, count_nil] at hc ⊢
    change count c (map s.driver.availId _) + _ = _
    omega
  have hfresh : ∀ k, n ≤ k → k < u → s.driver.usedId k ≠ d := by
    intro k hnk hku heq
    have hnodup := (nodup_append.mp (nodup_append.mp h.nodup).2.1).2.2
    refine hnodup d (mem_of_getElem? hd) _ (List.mem_map.mpr ⟨k, mem_range'_1.mpr ⟨hnk, by omega⟩, rfl⟩) heq.symm
  refine ⟨h.last, ?_, h.avail, ?_, by omega, ?_, howned.nodup_iff.mpr h.nodup,
    fun c hc => h.small c (howned.mem_iff.mp hc), ?_, fun k hnk hku => ?_, ?_⟩
  · exact (congrArg (· + 1) h.used).trans (ofNat_succ u)
  · change s.taken = UInt16.ofNat (u + 1 + (s.held.eraseIdx i).length)
    rw [h.taken, ← hheld]
    congr 1
    omega
  · change u + 1 + (s.held.eraseIdx i).length ≤ n + 256
    omega
  · change (s.delivered ++ [frame]).length = u + 1
    rw [length_append, length_singleton, h.delivered]
  · change (s.delivered ++ [frame])[k]? = _
    rcases Nat.lt_or_ge k u with hk | hk
    · have hbuf : (s.complete i d frame).driver.rxBufs (s.driver.usedId k) = s.driver.rxBufs (s.driver.usedId k) :=
        Function.update_of_ne (hfresh k hnk hk) _ _
      rw [getElem?_append_left (by rw [h.delivered]; exact hk), h.frames k hnk hk, NetDriver.frameAt, NetDriver.frameAt,
        hused k hnk hk, hring k hnk hk, hbuf]
    · obtain rfl : k = u := by omega
      have hbuf : (s.complete i d frame).driver.rxBufs d = frame ++ (s.driver.rxBufs d).drop frame.length :=
        Function.update_self ..
      have hwidth : (UInt32.ofNat frame.length).toNat = frame.length :=
        UInt32.toNat_ofNat_of_lt' (lt_of_le_of_lt hlen (by decide))
      rw [getElem?_append_right (by rw [h.delivered]), h.delivered, Nat.sub_self, NetDriver.frameAt, hid,
        hlast, hbuf, hwidth, Nat.min_eq_left hlen, take_left]
      rfl
  · change framesOf s.replies ++ s.driver.rxPending = (s.delivered ++ [frame]).take n
    rw [take_append_of_le_length (by rw [h.delivered]; exact hle)]
    exact h.out

/-- The driver after a round of `drain_rx` at position `n`. -/
def NetDriver.recycle (s : NetDriver) (n : Nat) : NetDriver :=
  { s with
    rxPending := s.rxPending ++ [s.frameAt n]
    rxAvail.ring := Function.update s.rxAvail.ring ((n + 256) % 256) (UInt16.ofNat (s.usedId n))
    rxAvail.idx := s.rxAvail.idx + 1
    rxLastUsed := s.rxLastUsed + 1 }

/-- A round of `drain_rx` copies the next frame and gives its descriptor back. -/
theorem Inv.drainOne (h : Inv s n u) (hlt : n < u) :
    s.driver.drainOne = some (s.driver.recycle n) ∧ Inv { s with driver := s.driver.recycle n } (n + 1) u := by
  have hbound := h.bound
  have hmem : s.driver.usedId n ∈ s.owned n u :=
    mem_append_right _ (mem_append_right _ (List.mem_map.mpr ⟨n, mem_range'_1.mpr ⟨le_rfl, by omega⟩, rfl⟩))
  have hsmall := h.small _ hmem
  have hread : (s.driver.rxLastUsed % QUEUE_SIZE).toNat = n % 256 := by rw [h.last, toNat_slot]
  have hslot : (s.driver.rxAvail.idx % QUEUE_SIZE).toNat = (n + 256) % 256 := by rw [h.avail, toNat_slot]
  have hdrain : s.driver.drainOne = some (s.driver.recycle n) := by
    rw [NetDriver.drainOne, hread, hslot]
    exact if_pos hsmall
  refine ⟨hdrain, ?_⟩
  have hnew : (s.driver.recycle n).availId (n + 256) = s.driver.usedId n := by
    rw [NetDriver.availId, NetDriver.recycle]
    dsimp only
    rw [Function.update_self]
    exact UInt16.toNat_ofNat_of_lt' (lt_of_lt_of_le hsmall (by decide))
  have hold : (List.range' (u + s.held.length) (n + 256 - (u + s.held.length))).map (s.driver.recycle n).availId =
      (List.range' (u + s.held.length) (n + 256 - (u + s.held.length))).map s.driver.availId := by
    refine map_congr_left fun k hk => ?_
    have hk := mem_range'_1.mp hk
    have hne : k % 256 ≠ (n + 256) % 256 := by omega
    exact congrArg UInt16.toNat (Function.update_of_ne hne _ _)
  -- the descriptor moves from the used ring to the end of the avail ring
  have howned : (Net.owned { s with driver := s.driver.recycle n } (n + 1) u).Perm (s.owned n u) := by
    have hsplit : n + 1 + 256 - (u + s.held.length) = n + 256 - (u + s.held.length) + 1 := by omega
    have hused : u - n = u - (n + 1) + 1 := by omega
    have hend : u + s.held.length + (n + 256 - (u + s.held.length)) = n + 256 := by omega
    rw [Net.owned, Net.owned]
    dsimp only
    rw [hsplit, hused, range'_concat, Nat.one_mul, hend, range'_succ, map_append, map_singleton, map_cons, hnew, hold]
    refine perm_iff_count.mpr fun c => ?_
    simp only [count_append, count_cons, count_nil]
    change _ + (_ + count c (map s.driver.usedId _)) = _
    omega
  have hbound' : u + s.held.length ≤ n + 1 + 256 := by omega
  refine ⟨?_, h.used, ?_, h.taken, hlt, hbound', howned.nodup_iff.mpr h.nodup, fun c hc => h.small c (howned.mem_iff.mp hc),
    h.delivered, fun k hnk hku => h.frames k (by omega) hku, ?_⟩
  · exact (congrArg (· + 1) h.last).trans (ofNat_succ n)
  · refine (congrArg (· + 1) h.avail).trans ((ofNat_succ _).trans ?_)
    rw [Nat.add_right_comm]
  · change framesOf s.replies ++ (s.driver.rxPending ++ [s.driver.frameAt n]) = _
    rw [← append_assoc, h.out, take_add_one, h.frames n le_rfl hlt]
    rfl

theorem Inv.drainRounds (h : Inv s n u) {k : Nat} (hk : n + k ≤ u) :
    ∃ driver, NetDriver.drainRounds k s.driver = some driver ∧ Inv { s with driver } (n + k) u := by
  induction k generalizing s n with
  | zero => exact ⟨_, rfl, h⟩
  | succ k ih =>
    obtain ⟨hone, h₁⟩ := h.drainOne (by omega)
    obtain ⟨d₂, hrest, h₂⟩ := ih h₁ (by omega)
    refine ⟨d₂, ?_, ?_⟩
    · rw [NetDriver.drainRounds, hone]
      exact hrest
    · rw [Nat.add_right_comm] at h₂
      exact h₂

theorem Inv.handleIrq (h : Inv s n u) (status : UInt32) :
    ∃ driver n', s.driver.handleIrq status = some driver ∧ Inv { s with driver } n' u := by
  rw [NetDriver.handleIrq]
  split_ifs
  · have hle := h.le
    have hbound := h.bound
    have hcount : (s.driver.rxUsed.idx - s.driver.rxLastUsed).toNat = u - n := by
      rw [h.used, h.last, toNat_sub_ofNat hle (by omega)]
    obtain ⟨driver, hdrain, h'⟩ := h.drainRounds (k := u - n) (by omega)
    refine ⟨driver, _, ?_, h'⟩
    rw [NetDriver.drainRx, hcount]
    exact hdrain
  · exact ⟨s.driver, n, rfl, h⟩

theorem Inv.step (h : Inv s n u) {e : Event} (hs : s.step e = some t) : ∃ n u, Inv t n u := by
  cases e with
  | take => exact ⟨n, u, h.take hs⟩
  | complete i frame =>
    rw [Net.step] at hs
    split at hs
    · rename_i d hd
      obtain ⟨hlen, hs⟩ := ite_none_right_eq_some.mp hs
      cases hs
      exact ⟨n, u + 1, h.complete hd hlen⟩
    · cases hs
  | message msg status sent =>
    rw [Net.step] at hs
    split at hs
    · obtain ⟨driver, hdrain, rfl⟩ := map_eq_some_iff.mp hs
      obtain ⟨driver', n', hdrain', h'⟩ := h.handleIrq status
      rw [hdrain] at hdrain'
      cases hdrain'
      exact ⟨n', u, h'⟩
    · obtain ⟨r, hr, rfl⟩ := map_eq_some_iff.mp hs
      obtain ⟨d, -, rfl⟩ := map_eq_some_iff.mp hr
      refine ⟨n, u, { h with out := ?_ }⟩
      change framesOf (s.replies ++ [_]) ++ _ = _
      rw [framesOf, filterMap_append, append_assoc, ← h.out]
      exact congrArg (framesOf s.replies ++ ·) (framesOf_respond ..)

theorem Inv.waiting (h : Inv s n u) : s.driver.waiting = s.delivered.drop n := by
  have hle := h.le
  have hbound := h.bound
  have hcount : (s.driver.rxUsed.idx - s.driver.rxLastUsed).toNat = u - n := by
    rw [h.used, h.last, toNat_sub_ofNat hle (by omega)]
  have hsame : ∀ k, s.driver.frameAt (s.driver.rxLastUsed.toNat + k) = s.driver.frameAt (n + k) := by
    intro k
    have hslot : (s.driver.rxLastUsed.toNat + k) % 256 = (n + k) % 256 := by
      rw [h.last, UInt16.toNat_ofNat']
      omega
    rw [NetDriver.frameAt, NetDriver.frameAt, NetDriver.usedId, NetDriver.usedId, hslot]
  apply ext_getElem?
  intro k
  rw [NetDriver.waiting, hcount, getElem?_map, getElem?_drop]
  rcases Nat.lt_or_ge k (u - n) with hk | hk
  · rw [getElem?_range' hk, Nat.one_mul, Option.map_some, hsame, h.frames (n + k) (by omega) (by omega)]
  · rw [getElem?_eq_none (by rw [length_range']; exact hk), getElem?_eq_none (by rw [h.delivered]; omega)]
    rfl

/-- Whatever the device and the clients do, the frames in the replies, those that wait in the driver and those that wait in
    the used ring are the frames of the device, in their order and each once; and no interrupt makes the driver panic. -/
theorem frames_in_order {s : Net} (h : Reach (fun s e t => Net.step s e = some t) (fun _ _ => True) Net.new s) :
    framesOf s.replies ++ (s.driver.rxPending ++ s.driver.waiting) = s.delivered ∧
      ∀ status, (s.driver.handleIrq status).isSome := by
  obtain ⟨n, u, hinv⟩ : ∃ n u, Inv s n u :=
    h.invariant (I := fun s => ∃ n u, Inv s n u) ⟨0, 0, inv_new⟩ fun s e t ⟨_, _, hs⟩ _ hstep => hs.step hstep
  refine ⟨?_, fun status => ?_⟩
  · rw [← append_assoc, hinv.out, hinv.waiting, take_append_drop]
  · obtain ⟨driver, n', hirq, -⟩ := hinv.handleIrq status
    rw [hirq]
    rfl

/-- The device fills two buffers in the other order, and the driver reads the first frame. -/
theorem frames_in_order_two : ∃ s, Reach.run Net.step (fun _ _ => true) Net.new
    [.take, .take, .complete 1 [1], .complete 0 [2], .message [0xFF] 1 0,
      .message (SchemeProxy.encodeRequest (.read 1 9)) 0 0] =
      some s ∧ (framesOf s.replies, s.driver.rxPending) = ([[1]], [[2]]) ∧
      framesOf s.replies ++ (s.driver.rxPending ++ s.driver.waiting) = s.delivered := by
  exact Reach.exists_run_and (by decide +kernel) fun s hs hrest =>
    ⟨hrest, (frames_in_order (hs.mono fun _ _ _ => trivial)).1⟩

end Moxide.VirtioNet

import Moxide.Lib.Reach
import Moxide.Lib.Ring
import Moxide.Swap

/-! Swapped-out pages never come back: `decode_pte` takes the marker `0xAB` for a present page. -/

namespace Moxide.Swap
open Lib List Option State
open Bitmap (test test_clear)

theorem decodePte_eq_none (pte : UInt64) : SwapSlot.decodePte pte = none := by
  unfold SwapSlot.decodePte
  split
  · rfl
  rename_i hpresent
  have hmarker : pte &&& 0xFF ≠ 0xAB := by
    intro h
    have hbit : pte &&& 0xFF &&& 1 = pte &&& 1 := UInt64.and_assoc pte 0xFF 1
    rw [h, not_ne_iff.mp hpresent] at hbit
    exact absurd hbit (by decide)
  rw [if_pos hmarker]

theorem toNat_byteOffset (s : SwapSlot) : s.byteOffset.toNat = s.slot.toNat * 4096 := by
  have hlt := s.slot.toNat_lt
  rw [SwapSlot.byteOffset, UInt64.toNat_mul, UInt32.toNat_toUInt64]
  exact Nat.mod_eq_of_lt (by change _ * 4096 < 2 ^ 64; omega)

theorem byteOffset_ne {a b : SwapSlot} (h : a.slot ≠ b.slot) : a.byteOffset ≠ b.byteOffset := by
  intro heq
  have hnat := congrArg UInt64.toNat heq
  rw [toNat_byteOffset, toNat_byteOffset] at hnat
  exact h (UInt32.toNat_inj.mp (by omega))

theorem scan_spec {freeMap : List UInt64} {n start idx : Nat} (deltas : List Nat)
    (h : SwapDevice.scan freeMap n start deltas = some idx) : idx ≠ 0 ∧ test freeMap idx ∧ (0 < n → idx < n) := by
  induction deltas with
  | nil => cases h
  | cons delta rest ih =>
    unfold SwapDevice.scan at h
    dsimp only at h
    split at h
    · exact ih h
    rename_i hne
    split at h
    · exact ih h
    rename_i w hw
    split at h
    · rename_i hbit
      obtain rfl := some.inj h
      refine ⟨hne, ?_, fun hn => Nat.mod_lt _ hn⟩
      rw [test, hw]
      exact (Mask.and_bit_ne_zero (Nat.mod_lt _ (by decide)) w).mp hbit
    · exact ih h

theorem allocSlot_spec {d d' : SwapDevice} {slot : UInt32} (h : d.allocSlot = some (slot, d')) :
    slot ≠ 0 ∧ test d.freeMap slot.toNat ∧ d'.freeMap = Bitmap.clear d.freeMap slot.toNat ∧
      d'.store = d.store ∧ slot.toNat < d.numSlots.toNat ∧ d'.numSlots = d.numSlots ∧
      d'.freeCount.toNat + 1 = d.freeCount.toNat := by
  unfold SwapDevice.allocSlot at h
  split at h
  · cases h
  rename_i hcount
  obtain ⟨idx, hscan, heq⟩ := map_eq_some_iff.mp h
  cases heq
  obtain ⟨hne, htest, hlt⟩ := scan_spec _ hscan
  have hn : 0 < d.numSlots.toNat := by
    refine Nat.pos_of_ne_zero fun h0 => ?_
    rw [h0] at hscan
    cases hscan
  have hidx : (UInt32.ofNat idx).toNat = idx :=
    UInt32.toNat_ofNat_of_lt' (lt_trans (hlt hn) d.numSlots.toNat_lt)
  refine ⟨fun h0 => hne ?_, ?_, ?_, rfl, by rw [hidx]; exact hlt hn, rfl, ?_⟩
  · rw [← hidx, h0]
    rfl
  · rw [hidx]
    exact htest
  · rw [hidx]
  · have hpos : 0 < d.freeCount.toNat := Nat.pos_of_ne_zero fun h0 => hcount (UInt32.toNat_inj.mp h0)
    have hsub : (d.freeCount - 1).toNat = d.freeCount.toNat - 1 :=
      UInt32.toNat_sub_of_le _ _ (UInt32.le_iff_toNat_le.mpr hpos)
    rw [hsub]
    omega

theorem test_freeSlot_ne {d : SwapDevice} {slot : UInt32} {j : Nat} (hne : slot.toNat ≠ j) :
    test (d.freeSlot slot).freeMap j = test d.freeMap j := by
  unfold SwapDevice.freeSlot
  split
  · rfl
  · split
    · exact Bitmap.test_set_ne _ hne
    · rfl

theorem store_freeSlot (d : SwapDevice) (slot : UInt32) : (d.freeSlot slot).store = d.store := by
  unfold SwapDevice.freeSlot
  split
  · rfl
  · split
    · rfl
    · rfl

theorem store_writePage_ne {d : SwapDevice} {off o : UInt64} {page : Page} (h : o ≠ off) :
    (d.writePage off page).store o = d.store o := by
  simp only [SwapDevice.writePage, Function.update_of_ne h]

theorem store_writePage {d : SwapDevice} {off : UInt64} {page : Page} : (d.writePage off page).store off = page := by
  simp only [SwapDevice.writePage, Function.update_self]

/-! ### Pages on devices -/

structure Evicted.On (r : Evicted) (d : SwapDevice) : Prop where
  taken : test d.freeMap r.slot.slot.toNat = false
  page : d.store r.slot.byteOffset = r.page

structure Inv {μ : Type} (s : State μ) : Prop where
  length : s.devs.length = MAX_SWAP_DEVS
  onDevice : ∀ r ∈ s.evicted, ∃ d, s.device r.slot.dev.toNat = some d ∧ r.On d
  distinct : s.evicted.Pairwise fun r r' => r.slot ≠ r'.slot

section Steps
variable {μ : Type} {M : Tables μ} {s t : State μ}

variable {d : SwapDevice} {i : Nat}

theorem inv_boot (satp : UInt32 → UInt64) (bytes : UInt64 → Page) (m : μ) : Inv (State.boot satp bytes m) :=
  ⟨rfl, (fun r hr => by cases hr), List.Pairwise.nil⟩

theorem Inv.congr (h : Inv s) (hdevs : t.devs = s.devs) (hevicted : t.evicted = s.evicted) : Inv t := by
  refine ⟨hdevs ▸ h.length, fun r hr => ?_, hevicted ▸ h.distinct⟩
  rw [hevicted] at hr
  obtain ⟨d, hd, hon⟩ := h.onDevice r hr
  exact ⟨d, by rw [device, hdevs]; exact hd, hon⟩

theorem device_eq_some : s.device i = some d ↔ s.devs[i]? = some (some d) := by
  unfold device
  cases s.devs[i]? with
  | none => simp
  | some o => simp

theorem device_setDevice_ne {j : Nat} {d : Option SwapDevice} (h : i ≠ j) : (s.setDevice i d).device j = s.device j := by
  rw [device, setDevice, getElem?_set_ne h, device]

theorem device_setDevice {d : Option SwapDevice} (h : i < s.devs.length) : (s.setDevice i d).device i = d := by
  rw [device, setDevice, getElem?_set_self h]
  rfl

theorem lt_of_device (h : s.device i = some d) : i < s.devs.length :=
  (List.getElem?_eq_some_iff.mp (device_eq_some.mp h)).1

theorem Inv.setDevice (h : Inv s) (hi : i < s.devs.length)
    (hkeep : ∀ r ∈ s.evicted, r.slot.dev.toNat = i → r.On d) : Inv (s.setDevice i (some d)) := by
  refine ⟨by rw [State.setDevice, length_set]; exact h.length, fun r hr => ?_, h.distinct⟩
  by_cases hdev : r.slot.dev.toNat = i
  · exact ⟨d, by rw [hdev]; exact device_setDevice hi, hkeep r hr hdev⟩
  · obtain ⟨d', hd', hon⟩ := h.onDevice r hr
    exact ⟨d', by rw [device_setDevice_ne (Ne.symm hdev)]; exact hd', hon⟩

theorem Inv.on_of_device (h : Inv s) (hd : s.device i = some d) {r : Evicted} (hr : r ∈ s.evicted)
    (hdev : r.slot.dev.toNat = i) : r.On d := by
  obtain ⟨d', hd', hon⟩ := h.onDevice r hr
  rw [hdev, hd] at hd'
  exact some.inj hd' ▸ hon

theorem Inv.addSwapDevice {store : UInt64 → Page} {header : Page} {numSlots : UInt32} (h : Inv s) :
    Inv (s.addSwapDevice store header numSlots).2 := by
  unfold State.addSwapDevice
  split
  · exact h
  split
  · exact h
  split
  · exact h
  rename_i idx hidx
  obtain ⟨hlt, hnone, -⟩ := findIdx?_eq_some_iff_getElem.mp hidx
  have hget : s.devs[idx]? = some none := by
    rw [getElem?_eq_getElem hlt, isNone_iff_eq_none.mp hnone]
  have hset := h.setDevice (d := SwapDevice.new (Function.update store 0 header) numSlots) hlt fun r hr hdev => by
    obtain ⟨d, hd, -⟩ := h.onDevice r hr
    rw [hdev, device_eq_some, hget] at hd
    cases hd
  exact hset.congr rfl rfl

theorem Inv.removeSwapDevice {dev : UInt8} (h : Inv s) : Inv (s.removeSwapDevice dev).2 := by
  unfold State.removeSwapDevice
  split
  · exact h
  refine ⟨by simp only [State.setDevice, length_set]; exact h.length, fun r hr => ?_, h.distinct.sublist filter_sublist⟩
  obtain ⟨hr, hdev⟩ := mem_filter.mp hr
  obtain ⟨d, hd, hon⟩ := h.onDevice r hr
  have hne : dev.toNat ≠ r.slot.dev.toNat := fun heq => of_decide_eq_true hdev (UInt8.toNat_inj.mp heq.symm)
  exact ⟨d, (device_setDevice_ne hne).trans hd, hon⟩

theorem allocSlotIn_spec (devs : List (Option SwapDevice)) :
    ∀ {i : Nat} {slot : SwapSlot} {devs' : List (Option SwapDevice)},
    State.allocSlotIn i devs = some (slot, devs') → ∃ k d d', devs[k]? = some (some d) ∧ d.allocSlot = some (slot.slot, d') ∧
      devs' = devs.set k (some d') ∧ slot.dev = UInt8.ofNat (i + k) := by
  induction devs with
  | nil =>
    intro i slot devs' h
    cases h
  | cons o rest ih =>
    intro i slot devs' h
    -- the search goes on behind this device
    have hrest : ∀ {o : Option SwapDevice}, (allocSlotIn (i + 1) rest).map (fun r => (r.1, o :: r.2)) = some (slot, devs') →
        ∃ k d d', (o :: rest)[k]? = some (some d) ∧ d.allocSlot = some (slot.slot, d') ∧
          devs' = (o :: rest).set k (some d') ∧ slot.dev = UInt8.ofNat (i + k) := by
      intro o h
      obtain ⟨⟨slot', devs''⟩, hrec, heq⟩ := map_eq_some_iff.mp h
      cases heq
      obtain ⟨k, d, d', hk, halloc, rfl, hdev⟩ := ih hrec
      exact ⟨k + 1, d, d', hk, halloc, rfl, by rw [hdev, add_assoc, add_comm 1]⟩
    cases o with
    | none => exact hrest h
    | some d =>
      unfold allocSlotIn at h
      split at h
      · rename_i slot' d' halloc
        cases h
        exact ⟨0, d, d', rfl, halloc, rfl, rfl⟩
      · exact hrest h

structure Fresh (s : State μ) (slot : SwapSlot) : Prop where
  taken : ∃ d, s.device slot.dev.toNat = some d ∧ test d.freeMap slot.slot.toNat = false
  unused : ∀ r ∈ s.evicted, r.slot ≠ slot

theorem Inv.allocSlotIn {slot : SwapSlot} {devs : List (Option SwapDevice)} (h : Inv s)
    (halloc : State.allocSlotIn 0 s.devs = some (slot, devs)) :
    Inv { s with devs := devs } ∧ Fresh { s with devs := devs } slot := by
  obtain ⟨k, d, d', hk, hslot, rfl, hdev⟩ := allocSlotIn_spec s.devs halloc
  obtain ⟨-, hfree, hmap, hstore, -⟩ := allocSlot_spec hslot
  have hlt : k < s.devs.length := (List.getElem?_eq_some_iff.mp hk).1
  have hnat : slot.dev.toNat = k := by
    have hlen := h.length
    rw [hdev, zero_add]
    exact UInt8.toNat_ofNat_of_lt' (lt_of_lt_of_le hlt (by rw [hlen]; decide))
  have hdk : s.device k = some d := device_eq_some.mpr hk
  refine ⟨h.setDevice hlt fun r hr hrk => ?_, ⟨d', ?_, ?_⟩, fun r hr heq => ?_⟩
  · obtain ⟨htaken, hpage⟩ := h.on_of_device hdk hr hrk
    exact ⟨by rw [hmap, test_clear, htaken, Bool.false_and], by rw [hstore, hpage]⟩
  · rw [hnat]
    exact device_setDevice hlt
  · rw [hmap, test_clear]
    simp
  · have htaken := (h.on_of_device hdk hr (by rw [heq, hnat])).taken
    rw [heq, hfree] at htaken
    cases htaken

theorem slot_ne {a b : SwapSlot} (hne : a ≠ b) (hdev : a.dev.toNat = b.dev.toNat) : a.slot ≠ b.slot := by
  intro heq
  exact hne (by rw [SwapSlot.mk.injEq]; exact ⟨UInt8.toNat_inj.mp hdev, heq⟩)

theorem Inv.writeOut {e : LruEntry} {slot : SwapSlot} {ioOk r : Bool} (h : Inv s) (hfresh : Fresh s slot)
    (hw : s.writeOut M e slot ioOk = some (r, t)) : Inv t := by
  obtain ⟨d, hd, htaken⟩ := hfresh.taken
  have hlt := lt_of_device hd
  unfold State.writeOut at hw
  rw [hd] at hw
  dsimp only at hw
  split at hw
  · obtain ⟨m, -, heq⟩ := map_eq_some_iff.mp hw
    cases heq
    have hset := h.setDevice (d := d.writePage slot.byteOffset (s.bytes e.pa)) hlt fun r hr hdev => by
      obtain ⟨hold, hpage⟩ := h.on_of_device hd hr hdev
      have hne := byteOffset_ne (slot_ne (hfresh.unused r hr) hdev)
      exact ⟨hold, by rw [store_writePage_ne hne, hpage]⟩
    refine ⟨hset.length, fun r hr => ?_, pairwise_cons.mpr ⟨fun r hr => Ne.symm (hfresh.unused r hr), h.distinct⟩⟩
    rcases mem_cons.mp hr with rfl | hr
    · exact ⟨_, device_setDevice hlt, htaken, store_writePage⟩
    · exact hset.onDevice r hr
  · cases hw
    have hset := h.setDevice (d := d.freeSlot slot.slot) hlt fun r hr hdev => by
      obtain ⟨hold, hpage⟩ := h.on_of_device hd hr hdev
      have hne := slot_ne (hfresh.unused r hr) hdev
      refine ⟨?_, by rw [store_freeSlot, hpage]⟩
      rw [test_freeSlot_ne fun heq => hne (UInt32.toNat_inj.mp heq.symm)]
      exact hold
    exact hset.congr rfl rfl

theorem Inv.swapoutOne {ioOk r : Bool} (h : Inv s) (hs : s.swapoutOne M ioOk = some (r, t)) : Inv t := by
  unfold State.swapoutOne at hs
  split at hs
  · cases hs
    exact h
  split at hs
  · cases hs
    exact h
  split at hs
  · cases hs
    exact h.congr rfl rfl
  rename_i l l' m e hvictim
  dsimp only at hs
  split at hs
  · cases hs
    exact h.congr rfl rfl
  rename_i slot devs halloc
  obtain ⟨hinv, htaken, hunused⟩ := h.allocSlotIn halloc
  exact (hinv.congr (t := { s with devs := devs, lru := some l', mem := m, freeSlots := s.freeSlots - 1 }) rfl rfl).writeOut
    ⟨htaken, hunused⟩ hs

theorem swapin_eq (M : Tables μ) (s : State μ) (pid : UInt32) (va : UInt64) (prot : Option UInt32) (outOk readOk : Bool) :
    s.swapin M pid va prot outOk readOk = some (false, s) := by
  unfold swapin
  dsimp only
  rw [decodePte_eq_none]
  split
  · rfl
  · rfl

theorem Inv.step {e : Event μ} (h : Inv s) (hs : s.step M e = some t) : Inv t := by
  cases e with
  | init | track pa pid va | untrack pa | process pid satp | write pa page | elsewhere m =>
    cases hs
    exact h.congr rfl rfl
  | addDevice store header numSlots =>
    cases hs
    exact h.addSwapDevice
  | removeDevice dev =>
    cases hs
    exact h.removeSwapDevice
  | swapout ioOk =>
    obtain ⟨⟨r, u⟩, hout, rfl⟩ := map_eq_some_iff.mp hs
    exact h.swapoutOne hout
  | swapin pid va prot outOk readOk =>
    obtain ⟨⟨r, u⟩, hin, rfl⟩ := map_eq_some_iff.mp hs
    rw [swapin_eq] at hin
    cases hin
    exact h

end Steps

/-- Every page that is swapped out has a slot of its own on a device, and the slot holds the page. -/
def State.Stored {μ : Type} (s : State μ) : Prop :=
  (∀ r ∈ s.evicted, ∃ d, s.device r.slot.dev.toNat = some d ∧ d.store r.slot.byteOffset = r.page) ∧
    s.evicted.Pairwise fun r r' => r.slot ≠ r'.slot

/-- With working I/O, `swapin` of the page returns true and leaves its address mapped to a frame that holds the page. -/
def State.ComesBack {μ : Type} (M : Tables μ) (s : State μ) (r : Evicted) : Prop :=
  ∀ prot, ∃ t pa, s.swapin M r.pid r.va prot true true = some (true, t) ∧
    M.virtToPhys t.mem (t.satp r.pid) r.va = some pa ∧ t.bytes pa = r.page

/-- In every state of every run each swapped-out page is stored in a slot of its own, and the pages of live processes come
    back just when none of them is swapped out. -/
theorem swapped_intact_iff {μ : Type} (M : Tables μ) {satp : UInt32 → UInt64} {bytes : UInt64 → Page} {m : μ} {s : State μ}
    (h : Reach (fun s e t => s.step M e = some t) (fun _ _ => True) (State.boot satp bytes m) s) :
    s.Stored ∧ (((∀ r ∈ s.evicted, s.satp r.pid ≠ 0 → s.ComesBack M r) ∧ s.Stored) ↔ ∀ r ∈ s.evicted, s.satp r.pid = 0) := by
  have hinv : Inv s := Reach.invariant (inv_boot satp bytes m) (fun _ _ _ hs _ hstep => hs.step hstep) h
  have hstored : s.Stored := by
    refine ⟨fun r hr => ?_, hinv.distinct⟩
    obtain ⟨d, hd, hon⟩ := hinv.onDevice r hr
    exact ⟨d, hd, hon.page⟩
  refine ⟨hstored, fun ⟨hback, _⟩ r hr => ?_, fun hdead => ⟨fun r hr hlive => absurd (hdead r hr) hlive, hstored⟩⟩
  by_contra hlive
  obtain ⟨t, pa, hin, -⟩ := hback r hr hlive none
  rw [swapin_eq] at hin
  cases hin

/-! ### A page swapped out -/

structure Raw where
  free : List UInt64
  ptes : List ((UInt64 × UInt64) × UInt64)
  deriving DecidableEq, Repr

namespace Raw

def set (m : Raw) (cr3 va pte : UInt64) : Raw := { m with ptes := ((cr3, va), pte) :: m.ptes }

def get (m : Raw) (cr3 va : UInt64) : UInt64 := (m.ptes.lookup (cr3, va)).getD 0

theorem get_set (m : Raw) (cr3 va pte : UInt64) : (m.set cr3 va pte).get cr3 va = pte := by
  simp [get, set]

end Raw

/-- Entries with the address in bits 12 to 51, bit 0 for present and bit 5 for accessed. -/
def rawTables : Tables Raw where
  allocPage m := match m.free with
    | [] => some (none, m)
    | pa :: rest => some (some pa, { m with free := rest })
  freePage m pa := if pa ∈ m.free then none else some { m with free := pa :: m.free }
  mapPage m cr3 va pa _ := some (m.set cr3 va (pa ||| 1))
  unmapPage m cr3 va := m.set cr3 va 0
  virtToPhys m cr3 va :=
    if m.get cr3 va &&& 1 = 0 then none else some (m.get cr3 va &&& 0x000FFFFFFFFFF000)
  readPte := Raw.get
  setPte := Raw.set
  pteAccessed m cr3 va := m.get cr3 va &&& 0x20 ≠ 0
  clearAccessed m cr3 va := m.set cr3 va (m.get cr3 va &&& ~~~0x20)

/-- Process 7 has root `0x1000`; a page of it at `0x40000` is in frame `0x8000`, accessed. -/
def rawBoot : State Raw :=
  State.boot (fun pid => if pid = 7 then 0x1000 else 0) (fun _ _ => 0x5A) ⟨[0x9000], [((0x1000, 0x40000), 0x8021)]⟩

def swapCalls : List (Event Raw) :=
  [.init, .addDevice (fun _ _ => 0) (fun _ => 0) 16, .track 0x8000 7 0x40000, .swapout true]

def swappedOut : Option (State Raw) := Reach.run (State.step rawTables) (fun _ _ => true) rawBoot swapCalls

theorem swappedOut_evicted : swappedOut.map (fun s => (s.evicted.map fun r => (r.pid, r.va, r.slot), s.mem.free, s.satp 7)) =
    some ([(7, 0x40000, ⟨0, 1⟩)], [0x8000, 0x9000], 0x1000) := by
  decide +kernel

theorem swappedOut_reach {s : State Raw} (h : swappedOut = some s) :
    Reach (fun s e t => s.step rawTables e = some t) (fun _ _ => True) rawBoot s :=
  (Reach.of_run swapCalls .start h).mono fun _ _ _ => trivial

theorem swapped_intact_iff_one : ∃ s, swappedOut = some s ∧ s.evicted.length = 1 ∧ s.Stored ∧
    (((∀ r ∈ s.evicted, s.satp r.pid ≠ 0 → s.ComesBack rawTables r) ∧ s.Stored) ↔ ∀ r ∈ s.evicted, s.satp r.pid = 0) := by
  obtain ⟨s, hs, hend⟩ := map_eq_some_iff.mp swappedOut_evicted
  simp only [Prod.mk.injEq] at hend
  have hlen := congrArg List.length hend.1
  rw [length_map] at hlen
  exact ⟨s, hs, hlen, swapped_intact_iff rawTables (swappedOut_reach hs)⟩

theorem swappedOut_alloc {s : State Raw} (hfree : s.mem.free = [0x8000, 0x9000]) :
    ∃ pa m, rawTables.allocPage s.mem = some (some pa, m) := by
  refine ⟨0x8000, { s.mem with free := [0x9000] }, ?_⟩
  simp only [rawTables]
  rw [hfree]

/-- Entries are stored as they are set, the process is there and there are free frames, but the page does not come back. -/
theorem page_stays_out :
    (∀ m cr3 va pte, rawTables.readPte (rawTables.setPte m cr3 va pte) cr3 va = pte) ∧ ∃ (s : State Raw) (r : Evicted),
    Reach (fun s e t => s.step rawTables e = some t) (fun _ _ => True) rawBoot s ∧ r ∈ s.evicted ∧ s.satp r.pid = 0x1000 ∧
      (∃ pa m, rawTables.allocPage s.mem = some (some pa, m)) ∧
      ∀ prot, s.swapin rawTables r.pid r.va prot true true = some (false, s) := by
  obtain ⟨s, hs, hend⟩ := map_eq_some_iff.mp swappedOut_evicted
  simp only [Prod.mk.injEq] at hend
  obtain ⟨hevicted, hfree, hsatp⟩ := hend
  obtain ⟨r, hr, hrec⟩ := map_eq_singleton_iff.mp hevicted
  obtain ⟨hpid, -⟩ := Prod.mk.injEq .. ▸ hrec
  exact ⟨Raw.get_set, s, r, swappedOut_reach hs, by rw [hr]; exact mem_cons_self, by rw [hpid]; exact hsatp,
    swappedOut_alloc hfree, fun prot => swapin_eq rawTables s r.pid r.va prot true true⟩

/-! The slots of a swap device over whole runs of `alloc_slot` and `free_slot`. -/

structure Slots where
  dev : SwapDevice
  taken : List UInt32

inductive SlotCall where
  | alloc
  | free (slot : UInt32)

namespace Slots

def step (s : Slots) : SlotCall → Option Slots
  | .alloc => some (s.dev.allocSlot.elim s fun r => ⟨r.2, r.1 :: s.taken⟩)
  | .free slot => if slot ∈ s.taken then some ⟨s.dev.freeSlot slot, s.taken.erase slot⟩ else none

def free (s : Slots) : Finset Nat := {i ∈ Finset.Ico 1 s.dev.numSlots.toNat | test s.dev.freeMap i = true}

structure Exact (n : UInt32) (s : Slots) : Prop where
  numSlots : s.dev.numSlots = n
  words : n.toNat ≤ 64 * s.dev.freeMap.length
  taken : ∀ t ∈ s.taken, 0 < t.toNat ∧ t.toNat < n.toNat
  nodup : s.taken.Nodup
  free : ∀ t : UInt32, 0 < t.toNat → t.toNat < n.toNat → (test s.dev.freeMap t.toNat = true ↔ t ∉ s.taken)
  count : s.dev.freeCount.toNat = s.free.card

variable {s : Slots} {n : UInt32}

theorem mem_free {i : Nat} : i ∈ s.free ↔ (0 < i ∧ i < s.dev.numSlots.toNat) ∧ test s.dev.freeMap i := by
  rw [free, Finset.mem_filter, Finset.mem_Ico]
  rfl

theorem exact_new (store : UInt64 → Page) (hpos : 0 < n.toNat) (hn : n.toNat ≤ 2 ^ 32 - 64) :
    Exact n ⟨.new store n, []⟩ := by
  have hwords : ((n + 63) / 64).toNat = (n.toNat + 63) / 64 := by
    change (n.toNat + 63) % 2 ^ 32 / 64 = _
    rw [Nat.mod_eq_of_lt (by omega)]
  have hbit : ∀ k < 64, Mask.has 0xFFFFFFFFFFFFFFFF k := by decide
  have htest : ∀ i, 0 < i → i < n.toNat → test (SwapDevice.new store n).freeMap i := by
    intro i hi hlt
    rw [SwapDevice.new, test_clear, test, getElem?_replicate, if_pos (by omega)]
    simp [hbit _ (Nat.mod_lt _ (by decide)), ne_of_lt hi]
  refine ⟨rfl, ?_, forall_mem_nil _, nodup_nil, fun t h0 hlt => iff_of_true (htest _ h0 hlt) not_mem_nil, ?_⟩
  · simp only [SwapDevice.new, Bitmap.clear, length_modify, length_replicate, hwords]
    omega
  · have hall : Slots.free ⟨.new store n, []⟩ = Finset.Ico 1 n.toNat :=
      Finset.filter_true_of_mem fun i hi => htest i (Finset.mem_Ico.mp hi).1 (Finset.mem_Ico.mp hi).2
    have hne : n ≠ 0 := by
      rintro rfl
      exact lt_irrefl _ hpos
    have hsub : (n - 1).toNat = n.toNat - 1 := UInt32.toNat_sub_of_le _ _ (UInt32.le_iff_toNat_le.mpr hpos)
    rw [hall, Nat.card_Ico, ← hsub]
    exact congrArg UInt32.toNat (if_neg hne)

theorem scan_none {freeMap : List UInt64} {n start : Nat} {deltas : List Nat}
    (h : SwapDevice.scan freeMap n start deltas = none) {delta : Nat} (hd : delta ∈ deltas)
    (h0 : (start + delta) % n ≠ 0) : test freeMap ((start + delta) % n) = false := by
  induction deltas with
  | nil => cases hd
  | cons d rest ih =>
    unfold SwapDevice.scan at h
    dsimp only at h
    rcases mem_cons.mp hd with rfl | hd
    · rw [if_neg h0] at h
      rw [test]
      cases hw : freeMap[(start + delta) % n / 64]? with
      | none => rfl
      | some w =>
        simp only [hw] at h
        split at h
        · cases h
        rename_i hbit
        exact Bool.eq_false_iff.mpr fun hhas => hbit ((Mask.and_bit_ne_zero (Nat.mod_lt _ (by decide)) w).mpr hhas)
    · split at h
      · exact ih h hd
      split at h
      · exact ih h hd
      split at h
      · cases h
      · exact ih h hd

/-- The scan meets every slot, wherever the hand is. -/
theorem Exact.alloc_isSome (h : Exact n s) : s.dev.allocSlot.isSome ↔ ∃ i, i ∈ s.free := by
  rw [SwapDevice.allocSlot]
  split
  · rename_i hzero
    have hcard := h.count
    rw [hzero] at hcard
    refine iff_of_false nofun ?_
    rintro ⟨i, hi⟩
    rw [Finset.card_eq_zero.mp hcard.symm] at hi
    cases hi
  rename_i hne
  have hsome : ∃ i, i ∈ s.free := by
    refine Finset.card_pos.mp (Nat.pos_of_ne_zero fun hcard => hne ?_)
    exact UInt32.toNat_inj.mp (h.count.trans hcard)
  refine iff_of_true ?_ hsome
  obtain ⟨i, hi⟩ := hsome
  obtain ⟨⟨hpos, hlt⟩, htest⟩ := mem_free.mp hi
  rw [isSome_map, isSome_iff_ne_none]
  intro hnone
  obtain ⟨delta, hdelta, hround⟩ := Ring.exists_delta s.dev.allocHand.toNat hlt
  have hfalse := scan_none hnone (mem_range.mpr hdelta) (by rw [hround]; omega)
  rw [hround, htest] at hfalse
  cases hfalse

theorem Exact.alloc (h : Exact n s) {slot : UInt32} {d : SwapDevice} (ha : s.dev.allocSlot = some (slot, d)) :
    (0 < slot.toNat ∧ slot.toNat < n.toNat) ∧ slot ∉ s.taken ∧ Exact n ⟨d, slot :: s.taken⟩ := by
  obtain ⟨hne, htest, hmap, -, hlt, hnum, hcount⟩ := allocSlot_spec ha
  rw [h.numSlots] at hlt
  have hpos : 0 < slot.toNat := Nat.pos_of_ne_zero fun h0 => hne (UInt32.toNat_inj.mp h0)
  have hnew : slot ∉ s.taken := (h.free slot hpos hlt).mp htest
  have hclear : ∀ i, test d.freeMap i ↔ slot.toNat ≠ i ∧ test s.dev.freeMap i := by
    intro i
    rw [hmap, test_clear]
    simp [and_comm]
  have hfree : Slots.free ⟨d, slot :: s.taken⟩ = s.free.erase slot.toNat := by
    ext i
    rw [Finset.mem_erase, mem_free, mem_free, hclear, hnum]
    tauto
  refine ⟨⟨hpos, hlt⟩, hnew, hnum.trans h.numSlots, ?_, ?_, nodup_cons.mpr ⟨hnew, h.nodup⟩, fun t h0 ht => ?_, ?_⟩
  · rw [hmap, Bitmap.clear, length_modify]
    exact h.words
  · exact forall_mem_cons.mpr ⟨⟨hpos, hlt⟩, h.taken⟩
  · rw [hclear, mem_cons, not_or, ← h.free t h0 ht, ne_comm, ne_eq, UInt32.toNat_inj]
  · rw [hfree, Finset.card_erase_of_mem (mem_free.mpr ⟨⟨hpos, h.numSlots ▸ hlt⟩, htest⟩), ← h.count, ← hcount]
    rfl

theorem Exact.freeSlot (h : Exact n s) {slot : UInt32} (hmem : slot ∈ s.taken) :
    Exact n ⟨s.dev.freeSlot slot, s.taken.erase slot⟩ := by
  obtain ⟨hpos, hlt⟩ := h.taken slot hmem
  have hwords := h.words
  have hlen : slot.toNat / 64 < s.dev.freeMap.length := by omega
  have htest : test s.dev.freeMap slot.toNat = false :=
    Bool.eq_false_iff.mpr fun ht => (h.free slot hpos hlt).mp ht hmem
  have hdev : s.dev.freeSlot slot = { s.dev with
      freeMap := Bitmap.set s.dev.freeMap slot.toNat, freeCount := s.dev.freeCount + 1 } := by
    rw [SwapDevice.freeSlot, getElem?_eq_getElem hlen]
    refine if_pos (by_contra fun hbit => ?_)
    rw [test, getElem?_eq_getElem hlen] at htest
    exact absurd ((Mask.and_bit_ne_zero (Nat.mod_lt _ (by decide)) _).mp hbit) (Bool.eq_false_iff.mp htest)
  have hset : ∀ i, test (Bitmap.set s.dev.freeMap slot.toNat) i ↔
      i = slot.toNat ∨ test s.dev.freeMap i := by
    intro i
    by_cases hi : i = slot.toNat
    · simp [hi, Bitmap.test_set_self hlen]
    · simp [hi, Bitmap.test_set_ne _ (Ne.symm hi)]
  have hfree : Slots.free ⟨s.dev.freeSlot slot, s.taken.erase slot⟩ = insert slot.toNat s.free := by
    ext i
    rw [Finset.mem_insert, mem_free, mem_free, hdev, hset]
    have := h.numSlots ▸ hlt
    constructor
    · tauto
    · rintro (rfl | hi)
      · exact ⟨⟨hpos, this⟩, .inl rfl⟩
      · exact ⟨hi.1, .inr hi.2⟩
  have hcard : s.free.card ≤ n.toNat - 1 := by
    rw [← h.numSlots]
    exact (Finset.card_filter_le _ _).trans (Nat.card_Ico ..).le
  have hmax := n.toNat_lt
  refine ⟨by rw [hdev]; exact h.numSlots, ?_, fun t ht => h.taken t (mem_of_mem_erase ht), h.nodup.erase slot,
    fun t h0 ht => ?_, ?_⟩
  · rw [hdev]
    simpa [Bitmap.set] using hwords
  · rw [hdev, hset, h.free t h0 ht, h.nodup.mem_erase_iff, UInt32.toNat_inj]
    tauto
  · rw [hfree, Finset.card_insert_of_notMem (by simp [mem_free, htest]), ← h.count, hdev]
    rw [UInt32.toNat_add, Nat.mod_eq_of_lt]
    · rfl
    · rw [h.count]
      change _ + 1 < 2 ^ 32
      omega

theorem Exact.step {t : Slots} (h : Exact n s) {c : SlotCall} (hs : s.step c = some t) : Exact n t := by
  cases c with
  | alloc =>
    cases hs
    cases ha : s.dev.allocSlot with
    | none => exact h
    | some r => exact (h.alloc ha).2.2
  | free slot =>
    rw [Slots.step] at hs
    split at hs
    · cases hs
      exact h.freeSlot ‹_›
    · cases hs

/-- In every run that frees only slots that are allocated, the counter is the number of free bits, and a slot is returned
    whenever one is free, one that is not allocated. -/
theorem slots_exact (store : UInt64 → Page) (n : UInt32) (hpos : 1 ≤ n.toNat) (hn : n.toNat ≤ 2 ^ 32 - 64) {s : Slots}
    (h : Reach (fun s c t => s.step c = some t) (fun _ _ => True) ⟨.new store n, []⟩ s) :
    s.dev.freeCount.toNat = ((Finset.Ico 1 n.toNat).filter fun i => test s.dev.freeMap i = true).card ∧
    (∀ slot d, s.dev.allocSlot = some (slot, d) → (1 ≤ slot.toNat ∧ slot.toNat < n.toNat) ∧ slot ∉ s.taken) ∧
    (s.dev.allocSlot.isSome = true ↔ ∃ slot : UInt32, (1 ≤ slot.toNat ∧ slot.toNat < n.toNat) ∧ slot ∉ s.taken) := by
  have hex : Exact n s := h.invariant (exact_new store hpos hn) fun _ _ _ hs _ hstep => hs.step hstep
  refine ⟨?_, fun slot d ha => ⟨(hex.alloc ha).1, (hex.alloc ha).2.1⟩, ?_⟩
  · rw [hex.count, Slots.free, hex.numSlots]
  · rw [hex.alloc_isSome]
    constructor
    · rintro ⟨i, hi⟩
      obtain ⟨⟨h0, hlt⟩, htest⟩ := mem_free.mp hi
      rw [hex.numSlots] at hlt
      have hi : (UInt32.ofNat i).toNat = i := UInt32.toNat_ofNat_of_lt' (lt_trans hlt n.toNat_lt)
      refine ⟨UInt32.ofNat i, by rw [hi]; exact ⟨h0, hlt⟩, (hex.free _ (by rwa [hi]) (by rwa [hi])).mp ?_⟩
      rwa [hi]
    · rintro ⟨slot, ⟨h0, hlt⟩, hnew⟩
      exact ⟨slot.toNat, mem_free.mpr ⟨⟨h0, hex.numSlots ▸ hlt⟩, (hex.free slot h0 hlt).mpr hnew⟩⟩

/-- All three slots of a device are taken, and the second is freed. -/
theorem slots_exact_three : ∃ s, Reach.run Slots.step (fun _ _ => true) ⟨.new (fun _ _ => 0) 4, []⟩
    [.alloc, .alloc, .alloc, .free 2] = some s ∧ s.taken = [3, 1] ∧ s.dev.allocSlot.isSome = true := by
  refine Reach.exists_run_and (by decide +kernel) fun s hs htaken => ⟨htaken, ?_⟩
  refine (slots_exact (fun _ _ => 0) 4 (by decide) (by decide) (hs.mono fun _ _ _ => trivial)).2.2.mpr ⟨2, by decide, ?_⟩
  rw [htaken]
  decide

end Slots

end Moxide.Swap

import Moxide.Theorems.Tcp.Unacked

/-! The passive open. `receive` looks a segment's connection up among the slots only, not in the backlogs. -/

namespace Moxide.Tcp
open Lib List Option

variable {net net' : Net} {c L : TcpConn} {l : Nat} {a b : Option TcpConn} {idx : Nat} {ourIp : UInt32}

theorem carry_toNat (s : UInt32) : ((s &&& (0xFFFF : UInt32)) + (s >>> 16)).toNat = s.toNat % 65536 + s.toNat / 65536 := by
  have hs := s.toNat_lt
  rw [UInt32.toNat_add, UInt32.toNat_and, UInt32.toNat_shiftRight, Nat.shiftRight_eq_div_pow,
    show (0xFFFF : UInt32).toNat = 2 ^ 16 - 1 from rfl, Nat.and_two_pow_sub_one_eq_mod,
    show (16 : UInt32).toNat % 32 = 16 from rfl]
  omega

theorem shiftRight_eq_zero_iff (s : UInt32) : s >>> 16 = 0 ↔ s.toNat / 65536 = 0 := by
  rw [← UInt32.toNat_inj, UInt32.toNat_shiftRight, Nat.shiftRight_eq_div_pow,
    show (16 : UInt32).toNat % 32 = 16 from rfl]
  rfl

theorem foldCarry_done (sum : UInt32) : foldCarry 3 sum >>> 16 = 0 := by
  have hlt := sum.toNat_lt
  have h1 := carry_toNat sum
  have h2 := carry_toNat ((sum &&& (0xFFFF : UInt32)) + (sum >>> 16))
  have h3 := carry_toNat (((sum &&& (0xFFFF : UInt32)) + (sum >>> 16) &&& (0xFFFF : UInt32)) +
    (((sum &&& (0xFFFF : UInt32)) + (sum >>> 16)) >>> 16))
  simp only [foldCarry]
  split
  · split
    · split
      · rw [shiftRight_eq_zero_iff]
        omega
      · rename_i h
        exact not_not.mp h
    · rename_i h
      exact not_not.mp h
  · rename_i h
    exact not_not.mp h

/-! ### What a segment from a new peer does to the table -/

/-- A slot after some segments from a peer that no slot is connected to: the same connection, with at most
    half-open connections added to its backlog. -/
inductive Slot : Option TcpConn → Option TcpConn → Prop where
  | none : Slot none none
  | some (c : TcpConn) (ext : List TcpConn) (h : ∀ e ∈ ext, e.state = .synReceived) :
      Slot (some c) (some { c with backlog := c.backlog ++ ext })

theorem Slot.refl : ∀ a : Option TcpConn, Slot a a
  | .none => .none
  | .some c => by
    have h := Slot.some c [] (by simp)
    cases c
    rw [append_nil] at h
    exact h

theorem Slot.trans {d : Option TcpConn} (h₁ : Slot a b) (h₂ : Slot b d) : Slot a d := by
  cases h₁ with
  | none => exact h₂
  | some c ext hext =>
    cases h₂ with
    | some _ ext' hext' =>
      have hall : ∀ e ∈ ext ++ ext', e.state = .synReceived := by
        intro e he
        rcases mem_append.mp he with he | he
        · exact hext e he
        · exact hext' e he
      simpa [append_assoc] using Slot.some c (ext ++ ext') hall

theorem Slot.isConnTo (h : Slot a b) (p : UInt16) (ip : UInt32) (rport : UInt16) :
    isConnTo p ip rport b = isConnTo p ip rport a := by
  cases h <;> rfl

def Grown (net net' : Net) : Prop := List.Forall₂ Slot net.conns net'.conns

theorem Grown.refl (net : Net) : Grown net net := forall₂_same.mpr fun a _ => Slot.refl a

theorem Grown.trans {net'' : Net} (h₁ : Grown net net') (h₂ : Grown net' net'') : Grown net net'' := by
  refine forall₂_iff_get.mpr ⟨h₁.length_eq.trans h₂.length_eq, fun i hi hi'' => ?_⟩
  have hi' : i < net'.conns.length := h₁.length_eq ▸ hi
  exact ((forall₂_iff_get.mp h₁).2 i hi hi').trans ((forall₂_iff_get.mp h₂).2 i hi' hi'')

def NewPeer (net : Net) (p : UInt16) (ip : UInt32) (rport : UInt16) : Prop :=
  ∀ slot ∈ net.conns, isConnTo p ip rport slot = false

theorem NewPeer.grown {p : UInt16} {ip : UInt32} {rport : UInt16} (h : NewPeer net p ip rport)
    (hg : Grown net net') : NewPeer net' p ip rport := by
  intro slot hslot
  obtain ⟨i, rfl⟩ := mem_iff_get.mp hslot
  have hi₀ : i.1 < net.conns.length := by rw [hg.length_eq]; exact i.2
  have hs := (forall₂_iff_get.mp hg).2 i.1 hi₀ i.2
  rw [hs.isConnTo p ip rport]
  exact h _ (List.get_mem _ _)

theorem Grown.conn? (hg : Grown net net') (h : net.conn? idx = some c) :
    ∃ ext, net'.conn? idx = some { c with backlog := c.backlog ++ ext } ∧ ∀ e ∈ ext, e.state = .synReceived := by
  obtain ⟨hi, hc⟩ := List.getElem?_eq_some_iff.mp (conn?_eq_some.mp h)
  have hi' : idx < net'.conns.length := hg.length_eq ▸ hi
  have hs := (forall₂_iff_get.mp hg).2 idx hi hi'
  simp only [get_eq_getElem, hc] at hs
  generalize hb : net'.conns[idx] = b at hs
  cases hs with
  | some _ ext hext =>
    refine ⟨ext, conn?_eq_some.mpr ?_, hext⟩
    rw [getElem?_eq_getElem hi', hb]

theorem pushBacklog_grown {lidx : Nat} {l e : TcpConn} (hl : net.conn? lidx = some l) (he : e.state = .synReceived) :
    Grown net (net.setConn lidx (some { l with backlog := l.backlog ++ [e] })) := by
  obtain ⟨hi, hc⟩ := List.getElem?_eq_some_iff.mp (conn?_eq_some.mp hl)
  refine forall₂_iff_get.mpr ⟨by simp [Net.setConn], fun i hi₁ hi₂ => ?_⟩
  simp only [Net.setConn, get_eq_getElem, getElem_set]
  split
  · rename_i heq
    subst heq
    rw [hc]
    exact Slot.some l [e] (by simpa using he)
  · exact Slot.refl _

theorem receive_grown {srcIp : UInt32} {pkt : List UInt8}
    (hnew : NewPeer net (header pkt).dstPort srcIp (header pkt).srcPort) (ourIp rand32 : UInt32) :
    Grown net (receive net ourIp rand32 srcIp pkt) := by
  rcases receive_cases net ourIp rand32 srcIp pkt with
    ⟨segs, h⟩ | ⟨idx, c, segs, seq, window, data, hc, hto, -⟩ | ⟨idx, l, segs, hl, h⟩
  · exact h ▸ Grown.refl net
  · simp [hnew _ (mem_of_conn? hc)] at hto
  · rw [h]
    exact pushBacklog_grown hl rfl

theorem allocTcpSlot_spec (conns : List (Option TcpConn)) (c : TcpConn) :
    ∃ idx, (allocTcpSlot conns).2 = idx ∧ ((allocTcpSlot conns).1.set idx (some c))[idx]? = some (some c) := by
  unfold allocTcpSlot
  split
  · rename_i idx hidx
    obtain ⟨hlt, -⟩ := findIdx?_eq_some_iff_getElem.mp hidx
    exact ⟨idx, rfl, by simp [hlt]⟩
  · exact ⟨conns.length, rfl, by simp⟩

theorem insert_conn? (net : Net) (c : TcpConn) : (net.insert c).1.conn? (net.insert c).2 = some c := by
  obtain ⟨idx, hidx, hset⟩ := allocTcpSlot_spec net.conns c
  rw [conn?_eq_some]
  show ((allocTcpSlot net.conns).1.set (allocTcpSlot net.conns).2 (some c))[(allocTcpSlot net.conns).2]? = _
  rw [hidx]
  exact hset

theorem accept_none (hL : net.conn? l = some L)
    (h : L.backlog.find? (·.state == .established) = none) : accept net l = (net, -11) := by
  have hidx : L.backlog.findIdx? (·.state == .established) = none := by
    rw [findIdx?_eq_none_iff]
    intro x hx
    simpa using find?_eq_none.mp h x hx
  simp only [accept, hL, hidx]

theorem accept_some (hL : net.conn? l = some L) (h : L.backlog.find? (·.state == .established) = some c) :
    ∃ idx : Nat, (accept net l).2 = idx ∧ (accept net l).1.conn? idx = some c := by
  obtain ⟨hst, as, bs, hb, has⟩ := find?_eq_some_iff_append.mp h
  have hidx : L.backlog.findIdx? (·.state == .established) = some as.length := by
    rw [findIdx?_eq_some_iff_getElem]
    refine ⟨by simp [hb], by simpa [hb] using hst, fun j hj => ?_⟩
    have := has as[j] (getElem_mem _)
    simpa [hb, getElem_append_left hj] using this
  have hget : L.backlog[as.length]? = some c := by simp [hb]
  simp only [accept, hL, hidx, hget]
  exact ⟨_, rfl, insert_conn? _ c⟩

/-- A passive open of `listener` with initial sequence numbers `cisn` (the client's) and `sisn` (ours) has
    completed: `accept` would return the established connection. -/
def Completes (net : Net) (l : Nat) (cisn sisn : UInt32) : Prop :=
  hasPendingAccept net l = true ∧ ∃ (idx : Nat) (c : TcpConn), (accept net l).2 = idx ∧
    (accept net l).1.conn? idx = some c ∧ c.state = .established ∧ c.rcvNxt = cisn + 1 ∧ c.sndUna = sisn + 1

theorem completes_iff (hL : net.conn? l = some L) (cisn sisn : UInt32) :
    Completes net l cisn sisn ↔ ∃ c, L.backlog.find? (·.state == .established) = some c ∧
      c.rcvNxt = cisn + 1 ∧ c.sndUna = sisn + 1 := by
  constructor
  · rintro ⟨-, idx, c, hret, hconn, -, hrcv, hsnd⟩
    cases hf : L.backlog.find? (·.state == .established) with
    | none =>
      rw [accept_none hL hf] at hret
      exact absurd hret (by simp)
    | some c' =>
      obtain ⟨idx', hret', hconn'⟩ := accept_some hL hf
      have hidx : idx = idx' := by rw [hret'] at hret; exact_mod_cast hret.symm
      subst hidx
      rw [hconn, some.injEq] at hconn'
      subst hconn'
      exact ⟨c, rfl, hrcv, hsnd⟩
  · rintro ⟨c, hf, hrcv, hsnd⟩
    have hst : c.state = .established := by simpa using find?_some hf
    obtain ⟨idx, hret, hconn⟩ := accept_some hL hf
    refine ⟨?_, idx, c, hret, hconn, hst, hrcv, hsnd⟩
    simp only [hasPendingAccept, hL, List.any_eq_true]
    exact ⟨c, mem_of_find?_eq_some hf, by simp [hst]⟩

/-! ### The handshake -/

/-- A well-formed segment: long enough, with its payload inside, and with a correct checksum. -/
structure WellFormed (ourIp srcIp : UInt32) (pkt : List UInt8) : Prop where
  length : TCP_HDR_MIN ≤ pkt.length
  dataOff : (header pkt).dataOff ≤ pkt.length
  checksum : tcpChecksum srcIp ourIp pkt = 0

/-- The two segments that a client at `ip:rport` sends to open a connection to port `p`, when the SYN was
    answered with the sequence number `isn`. -/
structure Handshake (ourIp ip : UInt32) (p rport : UInt16) (isn : UInt32) (syn ack : List UInt8) : Prop where
  synOk : WellFormed ourIp ip syn
  synPorts : (header syn).dstPort = p ∧ (header syn).srcPort = rport
  synFlags : (header syn).flags &&& SYN ≠ 0 ∧ (header syn).flags &&& ACK = 0 ∧ (header syn).flags &&& RST = 0
  ackOk : WellFormed ourIp ip ack
  ackPorts : (header ack).dstPort = p ∧ (header ack).srcPort = rport
  ackFlags : (header ack).flags &&& ACK ≠ 0 ∧ (header ack).flags &&& SYN = 0 ∧ (header ack).flags &&& RST = 0
  ackNum : (header ack).ackNum = isn + 1
  ackSeq : (header ack).seq = (header syn).seq + 1

/-- After the two segments of a handshake, `accept` returns the opened connection exactly when the listener's
    backlog began with an established connection with these very numbers before the SYN came. -/
theorem passive_open_iff {net : Net} {l : Nat} {L : TcpConn} {ourIp ip isn : UInt32} {p rport : UInt16}
    {syn ack : List UInt8} (hL : net.conn? l = some L) (_hlisten : L.state = .listen) (_hport : L.localPort = p)
    (hnew : NewPeer net p ip rport) (hs : Handshake ourIp ip p rport isn syn ack) (rand32 : UInt32) :
    Completes (receive (receive net ourIp isn ip syn) ourIp rand32 ip ack) l (header syn).seq isn ↔
      ∃ c, L.backlog.find? (·.state == .established) = some c ∧
        c.rcvNxt = (header syn).seq + 1 ∧ c.sndUna = isn + 1 := by
  obtain ⟨hp, hr⟩ := hs.synPorts
  obtain ⟨hp', hr'⟩ := hs.ackPorts
  have hg₁ : Grown net (receive net ourIp isn ip syn) := receive_grown (by rw [hp, hr]; exact hnew) ourIp isn
  have hg₂ : Grown _ (receive (receive net ourIp isn ip syn) ourIp rand32 ip ack) :=
    receive_grown (by rw [hp', hr']; exact hnew.grown hg₁) ourIp rand32
  obtain ⟨ext, hL', hext⟩ := (hg₁.trans hg₂).conn? hL
  rw [completes_iff hL']
  -- The half-open connections at the end of the backlog are not established.
  have hfind : (L.backlog ++ ext).find? (·.state == .established) =
      L.backlog.find? (·.state == .established) := by
    have hnone : ext.find? (·.state == .established) = none := by
      rw [find?_eq_none]
      intro e he
      simp [hext e he]
    rw [find?_append, hnone, or_none]
  rw [hfind]

/-- The SYN of a client at 10.0.2.3:5555 to port 80 of 10.0.2.2, with sequence number 100. -/
def clientSyn : List UInt8 := Segment.bytes ⟨0x0A000203, 5555, 0x0A000202, 80, 100, 0, SYN, 65535, []⟩

def clientAck : List UInt8 := Segment.bytes ⟨0x0A000203, 5555, 0x0A000202, 80, 101, 7001, ACK, 65535, []⟩

theorem client_handshake : Handshake 0x0A000202 0x0A000203 80 5555 7000 clientSyn clientAck where
  synOk := ⟨by decide, by decide, by decide⟩
  synPorts := by decide
  synFlags := by decide
  ackOk := ⟨by decide, by decide, by decide⟩
  ackPorts := by decide
  ackFlags := by decide
  ackNum := by decide
  ackSeq := by decide

/-- A listener on port 80 whose backlog already holds an established connection with the numbers of the
    client's handshake. -/
def busyListener : TcpConn :=
  { listener 0x0A000202 80 with
    backlog := [{ TcpConn.new with state := .established, rcvNxt := 101, sndUna := 7001 }] }

theorem passive_open_busyListener :
    Completes (receive (receive ⟨[some busyListener], []⟩ 0x0A000202 7000 0x0A000203 clientSyn)
      0x0A000202 0 0x0A000203 clientAck) 0 (header clientSyn).seq 7000 :=
  (passive_open_iff (L := busyListener) rfl rfl rfl (by unfold NewPeer; decide) client_handshake 0).mpr
    ⟨_, rfl, by decide, by decide⟩

/-- The handshake with a listener on port 80 in a table that holds nothing else does not complete. -/
theorem passive_open_fails : NewPeer ⟨[some (listener 0x0A000202 80)], []⟩ 80 0x0A000203 5555 ∧
    Handshake 0x0A000202 0x0A000203 80 5555 7000 clientSyn clientAck ∧
    ¬ Completes (receive (receive ⟨[some (listener 0x0A000202 80)], []⟩ 0x0A000202 7000 0x0A000203 clientSyn)
      0x0A000202 0 0x0A000203 clientAck) 0 (header clientSyn).seq 7000 :=
  ⟨by unfold NewPeer; decide, client_handshake, fun h => absurd h.1 (by decide)⟩

/-! ### Every run

Since no segment reaches a backlog, the connections there stay half-open in every run, and `accept` finds
none to return. -/

def HalfOpenBacklogs (net : Net) : Prop :=
  ∀ c, some c ∈ net.conns → ∀ e ∈ c.backlog, e.state = .synReceived

section
variable (h : HalfOpenBacklogs net)
include h

theorem HalfOpenBacklogs.find?_none (hL : net.conn? l = some L) : L.backlog.find? (·.state == .established) = none := by
  rw [find?_eq_none]
  intro e he
  simp [h L (mem_of_conn? hL) e he]

theorem HalfOpenBacklogs.set (idx : Nat) {slot : Option TcpConn}
    (hslot : ∀ c, slot = some c → ∀ e ∈ c.backlog, e.state = .synReceived) :
    HalfOpenBacklogs (net.setConn idx slot) := by
  intro c hc
  rcases mem_or_eq_of_mem_set hc with hc | hc
  · exact h c hc
  · exact hslot c hc.symm

theorem HalfOpenBacklogs.update {c' : TcpConn}
    (hc : net.conn? idx = some c) (hb : c'.backlog = c.backlog) : HalfOpenBacklogs (net.setConn idx (some c')) := by
  refine h.set idx fun d hd => ?_
  cases hd
  rw [hb]
  exact h c (mem_of_conn? hc)

theorem HalfOpenBacklogs.insert (hc : ∀ e ∈ c.backlog, e.state = .synReceived) : HalfOpenBacklogs (net.insert c).1 := by
  have hgrow : HalfOpenBacklogs ⟨(allocTcpSlot net.conns).1, net.sent⟩ := by
    intro d hd
    unfold allocTcpSlot at hd
    split at hd
    · exact h d hd
    · rcases mem_append.mp hd with hd | hd
      · exact h d hd
      · simp at hd
  refine hgrow.set _ fun d hd => ?_
  cases hd
  exact hc

theorem flush_halfOpen (hf : flush net ourIp idx = some net') : HalfOpenBacklogs net' := by
  unfold flush at hf
  split at hf
  · cases hf
    exact h
  rename_i c hc
  obtain ⟨⟨c', segs⟩, h₁, h₂⟩ := bind_eq_some_iff.mp hf
  cases h₂
  exact h.update hc (flush_chunks h₁).fields.2.2

theorem write_halfOpen (idx : Nat) (data : List UInt8) : HalfOpenBacklogs (write net idx data).1 := by
  unfold write
  split
  · exact h
  rename_i c hc
  refine h.update hc ?_
  unfold TcpConn.write
  split <;> rfl

theorem receive_halfOpen (ourIp rand32 srcIp : UInt32) (pkt : List UInt8) :
    HalfOpenBacklogs (receive net ourIp rand32 srcIp pkt) := by
  rcases receive_cases net ourIp rand32 srcIp pkt with
    ⟨segs, hr⟩ | ⟨idx, c, segs, seq, window, data, hc, -, hr⟩ | ⟨idx, l, segs, hl, hr⟩
  · exact hr ▸ h
  · rw [hr]
    exact h.update hc (congrArg (·.2.2) (process_kept c ..).1)
  rw [hr]
  refine h.set idx fun d hd => ?_
  cases hd
  intro e he
  rcases mem_append.mp he with he | he
  · exact h l (mem_of_conn? hl) e he
  · rw [mem_singleton.mp he]
    rfl

theorem call_halfOpen {call : Call} (hc : net.call ourIp call = some net') : HalfOpenBacklogs net' := by
  cases call with
  | receive rand32 srcIp pkt =>
    cases hc
    exact receive_halfOpen h ourIp rand32 srcIp pkt
  | connect rand32 localIp srcPort dstIp dstPort =>
    cases hc
    exact HalfOpenBacklogs.insert h (by simp [TcpConn.new])
  | listen fd localPort =>
    cases hc
    have hgrow : HalfOpenBacklogs ⟨ensureSlot net.conns fd, net.sent⟩ := by
      intro d hd
      rcases mem_append.mp hd with hd | hd
      · exact h d hd
      · exact absurd (eq_of_mem_replicate hd) (by simp)
    refine hgrow.set fd fun d hd => ?_
    cases hd
    simp [listener, TcpConn.new]
  | listenAuto localPort =>
    cases hc
    exact h.insert (by simp [listener, TcpConn.new])
  | accept listenIdx =>
    cases hc
    cases hL : net.conn? listenIdx with
    | none => simpa only [accept, hL] using h
    | some L =>
      rw [accept_none hL (h.find?_none hL)]
      exact h
  | setNodelay idx enabled =>
    cases hc
    unfold setNodelay
    split
    · exact h
    · rename_i c hc
      exact h.update hc rfl
  | write idx data =>
    cases hc
    exact write_halfOpen h idx data
  | flush idx => exact flush_halfOpen h hc
  | send idx data =>
    obtain ⟨⟨net₁, n⟩, hs, rfl⟩ := map_eq_some_iff.mp hc
    unfold send at hs
    dsimp only at hs
    split at hs
    · obtain ⟨net₂, hf, h₂⟩ := bind_eq_some_iff.mp hs
      cases h₂
      exact flush_halfOpen (write_halfOpen h idx data) hf
    · cases hs
      exact write_halfOpen h idx data
  | read idx len =>
    cases hc
    unfold read
    split
    · exact h
    · rename_i c hc
      exact h.update hc rfl
  | close idx =>
    cases hc
    unfold close
    split
    · exact h
    rename_i c hc
    refine h.set idx fun d hd => ?_
    have hb : d.backlog = c.backlog := by
      split at hd <;> cases hd <;> rfl
    rw [hb]
    exact h c (mem_of_conn? hc)
  | tickRetransmit =>
    cases hc
    exact h

end

/-- Whatever is called, the connections in a backlog stay half-open, and there is never one to accept. -/
theorem accept_never (h : Reach (fun s c t => Net.call ourIp s c = some t) (fun _ _ => True) ⟨[], []⟩ net) :
    HalfOpenBacklogs net ∧ ∀ l, hasPendingAccept net l = false ∧ (accept net l).2 < 0 := by
  have hinv : HalfOpenBacklogs net := h.invariant (I := HalfOpenBacklogs) (by intro c hc; simp at hc)
    fun s c t hs _ hc => call_halfOpen hs hc
  refine ⟨hinv, fun l => ?_⟩
  cases hL : net.conn? l with
  | none => simp [hasPendingAccept, accept, hL]
  | some L =>
    rw [accept_none hL (hinv.find?_none hL)]
    refine ⟨?_, by simp⟩
    simp only [hasPendingAccept, hL, List.any_eq_false]
    intro e he
    simp [hinv L (mem_of_conn? hL) e he]

theorem accept_never_handshake : ∃ net, Reach.run (Net.call 0x0A000202) (fun _ _ => true) ⟨[], []⟩
    [.listenAuto 80, .receive 7000 0x0A000203 clientSyn, .receive 0 0x0A000203 clientAck] = some net ∧
      (net.conn? 0).map (·.backlog.length) = some 1 ∧ (accept net 0).2 < 0 := by
  exact Reach.exists_run_and (by decide +kernel) fun net hnet hlen =>
    ⟨hlen, ((accept_never (hnet.mono fun _ _ _ => trivial)).2 0).2⟩

/-! An active open. In `SynSent` a SYN+ACK of the peer is taken with any acknowledgement number. -/

open SeqNum

structure Arrival where
  net : Net
  srcIp : UInt32
  pkt : List UInt8

structure Opening where
  net : Net
  log : List Arrival

/-- The segment `r.2.2` from `r.2.1`, when `rand32` would draw `r.1`. -/
def Opening.step (ourIp : UInt32) (s : Opening) (r : UInt32 × UInt32 × List UInt8) : Option Opening :=
  some ⟨receive s.net ourIp r.1 r.2.1 r.2.2, s.log ++ [⟨s.net, r.2.1, r.2.2⟩]⟩

/-- A SYN+ACK of the peer arrives while connection `idx` is in `SynSent`. -/
def Arrival.SynAck (a : Arrival) (idx : Nat) (e : Ends) : Prop :=
  (a.net.conn? idx).map (·.state) = some .synSent ∧
    (a.srcIp = e.remoteIp ∧ (header a.pkt).srcPort = e.remotePort ∧ (header a.pkt).dstPort = e.localPort) ∧
    (header a.pkt).flags &&& SYN ≠ 0 ∧ (header a.pkt).flags &&& ACK ≠ 0

/-- If the next segment is such a SYN+ACK, it acknowledges the SYN. -/
def Opening.AcksSyn (idx : Nat) (e : Ends) (s : Opening) (r : UInt32 × UInt32 × List UInt8) : Prop :=
  Arrival.SynAck ⟨s.net, r.2.1, r.2.2⟩ idx e → (header r.2.2).ackNum = e.isn + 1

variable {net : Net} {idx : Nat} {c : TcpConn} {ourIp : UInt32}

theorem conn?_setConn (hc : net.conn? idx = some c) (j : Nat) (d : TcpConn) :
    (net.setConn j (some d)).conn? idx = some (if j = idx then d else c) := by
  rw [conn?_eq_some] at hc ⊢
  rw [Net.setConn, getElem?_set]
  split
  · rename_i heq
    rw [if_pos (heq ▸ (List.getElem?_eq_some_iff.mp hc).1)]
  · exact hc

/-- A segment changes nothing but the backlog of a connection that it does not belong to. -/
def Arrives (ourIp srcIp : UInt32) (pkt : List UInt8) (c d : TcpConn) : Prop :=
  (∃ l, d = { c with backlog := l }) ∨ isConnTo (header pkt).dstPort srcIp (header pkt).srcPort (some c) = true ∧
    ∃ seq window data, d = (c.process ourIp seq (header pkt).ackNum (header pkt).flags window data).1

theorem receive_conn? (hc : net.conn? idx = some c) (ourIp rand32 srcIp : UInt32) (pkt : List UInt8) :
    ∃ d, (receive net ourIp rand32 srcIp pkt).conn? idx = some d ∧ Arrives ourIp srcIp pkt c d := by
  have hsame : ∃ l, c = { c with backlog := l } := ⟨c.backlog, by cases c; rfl⟩
  rcases receive_cases net ourIp rand32 srcIp pkt with
    ⟨segs, h⟩ | ⟨j, d, segs, seq, window, data, hd, hto, h⟩ | ⟨j, l, segs, hl, h⟩
  · exact ⟨c, h ▸ hc, .inl hsame⟩
  · rw [h]
    refine ⟨_, conn?_setConn hc j _, ?_⟩
    split
    · rename_i heq
      subst heq
      obtain rfl := Option.some.inj (hc.symm.trans hd)
      exact .inr ⟨hto, _, _, _, rfl⟩
    · exact .inl hsame
  rw [h]
  refine ⟨_, conn?_setConn hc j _, .inl ?_⟩
  split
  · rename_i heq
    subst heq
    obtain rfl := Option.some.inj (hc.symm.trans hl)
    exact ⟨_, rfl⟩
  · exact hsame

section
variable (seq ack : UInt32) (flags : UInt8) (window : UInt16) (data : List UInt8)

theorem sndUna_process (hst : c.state.Opened) (huna : c.sndUna = c.sndNxt) :
    (c.process ourIp seq ack flags window data).1.sndUna = c.sndNxt := by
  have hack : (c.acked ack flags window).sndUna = c.sndNxt := by
    rw [TcpConn.acked]
    split
    · rw [(afterAck_fields _).2.2.2.1, TcpConn.acknowledge]
      split
      · -- an acknowledgement that is taken lies between the two, which are equal
        rename_i hbetween
        have hdist := dist_of_taken hbetween
        rw [huna, dist_self] at hdist
        have hzero : (ack - c.sndNxt).toNat = 0 := Nat.eq_zero_of_add_eq_zero_right hdist
        exact sub_eq_zero.mp (UInt32.toNat_inj.mp hzero)
      · exact huna
    · exact huna
  rcases @process_cases c ourIp seq ack flags window data hst.1 with ⟨-, h⟩ | ⟨-, h⟩ | h
  · rw [h]
    exact huna
  · rw [h]
    exact hack
  · rw [h, (deliver_fields ..).2.1, hack]

theorem process_synSent (hst : c.state = .synSent) :
    ((c.process ourIp seq ack flags window data).1.state = .synSent ∨
      (c.process ourIp seq ack flags window data).1.state = .closed) ∨
    (flags &&& SYN ≠ 0 ∧ flags &&& ACK ≠ 0) ∧ (c.process ourIp seq ack flags window data).1.state = .established ∧
      (c.process ourIp seq ack flags window data).1.sndUna = ack := by
  have hdeliver : ∀ d : TcpConn, d.state = .synSent → (d.deliver ourIp seq flags data).1.state = .synSent := by
    intro d hd
    rw [TcpConn.deliver, hd]
    exact hd
  have hafter : ∀ d : TcpConn, d.state = .synSent → d.afterAck.state = .synSent := by
    intro d hd
    simp [TcpConn.afterAck, hd]
  have hacked := hafter _ ((acknowledge_fields { c with sndWnd := window } ack).2.2.trans hst)
  simp only [TcpConn.process]
  split
  · exact .inl (.inr rfl)
  split
  · rename_i hflag
    split
    · rename_i hsyn
      exact .inr ⟨⟨hsyn.2, hflag⟩, rfl, rfl⟩
    · rw [if_neg (by simp [hacked])]
      exact .inl (.inl (hdeliver _ hacked))
  · exact .inl (.inl (hdeliver _ hst))

end

structure Opening.Inv (s : Opening) (idx : Nat) (e : Ends) (c : TcpConn) : Prop where
  conn : s.net.conn? idx = some c
  ends : c.kept.1 = e
  next : c.sndNxt = e.isn + 1
  stage : c.state = .synSent ∨ c.state = .closed ∨ c.state.Opened ∧ c.sndUna = c.sndNxt ∧
    ∃ a ∈ s.log, a.SynAck idx e ∧ (header a.pkt).ackNum = e.isn + 1

theorem Opening.Inv.step {s t : Opening} {e : Ends} {r : UInt32 × UInt32 × List UInt8} (h : s.Inv idx e c)
    (hok : s.AcksSyn idx e r) (hs : s.step ourIp r = some t) : ∃ d, t.Inv idx e d := by
  cases hs
  obtain ⟨d, hd, hcases⟩ := receive_conn? h.conn ourIp r.1 r.2.1 r.2.2
  have hlog : (∃ a ∈ s.log, a.SynAck idx e ∧ (header a.pkt).ackNum = e.isn + 1) →
      ∃ a ∈ s.log ++ [⟨s.net, r.2.1, r.2.2⟩], a.SynAck idx e ∧ (header a.pkt).ackNum = e.isn + 1 :=
    fun ⟨a, ha, hack⟩ => ⟨a, mem_append_left _ ha, hack⟩
  refine ⟨d, ?_⟩
  rcases hcases with ⟨l, rfl⟩ | ⟨hto, seq, window, data, rfl⟩
  · exact ⟨hd, h.ends, h.next, h.stage.imp_right (·.imp_right fun ⟨hst, huna, ha⟩ => ⟨hst, huna, hlog ha⟩)⟩
  have hkept := (process_kept c ourIp seq (header r.2.2).ackNum (header r.2.2).flags window data).1
  have hnext := (congrArg (·.2.1) hkept).trans h.next
  refine ⟨hd, (congrArg (·.1) hkept).trans h.ends, hnext, ?_⟩
  simp only [isConnTo, Bool.and_eq_true, beq_iff_eq, Bool.not_eq_true', Bool.or_eq_false_iff] at hto
  rcases h.stage with hst | hst | ⟨hst, huna, ha⟩
  · rcases process_synSent seq (header r.2.2).ackNum (header r.2.2).flags window data hst with hst' | ⟨hflags, hst', huna⟩
    · exact hst'.imp_right .inl
    have hends := h.ends
    have hsyn : Arrival.SynAck ⟨s.net, r.2.1, r.2.2⟩ idx e := by
      refine ⟨by rw [h.conn, Option.map_some, hst], ?_, hflags⟩
      rw [← hends]
      exact ⟨hto.1.1.2.symm, hto.1.2.symm, hto.1.1.1.symm⟩
    refine .inr (.inr ⟨by rw [hst']; exact ⟨by simp, by simp⟩, ?_, _, mem_append_right _ (mem_singleton_self _), hsyn,
      hok hsyn⟩)
    exact (huna.trans (hok hsyn)).trans hnext.symm
  · simp [hst] at hto
  · refine .inr (.inr ⟨process_opened hst, ?_, hlog ha⟩)
    rw [sndUna_process seq _ _ window data hst huna]
    exact (congrArg (·.2.1) hkept).symm

/-- In every run of segments after a `connect` in which each SYN+ACK that is taken acknowledges the SYN: if the connection is
    established, such a segment of the peer has arrived in `SynSent`, and `snd_una` is `snd_isn + 1`. -/
theorem established_by_peer (net₀ : Net) (ourIp rand32 localIp : UInt32) (srcPort : UInt16) (dstIp : UInt32)
    (dstPort : UInt16) {net : Net} {idx : Nat}
    (hconnect : connect net₀ ourIp rand32 localIp srcPort dstIp dstPort = (net, idx)) {s : Opening}
    (h : Reach (fun s r t => Opening.step ourIp s r = some t)
      (fun s r => s.AcksSyn idx ⟨srcPort, dstIp, dstPort, rand32⟩ r) ⟨net, []⟩ s) {c : TcpConn}
    (hc : s.net.conn? idx = some c) (hst : c.state = .established) : c.sndUna = c.sndIsn + 1 ∧
      ∃ a ∈ s.log, a.SynAck idx ⟨srcPort, dstIp, dstPort, rand32⟩ ∧ (header a.pkt).ackNum = c.sndIsn + 1 := by
  have hinv : ∃ d, s.Inv idx ⟨srcPort, dstIp, dstPort, rand32⟩ d := by
    refine h.invariant (I := fun s => ∃ d, s.Inv idx ⟨srcPort, dstIp, dstPort, rand32⟩ d) ?_
      fun s r t ⟨d, hd⟩ hok hs => hd.step hok hs
    have hslot := insert_conn? (net₀.emit [⟨if localIp = 0 then ourIp else localIp, srcPort, dstIp, dstPort, rand32, 0, SYN,
      65535, []⟩]) { TcpConn.new with
        state := .synSent, localIp := if localIp = 0 then ourIp else localIp, localPort := srcPort, remoteIp := dstIp,
        remotePort := dstPort, sndIsn := rand32, sndNxt := rand32 + 1, sndUna := rand32 }
    change (connect net₀ ourIp rand32 localIp srcPort dstIp dstPort).1.conn?
      (connect net₀ ourIp rand32 localIp srcPort dstIp dstPort).2 = _ at hslot
    rw [hconnect] at hslot
    exact ⟨_, hslot, rfl, rfl, .inl rfl⟩
  obtain ⟨d, hd⟩ := hinv
  obtain rfl := Option.some.inj (hc.symm.trans hd.conn)
  have hisn : c.sndIsn = rand32 := congrArg Ends.isn hd.ends
  rcases hd.stage with h' | h' | ⟨-, huna, ha⟩
  · simp [hst] at h'
  · simp [hst] at h'
  · rw [hisn]
    exact ⟨huna.trans hd.next, ha⟩

/-- A connection is opened to 10.0.2.3:80 with the sequence number 7000, and this SYN+ACK of the peer arrives. -/
def peerSynAck (ack : UInt32) : Opening :=
  let net := (connect ⟨[], []⟩ 0x0A000202 7000 0 5555 0x0A000203 80).1
  let pkt := Segment.bytes ⟨0x0A000203, 80, 0x0A000202, 5555, 100, ack, SYN ||| ACK, 65535, []⟩
  ⟨receive net 0x0A000202 0 0x0A000203 pkt, [⟨net, 0x0A000203, pkt⟩]⟩

theorem established_by_peer_acked : ∃ c, (peerSynAck 7001).net.conn? 0 = some c ∧ c.sndUna = c.sndIsn + 1 := by
  have hstate : ((peerSynAck 7001).net.conn? 0).map (·.state) = some .established := by decide
  obtain ⟨c, hc, hst⟩ := Option.map_eq_some_iff.mp hstate
  refine ⟨c, hc, (established_by_peer ⟨[], []⟩ 0x0A000202 7000 0 5555 0x0A000203 80 rfl ?_ hc hst).1⟩
  exact .step (0, 0x0A000203, _) .start (fun _ => by decide) rfl

theorem established_unacked : ((peerSynAck 1).net.conn? 0).map (fun c => (c.state, c.sndIsn, c.sndUna)) =
    some (.established, 7000, 1) := by decide

end Moxide.Tcp

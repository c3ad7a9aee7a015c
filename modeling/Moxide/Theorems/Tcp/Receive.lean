import Moxide.Lib.Reach
import Moxide.Lib.SeqNum
import Moxide.Theorems.Tcp.Base

/-! What a connection receives of its peer's stream. A payload is taken only at `rcv_nxt`; a FIN, however, advances `rcv_nxt`
    wherever it stands. -/

namespace Moxide.Tcp
open Lib SeqNum List

/-- A segment of the peer's stream `S`: the `n` bytes from offset `k` on, with a FIN only at the end. -/
structure StreamSegment (S : List UInt8) where
  k : Nat
  n : Nat
  fits : k + n ≤ S.length
  flags : UInt8
  finLast : flags &&& FIN ≠ 0 → k + n = S.length
  ack : UInt32
  window : UInt16

section
variable {S : List UInt8}

def StreamSegment.payload (seg : StreamSegment S) : List UInt8 := (S.drop seg.k).take seg.n

def StreamSegment.seq (seg : StreamSegment S) (irs : UInt32) : UInt32 := irs + 1 + seg.k.toUInt32

@[simp] theorem StreamSegment.length_payload (seg : StreamSegment S) : seg.payload.length = seg.n := by
  have := seg.fits
  simp only [StreamSegment.payload, length_take, length_drop]
  omega

/-- A connection with what it received so far: all bytes that were appended to `rx_buf`, and whether a FIN was
    accepted in order. -/
structure Rx where
  conn : TcpConn
  got : List UInt8
  fin : Bool

def TcpConn.takes (c : TcpConn) (flags : UInt8) : Prop := c.state.receiving = true ∧ flags &&& RST = 0

instance (c : TcpConn) (flags : UInt8) : Decidable (c.takes flags) :=
  inferInstanceAs (Decidable (c.state.receiving = true ∧ flags &&& RST = 0))

/-- `process_established` on a segment of the stream. A FIN that is taken counts as accepted in order when
    the whole stream has been received by then. -/
def Rx.receive (r : Rx) (ourIp irs : UInt32) (seg : StreamSegment S) : Rx :=
  let c := (r.conn.process ourIp (seg.seq irs) seg.ack seg.flags seg.window seg.payload).1
  let got := r.got ++ c.rxBuf.drop r.conn.rxBuf.length
  { conn := c
    got := got
    fin := r.fin || decide (r.conn.takes seg.flags ∧ seg.flags &&& FIN ≠ 0 ∧ got.length = S.length) }

/-- What happens on a connection: a segment of the stream arrives, or the local side reads or closes. -/
inductive RxEvent (S : List UInt8) where
  | segment (seg : StreamSegment S)
  | read (len : Nat)
  | close

inductive RxStep (ourIp irs : UInt32) : Rx → RxEvent S → Rx → Prop where
  | segment (r : Rx) (seg : StreamSegment S) : RxStep ourIp irs r (.segment seg) (r.receive ourIp irs seg)
  | read (r : Rx) (len : Nat) : RxStep ourIp irs r (.read len) { r with conn := (r.conn.read len).1 }
  | close {r : Rx} {c : TcpConn} {segs : List Segment} (h : r.conn.close ourIp = (some c, segs)) :
      RxStep ourIp irs r .close { r with conn := c }

/-- The bytes received are the first `m` bytes of `S`, and `rcv_nxt` stands after them, and after the FIN
    exactly when it has been accepted in order. -/
def Faithful (irs : UInt32) (S : List UInt8) (r : Rx) : Prop :=
  ∃ m, m ≤ S.length ∧ r.got = S.take m ∧ r.conn.rcvNxt = irs + 1 + (m + r.fin.toNat).toUInt32

/-- A segment with a payload at `rcv_nxt` carries the next bytes of the stream (`unambiguous_of_short`). -/
def Unambiguous (irs : UInt32) (r : Rx) (seg : StreamSegment S) : Prop :=
  0 < seg.n → seg.seq irs = r.conn.rcvNxt → seg.k = r.got.length ∧ r.fin = false

/-- A FIN comes in order: none was accepted before, and its segment is the next one or everything before
    the FIN has been received. -/
def FinInOrder (r : Rx) (seg : StreamSegment S) : Prop :=
  seg.flags &&& FIN ≠ 0 → r.fin = false ∧ (seg.k = r.got.length ∨ r.got.length = S.length)

def InOrder (irs : UInt32) (r : Rx) : RxEvent S → Prop
  | .segment seg => r.conn.takes seg.flags → Unambiguous irs r seg ∧ FinInOrder r seg
  | _ => True

/-! ### One segment -/

variable {irs : UInt32} {r : Rx}

theorem Faithful.length_got (h : Faithful irs S r) :
    r.got = S.take r.got.length ∧ r.got.length ≤ S.length ∧
      r.conn.rcvNxt = irs + 1 + (r.got.length + r.fin.toNat).toUInt32 := by
  obtain ⟨m, hm, hgot, hnxt⟩ := h
  have hlen : r.got.length = m := by rw [hgot, length_take]; omega
  rw [hlen]
  exact ⟨hgot, hm, hnxt⟩

theorem faithful_iff (hgot : r.got = S.take r.got.length) (hlen : r.got.length ≤ S.length) :
    Faithful irs S r ↔ r.conn.rcvNxt = irs + 1 + (r.got.length + r.fin.toNat).toUInt32 :=
  ⟨fun h => h.length_got.2.2, fun h => ⟨_, hlen, hgot, h⟩⟩

theorem process_of_not_takes {c : TcpConn} {ourIp seq ack : UInt32} {flags : UInt8} {window : UInt16}
    {data : List UInt8} (hst : c.state.Opened) (h : ¬ c.takes flags) :
    (c.process ourIp seq ack flags window data).1.rcvNxt = c.rcvNxt ∧
    (c.process ourIp seq ack flags window data).1.rxBuf = c.rxBuf := by
  obtain ⟨hnxt, hrx⟩ := acked_fields c ack flags window
  by_cases hrst : flags &&& RST = 0
  · have hrec : c.state.receiving ≠ true := fun hr => h ⟨hr, hrst⟩
    rcases @process_cases c ourIp seq ack flags window data hst.1 with ⟨-, hp⟩ | ⟨-, hp⟩ | hp
    · rw [hp]
      exact ⟨rfl, rfl⟩
    · rw [hp]
      exact ⟨hnxt, hrx⟩
    rw [hp]
    unfold TcpConn.deliver
    rw [(acked_state hst).2, if_neg hrec]
    exact ⟨hnxt, hrx⟩
  · unfold TcpConn.process
    rw [if_pos hrst]
    exact ⟨rfl, rfl⟩

theorem process_of_takes {c : TcpConn} {ourIp seq ack : UInt32} {flags : UInt8} {window : UInt16}
    {data : List UInt8} (hst : c.state.Opened) (h : c.takes flags) :
    (c.process ourIp seq ack flags window data).1.rxBuf =
      c.rxBuf ++ (if seq = c.rcvNxt ∧ data ≠ [] then data else []) ∧
    (c.process ourIp seq ack flags window data).1.rcvNxt =
      c.rcvNxt + ((if seq = c.rcvNxt ∧ data ≠ [] then data.length else 0) +
        if flags &&& FIN ≠ 0 then 1 else 0).toUInt32 := by
  obtain ⟨hnxt, hrx⟩ := acked_fields c ack flags window
  obtain ⟨-, hrec⟩ := @acked_state c ack flags window hst
  have hdel : c.process ourIp seq ack flags window data =
      (c.acked ack flags window).deliver ourIp seq flags data := by
    rcases @process_cases c ourIp seq ack flags window data hst.1 with ⟨hrst, -⟩ | ⟨hlast, -⟩ | hp
    · exact absurd h.2 hrst
    · rw [hlast, h.1] at hrec
      cases hrec
    · exact hp
  rw [hdel]
  unfold TcpConn.deliver
  rw [hrec, if_pos h.1]
  rw [hnxt]
  by_cases hd : seq = c.rcvNxt ∧ data ≠ []
  · simp only [if_pos hd]
    split <;> simp [hrx, UInt32.ofNat_add, UInt32.add_assoc]
  · simp only [if_neg hd]
    split <;> simp [hrx, hnxt]

theorem receive_of_not_takes {r : Rx} {ourIp irs : UInt32} {seg : StreamSegment S} (hst : r.conn.state.Opened)
    (h : ¬ r.conn.takes seg.flags) :
    (r.receive ourIp irs seg).got = r.got ∧ (r.receive ourIp irs seg).fin = r.fin ∧
    (r.receive ourIp irs seg).conn.rcvNxt = r.conn.rcvNxt := by
  obtain ⟨hnxt, hrx⟩ := @process_of_not_takes r.conn ourIp (seg.seq irs) seg.ack seg.flags seg.window seg.payload hst h
  simp only [Rx.receive, hnxt, hrx, drop_length, append_nil, true_and]
  simp [h]

theorem receive_of_takes {r : Rx} {ourIp irs : UInt32} {seg : StreamSegment S} (hst : r.conn.state.Opened)
    (h : r.conn.takes seg.flags) (fin : Nat) (hfin : fin = if seg.flags &&& FIN ≠ 0 then 1 else 0) :
    (0 < seg.n ∧ seg.seq irs = r.conn.rcvNxt ∧ (r.receive ourIp irs seg).got = r.got ++ seg.payload ∧
      (r.receive ourIp irs seg).conn.rcvNxt = r.conn.rcvNxt + (seg.n + fin).toUInt32) ∨
    (¬ (0 < seg.n ∧ seg.seq irs = r.conn.rcvNxt) ∧ (r.receive ourIp irs seg).got = r.got ∧
      (r.receive ourIp irs seg).conn.rcvNxt = r.conn.rcvNxt + fin.toUInt32) := by
  obtain ⟨hrx, hnxt⟩ := @process_of_takes r.conn ourIp (seg.seq irs) seg.ack seg.flags seg.window seg.payload hst h
  have hpos : seg.payload ≠ [] ↔ 0 < seg.n := by
    rw [← length_pos_iff, seg.length_payload]
  rw [← hfin] at hnxt
  by_cases hd : seg.seq irs = r.conn.rcvNxt ∧ seg.payload ≠ []
  · rw [if_pos hd] at hrx hnxt
    rw [seg.length_payload] at hnxt
    refine .inl ⟨hpos.mp hd.2, hd.1, ?_, hnxt⟩
    simp only [Rx.receive, hrx, drop_left]
  · rw [if_neg hd] at hrx hnxt
    rw [zero_add] at hnxt
    refine .inr ⟨fun hc => hd ⟨hc.2, hpos.mpr hc.1⟩, ?_, hnxt⟩
    simp only [Rx.receive, hrx, append_nil, drop_length]

theorem receive_fin {r : Rx} {ourIp irs : UInt32} {seg : StreamSegment S} (h : r.conn.takes seg.flags) :
    (r.receive ourIp irs seg).fin = (r.fin ||
      decide (seg.flags &&& FIN ≠ 0 ∧ (r.receive ourIp irs seg).got.length = S.length)) := by
  simp only [Rx.receive, h, true_and]

/-- After one segment, the stream and `rcv_nxt` are still in step exactly when its FIN, if it is taken,
    comes in order. -/
theorem faithful_receive_iff {ourIp : UInt32} {seg : StreamSegment S} (hst : r.conn.state.Opened)
    (hf : Faithful irs S r) (hu : r.conn.takes seg.flags → Unambiguous irs r seg) :
    Faithful irs S (r.receive ourIp irs seg) ↔ (r.conn.takes seg.flags → FinInOrder r seg) := by
  obtain ⟨hgot, hlen, hnxt⟩ := hf.length_got
  have hfits := seg.fits
  by_cases ht : r.conn.takes seg.flags
  · obtain ⟨fin, hfin⟩ : ∃ fin : Nat, fin = if seg.flags &&& FIN ≠ 0 then 1 else 0 := ⟨_, rfl⟩
    rcases @receive_of_takes S r ourIp irs seg hst ht fin hfin with
      ⟨hn, hseq, hgot', hnxt'⟩ | ⟨hno, hgot', hnxt'⟩
    · -- The payload is taken; a FIN then ends the stream.
      obtain ⟨hk, hr⟩ := hu ht hn hseq
      have hlen' : (r.receive ourIp irs seg).got.length = r.got.length + seg.n := by
        rw [hgot', length_append, seg.length_payload]
      have htake : (r.receive ourIp irs seg).got = S.take (r.receive ourIp irs seg).got.length := by
        rw [hlen', hgot', take_add, ← hgot, ← hk]
        rfl
      have hfin' : (r.receive ourIp irs seg).fin.toNat = fin := by
        rw [receive_fin ht, hr, hlen', hfin]
        by_cases hF : seg.flags &&& FIN ≠ 0
        · have hend := seg.finLast hF
          simp [hF, show r.got.length + seg.n = S.length by omega]
        · simp [hF]
      rw [faithful_iff htake (by omega), hnxt', hnxt, hlen', hfin', hr]
      exact ⟨fun _ _ _ => ⟨hr, .inl hk⟩, fun _ => by simp [add_assoc]⟩
    · -- The payload is not taken; what is left is the FIN.
      have htake : (r.receive ourIp irs seg).got = S.take (r.receive ourIp irs seg).got.length := by
        rw [hgot']
        exact hgot
      have hfin' := @receive_fin S r ourIp irs seg ht
      rw [faithful_iff htake (by rw [hgot']; exact hlen), hnxt', hnxt, add_add, hfin', hgot', add_eq_iff]
      by_cases hF : seg.flags &&& FIN ≠ 0
      · rw [if_pos hF] at hfin
        have hend := seg.finLast hF
        have hsame : seg.k = r.got.length → r.fin = false → r.got.length = S.length := by
          intro hk hr
          by_contra hne
          refine hno ⟨by omega, ?_⟩
          rw [hnxt, hr, StreamSegment.seq, hk]
          rfl
        cases hr : r.fin with
        | true =>
          have hno' : ¬ (r.conn.takes seg.flags → FinInOrder r seg) := fun h => by
            have := (h ht hF).1
            rw [hr] at this
            cases this
          simp only [Bool.true_or, Bool.toNat_true, hfin, hno', iff_false]
          omega
        | false =>
          by_cases hm : r.got.length = S.length
          · have hfo : FinInOrder r seg := fun _ => ⟨hr, .inr hm⟩
            simp [hF, hm, hfin, hfo]
          have hno' : ¬ (r.conn.takes seg.flags → FinInOrder r seg) := fun h => by
            rcases (h ht hF).2 with hk | hk
            · exact hm (hsame hk hr)
            · exact hm hk
          simp only [hm, and_false, decide_false, Bool.or_false, Bool.toNat_false, hfin, hno', iff_false]
          omega
      · have hfo : FinInOrder r seg := fun h => absurd h hF
        simp [hF, hfin, hfo]
  · obtain ⟨hgot', hfin', hnxt'⟩ := @receive_of_not_takes S r ourIp irs seg hst ht
    have htake : (r.receive ourIp irs seg).got = S.take (r.receive ourIp irs seg).got.length := by
      rw [hgot']
      exact hgot
    rw [faithful_iff htake (by rw [hgot']; exact hlen), hnxt', hfin', hgot']
    exact ⟨fun _ h => absurd h ht, fun _ => hnxt⟩

/-! ### Runs -/

def Rx.start (c : TcpConn) : Rx := ⟨c, [], false⟩

/-- What a run keeps: the stream and `rcv_nxt` are in step, and a FIN accepted in order ended the stream. -/
structure RxInv (irs : UInt32) (S : List UInt8) (r : Rx) : Prop where
  opened : r.conn.state.Opened
  faithful : Faithful irs S r
  ended : r.fin = true → r.got.length = S.length

theorem rxInv_receive {ourIp : UInt32} {seg : StreamSegment S} (h : RxInv irs S r)
    (hok : InOrder irs r (.segment seg)) : RxInv irs S (r.receive ourIp irs seg) where
  opened := process_opened h.opened
  faithful := (faithful_receive_iff h.opened h.faithful fun ht => (hok ht).1).mpr fun ht => (hok ht).2
  ended := by
    by_cases ht : r.conn.takes seg.flags
    · rw [receive_fin ht, Bool.or_eq_true, decide_eq_true_eq]
      rintro (hr | ⟨-, hlen⟩)
      · rcases @receive_of_takes S r ourIp irs seg h.opened ht _ rfl with ⟨hn, hseq, -, -⟩ | ⟨-, hgot, -⟩
        · have := ((hok ht).1 hn hseq).2
          rw [hr] at this
          cases this
        · rw [hgot]
          exact h.ended hr
      · exact hlen
    · obtain ⟨hgot, hfin, -⟩ := @receive_of_not_takes S r ourIp irs seg h.opened ht
      rw [hgot, hfin]
      exact h.ended

theorem rxInv_step {r' : Rx} {ourIp : UInt32} {e : RxEvent S} (h : RxInv irs S r) (hok : InOrder irs r e)
    (hs : RxStep ourIp irs r e r') : RxInv irs S r' := by
  cases hs with
  | segment seg => exact rxInv_receive h hok
  | read len => exact ⟨h.opened, h.faithful, h.ended⟩
  | close hc =>
    unfold TcpConn.close at hc
    split at hc <;> cases hc <;> exact ⟨⟨by simp, by simp⟩, h.faithful, h.ended⟩

theorem rxInv_start {c : TcpConn} (S : List UInt8) (hst : c.state = .established)
    (hnxt : c.rcvNxt = irs + 1) : RxInv irs S (.start c) where
  opened := by rw [show (Rx.start c).conn.state = c.state from rfl, hst]; exact ⟨by simp, by simp⟩
  faithful := ⟨0, Nat.zero_le _, rfl, by rw [show (Rx.start c).conn.rcvNxt = c.rcvNxt from rfl, hnxt]; simp [Rx.start]⟩
  ended := nofun

/-- In every run in which each FIN that is taken comes in order, what the connection has received is a prefix
    of its peer's stream, and `rcv_nxt` stands right behind it. -/
theorem receive_faithful {c : TcpConn} {ourIp irs : UInt32} {r : Rx} (hst : c.state = .established)
    (hnxt : c.rcvNxt = irs + 1) (h : Reach (RxStep (S := S) ourIp irs) (InOrder irs) (.start c) r) :
    Faithful irs S r :=
  (h.invariant (I := RxInv irs S) (rxInv_start S hst hnxt) fun _ _ _ hr hok hs => rxInv_step hr hok hs).faithful

/-- A stream that is shorter than the sequence space is never ambiguous: there the condition of a run is about
    its FINs only. -/
theorem unambiguous_of_short (hS : S.length + 1 < 2 ^ 32) (h : RxInv irs S r)
    (seg : StreamSegment S) : Unambiguous irs r seg := by
  intro hn hseq
  obtain ⟨-, hlen, hnxt⟩ := h.faithful.length_got
  have hfits := seg.fits
  rw [hnxt, StreamSegment.seq, add_eq_iff] at hseq
  cases hr : r.fin with
  | true =>
    have := h.ended hr
    rw [hr, Bool.toNat_true] at hseq
    omega
  | false =>
    rw [hr, Bool.toNat_false] at hseq
    exact ⟨by omega, rfl⟩

end

def freshConn : TcpConn := { TcpConn.new with state := .established, rcvNxt := 1 }

def wholeStream : StreamSegment [1, 2, 3] := ⟨0, 3, by decide, FIN ||| ACK, by decide, 0, 0⟩

def lastByte : StreamSegment [1, 2, 3] := ⟨2, 1, by decide, FIN ||| ACK, by decide, 0, 0⟩

theorem receive_faithful_whole : Faithful 0 [1, 2, 3] ((Rx.start freshConn).receive 0 0 wholeStream) :=
  receive_faithful (c := freshConn) rfl rfl
    (.step (.segment wholeStream) .start
      (fun _ => ⟨fun _ _ => ⟨rfl, rfl⟩, fun _ => ⟨rfl, .inl rfl⟩⟩) (.segment _ _))

/-- The last segment of the stream overtakes the others: its FIN moves `rcv_nxt` with nothing received. -/
theorem receive_not_faithful :
    Reach (RxStep (S := [1, 2, 3]) 0 0) (fun _ _ => True) (Rx.start freshConn)
      ((Rx.start freshConn).receive 0 0 lastByte) ∧
    ((Rx.start freshConn).receive 0 0 lastByte).got = [] ∧
    ((Rx.start freshConn).receive 0 0 lastByte).conn.rcvNxt = 2 ∧
    ¬ Faithful 0 [1, 2, 3] ((Rx.start freshConn).receive 0 0 lastByte) := by
  refine ⟨.step (.segment lastByte) .start trivial (.segment _ _), by decide, by decide, fun h => ?_⟩
  have hnxt := h.length_got.2.2
  exact absurd hnxt (by decide)

end Moxide.Tcp

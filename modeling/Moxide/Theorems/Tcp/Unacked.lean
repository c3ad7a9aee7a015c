import Moxide.Lib.Reach
import Moxide.Lib.SeqNum
import Moxide.Theorems.Tcp.Base

/-! What a connection keeps for retransmission. An ACK drops the segments that start below it, also one that it cuts in
    two. -/

namespace Moxide.Tcp
open Lib SeqNum List TcpConn

theorem isBetween_iff (lo x hi : UInt32) : isBetween lo x hi ↔ dist lo x < dist lo hi := by
  rw [← mem_arc_iff]
  unfold isBetween
  split <;> simp

structure Tx where
  conn : TcpConn
  sent : List UInt8

/-- The entries `es` hold every byte of the last part of `sent`, which has the sequence numbers from `una` to
    `nxt`, under its sequence number. -/
def Covers (es : List (UInt32 × List UInt8)) (una nxt : UInt32) (sent : List UInt8) : Prop :=
  dist una nxt ≤ sent.length ∧ ∀ i < dist una nxt, ∃ e ∈ es, ∃ o < e.2.length,
    e.1 + o.toUInt32 = una + i.toUInt32 ∧ e.2[o]? = sent[sent.length - dist una nxt + i]?

def Tx.Covered (t : Tx) : Prop := Covers t.conn.unacked t.conn.sndUna t.conn.sndNxt t.sent

inductive TxEvent where
  | write (data : List UInt8)
  | flush
  | segment (seq ack : UInt32) (flags : UInt8) (window : UInt16) (data : List UInt8)

inductive TxStep (ourIp : UInt32) : Tx → TxEvent → Tx → Prop where
  | write (t : Tx) (data : List UInt8) : TxStep ourIp t (.write data) { t with conn := (t.conn.write data).1 }
  | flush {t : Tx} {c : TcpConn} {segs : List Segment} (h : t.conn.flush ourIp = some (c, segs)) :
      TxStep ourIp t .flush ⟨c, t.sent ++ segs.flatMap (·.data)⟩
  | segment (t : Tx) (seq ack : UInt32) (flags : UInt8) (window : UInt16) (data : List UInt8) :
      TxStep ourIp t (.segment seq ack flags window data)
        { t with conn := (t.conn.process ourIp seq ack flags window data).1 }

/-- An ACK that is taken cuts no segment: each entry that it drops ends at or before it. -/
def AckWhole (t : Tx) : TxEvent → Prop
  | .segment _ ack flags _ _ =>
    flags &&& RST = 0 → flags &&& ACK ≠ 0 → isBetween t.conn.sndUna ack (t.conn.sndNxt + 1) = true →
      ∀ e ∈ t.conn.unacked, isBetween t.conn.sndUna e.1 ack = true → e.2.length ≤ dist e.1 ack
  | _ => True

variable {ack : UInt32} {c : TcpConn} {sent : List UInt8}

theorem dist_of_taken {una nxt : UInt32} (h : isBetween una ack (nxt + 1)) : dist una ack + dist ack nxt = dist una nxt := by
  rw [isBetween_iff] at h
  have hnxt : dist una (nxt + 1) = (dist una nxt + 1) % 2 ^ 32 := dist_add una nxt 1
  rcases dist_add_dist una ack nxt with h' | h'
  · exact h'
  · have := dist_lt ack nxt
    omega

theorem covers_acknowledge (hc : Covers c.unacked c.sndUna c.sndNxt sent)
    (hok : isBetween c.sndUna ack (c.sndNxt + 1) →
      ∀ e ∈ c.unacked, isBetween c.sndUna e.1 ack → e.2.length ≤ dist e.1 ack) :
    Covers (c.acknowledge ack).unacked (c.acknowledge ack).sndUna (c.acknowledge ack).sndNxt sent := by
  unfold acknowledge
  split
  · rename_i hack
    obtain ⟨hlen, hcov⟩ := hc
    have hd := dist_of_taken hack
    refine ⟨by dsimp only; omega, fun i hi => ?_⟩
    dsimp only at hi ⊢
    obtain ⟨e, he, o, ho, hseq, hbyte⟩ := hcov (dist c.sndUna ack + i) (by omega)
    have hsame : c.sndUna + (dist c.sndUna ack + i).toUInt32 = ack + i.toUInt32 := by
      rw [add_eq_add_iff]
    rw [hsame] at hseq
    refine ⟨e, mem_filter.mpr ⟨he, ?_⟩, o, ho, hseq, ?_⟩
    · -- Were the entry dropped, it would end before `ack`, but it holds a byte at `ack + i`.
      cases hdrop : isBetween c.sndUna e.1 ack with
      | false => rfl
      | true =>
        exfalso
        have hend := hok hack e he hdrop
        rw [isBetween_iff] at hdrop
        rw [add_eq_add_iff] at hseq
        have hlt := dist_lt e.1 ack
        have hlt' := dist_lt c.sndUna c.sndNxt
        rcases dist_add_dist c.sndUna e.1 ack with h | h <;> omega
    · rw [hbyte]
      congr 1
      omega
  · exact hc

theorem covers_sendChunk {n : Nat}
    (hc : Covers c.unacked c.sndUna c.sndNxt sent) (hn : n ≤ c.txBuf.length) (hwnd : n ≤ c.sndWnd.toNat) :
    Covers (c.sendChunk n).unacked (c.sendChunk n).sndUna (c.sendChunk n).sndNxt (sent ++ c.txBuf.take n) := by
  obtain ⟨hlen, hcov⟩ := hc
  have hw := c.sndWnd.toNat_lt
  have hchunk : (c.txBuf.take n).length = n := by rw [length_take]; omega
  have hd : dist c.sndUna (c.sndNxt + n.toUInt32) = (dist c.sndUna c.sndNxt + n) % 2 ^ 32 := dist_add _ _ n
  have hlt := dist_lt c.sndUna c.sndNxt
  show dist c.sndUna (c.sndNxt + n.toUInt32) ≤ (sent ++ c.txBuf.take n).length ∧ ∀ i < dist c.sndUna (c.sndNxt + n.toUInt32),
    ∃ e ∈ c.unacked ++ [(c.sndNxt, c.txBuf.take n)], ∃ o < e.2.length, e.1 + o.toUInt32 = c.sndUna + i.toUInt32 ∧
      e.2[o]? = (sent ++ c.txBuf.take n)[(sent ++ c.txBuf.take n).length - dist c.sndUna (c.sndNxt + n.toUInt32) + i]?
  rw [length_append]
  refine ⟨by omega, fun i hi => ?_⟩
  by_cases hold : dist c.sndUna c.sndNxt + n < 2 ^ 32 ∧ i < dist c.sndUna c.sndNxt
  · obtain ⟨hsum, hi'⟩ := hold
    obtain ⟨e, he, o, ho, hseq, hbyte⟩ := hcov i hi'
    refine ⟨e, mem_append_left _ he, o, ho, hseq, ?_⟩
    rw [hbyte, getElem?_append_left (by omega)]
    congr 1
    omega
  -- The byte is in the new chunk, at `o` bytes from its start.
  obtain ⟨o, ho, hio⟩ : ∃ o < n, i % 2 ^ 32 = (dist c.sndUna c.sndNxt + o) % 2 ^ 32 := by
    by_cases hsum : dist c.sndUna c.sndNxt + n < 2 ^ 32
    · exact ⟨i - dist c.sndUna c.sndNxt, by omega, by omega⟩
    · exact ⟨i + 2 ^ 32 - dist c.sndUna c.sndNxt, by omega, by omega⟩
  refine ⟨(c.sndNxt, c.txBuf.take n), by simp, o, by rw [hchunk]; exact ho, ?_, ?_⟩
  · exact ((add_eq_add_iff _ _ i o).mpr hio).symm
  · rw [getElem?_append_right (by omega)]
    congr 1
    omega

theorem covers_chunks {ourIp : UInt32} {c' : TcpConn} {segs : List Segment} (h : Chunks ourIp c c' segs) :
    ∀ sent, Covers c.unacked c.sndUna c.sndNxt sent →
      Covers c'.unacked c'.sndUna c'.sndNxt (sent ++ segs.flatMap (·.data)) := by
  induction h with
  | done c =>
    intro sent hc
    simpa using hc
  | @round c c' segs n hpos hn hwnd h ih =>
    intro sent hc
    have := ih _ (covers_sendChunk hc hn hwnd)
    simpa [append_assoc, segmentTo] using this

/-! ### Runs -/

theorem acked_covers {flags : UInt8} {window : UInt16} (hc : Covers c.unacked c.sndUna c.sndNxt sent)
    (hok : flags &&& ACK ≠ 0 → isBetween c.sndUna ack (c.sndNxt + 1) = true →
      ∀ e ∈ c.unacked, isBetween c.sndUna e.1 ack → e.2.length ≤ dist e.1 ack) :
    Covers (c.acked ack flags window).unacked (c.acked ack flags window).sndUna
      (c.acked ack flags window).sndNxt sent := by
  unfold acked
  split
  · rename_i hf
    obtain ⟨-, -, h4, h5, h6⟩ := afterAck_fields ({ c with sndWnd := window }.acknowledge ack)
    rw [h4, h5, h6]
    exact covers_acknowledge (c := { c with sndWnd := window }) hc (hok hf)
  · exact hc

theorem covered_step {t t' : Tx} {ourIp : UInt32} {e : TxEvent} (hst : t.conn.state.Opened) (hc : t.Covered)
    (hok : AckWhole t e) (hs : TxStep ourIp t e t') : t'.conn.state.Opened ∧ t'.Covered := by
  cases hs with
  | write data =>
    unfold Tx.Covered TcpConn.write
    split
    · exact ⟨hst, hc⟩
    · exact ⟨hst, hc⟩
  | flush h =>
    have hch := flush_chunks h
    refine ⟨?_, covers_chunks hch _ hc⟩
    rw [hch.fields.1]
    exact hst
  | segment seq ack flags window data =>
    refine ⟨process_opened hst, ?_⟩
    unfold Tx.Covered
    by_cases hrst : flags &&& RST = 0
    · have hack : Covers (t.conn.acked ack flags window).unacked (t.conn.acked ack flags window).sndUna
          (t.conn.acked ack flags window).sndNxt t.sent := acked_covers hc (hok hrst)
      rcases @process_cases t.conn ourIp seq ack flags window data hst.1 with ⟨-, hp⟩ | ⟨-, hp⟩ | hp
      · rw [hp]
        exact hc
      · rw [hp]
        exact hack
      · obtain ⟨h2, h3, h4⟩ := deliver_fields (t.conn.acked ack flags window) ourIp seq flags data
        rw [hp, h2, h3, h4]
        exact hack
    · unfold process
      rw [if_pos hrst]
      exact hc

theorem covers_retransmit {t : Tx} (ourIp : UInt32) (hst : t.conn.state = .established) (h : t.Covered) :
    Covers ((t.conn.retransmit ourIp).map fun s => (s.seq, s.data)) t.conn.sndUna t.conn.sndNxt t.sent := by
  have hmap : (t.conn.retransmit ourIp).map (fun s => (s.seq, s.data)) = t.conn.unacked := by
    unfold retransmit
    rw [if_neg (not_not.mpr hst), map_map]
    exact map_id _
  rw [hmap]
  exact h

/-- In every run in which no ACK cuts a segment, `unacked` holds every byte sent from `snd_una` to `snd_nxt`,
    and `tick_retransmit` resends it. -/
theorem unacked_covers {t₀ t : Tx} {ourIp : UInt32} (hst : t₀.conn.state = .established) (h₀ : t₀.Covered)
    (h : Reach (TxStep ourIp) AckWhole t₀ t) :
    t.Covered ∧ (t.conn.state = .established →
      Covers ((t.conn.retransmit ourIp).map fun s => (s.seq, s.data)) t.conn.sndUna t.conn.sndNxt t.sent) := by
  have hop : t₀.conn.state.Opened := by
    rw [hst]
    exact ⟨by simp, by simp⟩
  have hinv := h.invariant (I := fun t => t.conn.state.Opened ∧ t.Covered) ⟨hop, h₀⟩
    fun _ _ _ ht hok hs => covered_step ht.1 ht.2 hok hs
  exact ⟨hinv.2, fun he => covers_retransmit ourIp he hinv.2⟩

/-- An established connection with `TCP_NODELAY` and three bytes in flight, sent as one segment. -/
def threeInFlight : Tx :=
  ⟨{ TcpConn.new with state := .established, sndNxt := 3, unacked := [(0, [7, 8, 9])], nodelay := true }, [7, 8, 9]⟩

theorem threeInFlight_covered : threeInFlight.Covered := by
  unfold Tx.Covered Covers
  decide

theorem unacked_covers_acked : Tx.Covered { threeInFlight with conn := (threeInFlight.conn.process 0 0 3 ACK 100 []).1 } :=
  (unacked_covers rfl threeInFlight_covered
    (.step (.segment 0 3 ACK 100 []) .start (by unfold AckWhole; decide) (.segment _ _ _ _ _ _))).1

/-- An ACK of the first of the three bytes drops the other two. -/
theorem unacked_lost : threeInFlight.Covered ∧
    Reach (TxStep 0) (fun _ _ => True) threeInFlight
      { threeInFlight with conn := (threeInFlight.conn.process 0 0 1 ACK 100 []).1 } ∧
    (threeInFlight.conn.process 0 0 1 ACK 100 []).1.unacked = [] ∧
    ¬ Tx.Covered { threeInFlight with conn := (threeInFlight.conn.process 0 0 1 ACK 100 []).1 } := by
  refine ⟨threeInFlight_covered, .step (.segment 0 1 ACK 100 []) .start trivial (.segment _ _ _ _ _ _), by decide, ?_⟩
  unfold Tx.Covered Covers
  decide

/-! What `flush` sends. It takes segments of one fixed size until the buffer is empty, so that it panics unless the size
    divides the buffer, and it compares each segment with the window, not their sum. -/

variable {ourIp : UInt32} {c c' : TcpConn} {segs : List Segment}

/-- The segments carry consecutive sequence numbers from `n` on. -/
def Consecutive (n : UInt32) : List Segment → Prop
  | [] => True
  | s :: segs => s.seq = n ∧ Consecutive (n + s.data.length.toUInt32) segs

theorem Chunks.sends (h : Chunks ourIp c c' segs) :
    c.txBuf = segs.flatMap (·.data) ++ c'.txBuf ∧ Consecutive c.sndNxt segs ∧ c'.sndWnd = c.sndWnd ∧
      c'.nodelay = c.nodelay ∧ c'.sndNxt = c.sndNxt + (segs.flatMap (·.data)).length.toUInt32 := by
  induction h with
  | done c => simp [Consecutive]
  | @round c c' segs n hpos hn hwnd h ih =>
    obtain ⟨hbuf, hseq, hsame, hdelay, hnxt⟩ := ih
    have hlen : (c.txBuf.take n).length = n := by rw [length_take]; omega
    refine ⟨?_, ⟨rfl, ?_⟩, hsame, hdelay, ?_⟩
    · rw [flatMap_cons, append_assoc, ← hbuf]
      exact (take_append_drop n c.txBuf).symm
    · change Consecutive (c.sndNxt + (c.txBuf.take n).length.toUInt32) segs
      rw [hlen]
      exact hseq
    · rw [hnxt, flatMap_cons, length_append]
      change c.sndNxt + n.toUInt32 + _ = c.sndNxt + ((c.txBuf.take n).length + _).toUInt32
      rw [hlen, add_add]

def TcpConn.Even (c : TcpConn) : Prop := c.nodelay = true ∨ c.sndWnd = 0 ∨ min MSS c.sndWnd.toNat ∣ c.txBuf.length

theorem chunkLen_eq (h : c.nodelay ≠ true) : c.chunkLen = min MSS c.sndWnd.toNat := by
  rw [chunkLen, if_neg h]

theorem sndWnd_of_chunkLen (hbuf : c.txBuf ≠ []) (h : c.chunkLen = 0) : c.sndWnd = 0 := by
  have hpos := length_pos_iff.mpr hbuf
  simp only [chunkLen, MSS] at h
  refine UInt16.toNat_inj.mp ?_
  change c.sndWnd.toNat = 0
  split at h <;> omega

theorem even_sendChunk (hle : c.chunkLen ≤ c.txBuf.length) : (c.sendChunk c.chunkLen).Even ↔ c.Even := by
  by_cases hdelay : c.nodelay
  · exact iff_of_true (.inl hdelay) (.inl hdelay)
  rw [TcpConn.Even, TcpConn.Even]
  simp only [sendChunk, length_drop]
  rw [chunkLen_eq hdelay] at hle ⊢
  rw [Nat.dvd_sub_iff_left hle (Nat.dvd_refl _)]

theorem flushLoop_isSome (fuel : Nat) (hlen : c.txBuf.length ≤ fuel) : (flushLoop ourIp fuel c).isSome ↔ c.Even := by
  induction fuel generalizing c with
  | zero => exact iff_of_true rfl (.inr (.inr (Nat.le_zero.mp hlen ▸ Nat.dvd_zero _)))
  | succ fuel ih =>
    rw [flushLoop]
    split
    · rename_i hbuf
      exact iff_of_true rfl (.inr (.inr (by simp [hbuf])))
    split
    · rename_i hbuf hzero
      exact iff_of_true rfl (.inr (.inl (sndWnd_of_chunkLen hbuf hzero)))
    rename_i hbuf hzero
    split
    · -- the last segment would be longer than what is left
      rename_i hlt
      refine iff_of_false (by simp) ?_
      rintro (hdelay | hwnd | hdvd)
      · simp only [chunkLen, hdelay, if_true] at hlt
        omega
      · simp [chunkLen, hwnd] at hzero
      · have hdelay : c.nodelay ≠ true := by
          intro hdelay
          simp only [chunkLen, hdelay, if_true] at hlt
          omega
        rw [chunkLen_eq hdelay] at hlt
        exact not_le.mpr hlt (Nat.le_of_dvd (length_pos_iff.mpr hbuf) hdvd)
    · rename_i hle
      rw [← even_sendChunk (not_lt.mp hle), ← ih (c := c.sendChunk c.chunkLen)]
      · cases flushLoop ourIp fuel (c.sendChunk c.chunkLen) <;> rfl
      · simp only [sendChunk, length_drop]
        omega

theorem flush_all (hst : c.state = .established) (h : c.flush ourIp = some (c', segs)) (hwnd : c.sndWnd ≠ 0) :
    c'.txBuf = [] := by
  obtain ⟨-, -, hsame, -, -⟩ := (flush_chunks h).sends
  rw [TcpConn.flush, if_neg (not_not.mpr hst)] at h
  rcases (flushLoop_spec ourIp _ _ _ _ h).2 le_rfl with hbuf | hzero
  · exact hbuf
  · by_contra hbuf
    exact hwnd (hsame ▸ sndWnd_of_chunkLen hbuf hzero)

/-- `flush` on an established connection panics exactly if the size of its segments does not divide the buffer. If it
    returns, it has sent a prefix of the buffer with consecutive sequence numbers, and all of it if the window is open. -/
theorem flush_sends_stream (ourIp : UInt32) (c : TcpConn) (hst : c.state = .established) :
    ((c.flush ourIp).isSome = true ↔ c.Even) ∧ ∀ c' segs, c.flush ourIp = some (c', segs) →
      c.txBuf = segs.flatMap (·.data) ++ c'.txBuf ∧ Consecutive c.sndNxt segs ∧ (c.sndWnd ≠ 0 → c'.txBuf = []) := by
  constructor
  · rw [TcpConn.flush, if_neg (not_not.mpr hst)]
    exact flushLoop_isSome _ (le_refl _)
  · intro c' segs h
    obtain ⟨hbuf, hseq, -⟩ := (flush_chunks h).sends
    exact ⟨hbuf, hseq, flush_all hst h⟩

def twoToSend : TcpConn := { TcpConn.new with state := .established, txBuf := [1, 2], sndWnd := 1 }

theorem flush_sends_stream_two : ∃ c' segs, twoToSend.flush 0 = some (c', segs) ∧ segs.map (·.data) = [[1], [2]] ∧
    Consecutive 0 segs := by
  have hsends := (flush_sends_stream 0 twoToSend rfl).2
  have hdata : (twoToSend.flush 0).map (fun r => r.2.map (·.data)) = some [[1], [2]] := by decide
  obtain ⟨⟨c', segs⟩, h, hsegs⟩ := Option.map_eq_some_iff.mp hdata
  exact ⟨c', segs, h, hsegs, (hsends c' segs h).2.1⟩

/-- With a window of more than one segment a single byte is not sent: `drain` panics. -/
theorem flush_panics : TcpConn.flush { TcpConn.new with state := .established, txBuf := [1] } 0 = none := by decide

/-! ### The window -/

structure Sender where
  conn : TcpConn
  advertised : UInt16

def Sender.step (ourIp : UInt32) (s : Sender) : TxEvent → Option Sender
  | .write data => some { s with conn := (s.conn.write data).1 }
  | .flush => (s.conn.flush ourIp).map fun r => { s with conn := r.1 }
  | .segment seq ack flags window data => some ⟨(s.conn.process ourIp seq ack flags window data).1, window⟩

def TcpConn.outstanding (c : TcpConn) : Nat := (c.sndNxt - c.sndUna).toNat

theorem Sender.reach {c₀ : TcpConn} {s : Sender}
    (h : Reach (fun s e t => Sender.step ourIp s e = some t) (fun _ _ => True) ⟨c₀, c₀.sndWnd⟩ s) :
    s.conn.sndWnd = s.advertised ∨ s.conn.state = .closed := by
  refine h.invariant (I := fun s => s.conn.sndWnd = s.advertised ∨ s.conn.state = .closed) (.inl rfl) ?_
  intro s e t hs _ hstep
  cases e with
  | write data =>
    cases hstep
    rw [TcpConn.write]
    split <;> exact hs
  | flush =>
    obtain ⟨⟨c', segs⟩, hflush, rfl⟩ := Option.map_eq_some_iff.mp hstep
    have hchunks := flush_chunks hflush
    rw [hchunks.sends.2.2.1, hchunks.fields.1]
    exact hs
  | segment seq ack flags window data =>
    cases hstep
    exact (process_kept s.conn ..).2

theorem flush_idle (hf : c.flush ourIp = some (c', segs))
    (hidle : c.state ≠ .established ∨ c.txBuf = [] ∨ c.sndWnd = 0) : segs = [] := by
  by_cases hst : c.state = .established
  · cases flush_chunks hf with
    | done => rfl
    | @round _ _ _ n hpos hn hle _ =>
      rcases hidle with hne | hnone | hzero
      · exact absurd hst hne
      · rw [hnone, length_nil] at hn
        omega
      · rw [hzero] at hle
        exact absurd hpos (not_lt.mpr hle)
  · rw [TcpConn.flush, if_pos hst] at hf
    cases hf
    rfl

/-- A flush from `c` to `c'` keeps to a window: what is outstanding fits in it, or did not before and nothing is sent. -/
def KeepsWindow (window : UInt16) (c c' : TcpConn) (segs : List Segment) : Prop :=
  c'.outstanding ≤ window.toNat ∨ window.toNat < c.outstanding ∧ segs = []

/-- In every run a `flush` that returns keeps to the window that the peer advertised last, exactly if it has nothing to
    send, the window is closed or the whole buffer fits in it beside what is outstanding. -/
theorem flush_within_window {c₀ : TcpConn} {s : Sender}
    (h : Reach (fun s e t => Sender.step ourIp s e = some t) (fun _ _ => True) ⟨c₀, c₀.sndWnd⟩ s)
    (hf : s.conn.flush ourIp = some (c', segs)) :
    KeepsWindow s.advertised s.conn c' segs ↔
      s.conn.state ≠ .established ∨ s.conn.txBuf = [] ∨ s.advertised = 0 ∨
        (s.conn.outstanding + s.conn.txBuf.length) % 2 ^ 32 ≤ s.advertised.toNat := by
  have hchunks := flush_chunks hf
  obtain ⟨hbuf, -, -, -, hnxt⟩ := hchunks.sends
  have hout : c'.outstanding = (s.conn.outstanding + (segs.flatMap (·.data)).length) % 2 ^ 32 := by
    rw [outstanding, hnxt, hchunks.fields.2.1]
    exact dist_add ..
  have hwnd (hst : s.conn.state = .established) : s.conn.sndWnd = s.advertised :=
    (Sender.reach h).resolve_right (by simp [hst])
  by_cases hidle : s.conn.state ≠ .established ∨ s.conn.txBuf = [] ∨ s.advertised = 0
  · obtain rfl : segs = [] := by
      refine flush_idle hf ?_
      by_cases hst : s.conn.state = .established
      · rwa [hwnd hst]
      · exact .inl hst
    have hlt : s.conn.outstanding < 2 ^ 32 := UInt32.toNat_lt _
    rw [flatMap_nil, length_nil, add_zero, Nat.mod_eq_of_lt hlt] at hout
    refine iff_of_true ?_ ?_
    · rw [KeepsWindow, hout]
      exact (le_or_gt _ _).imp_right fun hgt => ⟨hgt, rfl⟩
    · exact hidle.imp_right (·.imp_right .inl)
  · -- the whole buffer is sent
    simp only [not_or, not_not] at hidle
    obtain ⟨hst, hsome, hopen⟩ := hidle
    rw [flush_all hst hf (hwnd hst ▸ hopen), append_nil] at hbuf
    have hsegs : segs ≠ [] := by
      rintro rfl
      exact hsome hbuf
    rw [KeepsWindow, hout, ← hbuf]
    simp [hst, hsome, hopen, hsegs]

theorem flush_within_window_two : ∃ c' segs,
    TcpConn.flush { twoToSend with nodelay := true, sndWnd := 2 } 0 = some (c', segs) ∧ c'.outstanding ≤ 2 := by
  have hsome : (TcpConn.flush { twoToSend with nodelay := true, sndWnd := 2 } 0).isSome = true := by decide
  obtain ⟨⟨c', segs⟩, hf⟩ := Option.isSome_iff_exists.mp hsome
  have hrespects := (flush_within_window (s := ⟨_, 2⟩) .start hf).mpr (.inr (.inr (.inr (by decide))))
  exact ⟨c', segs, hf, hrespects.resolve_right fun hex => absurd hex.1 (by decide)⟩

/-- With a window of one byte two bytes are sent, one in each segment. -/
theorem flush_exceeds_window : (twoToSend.flush 0).map
    (fun r => (twoToSend.outstanding, twoToSend.sndWnd, r.1.outstanding)) =
    some (0, 1, 2) := by decide

end Moxide.Tcp

import Moxide.Tcp

/-! The cases of `process_established` and the rounds of `flush`. -/

namespace Moxide.Tcp
open List Option TcpConn

theorem conn?_eq_some {net : Net} {idx : Nat} {c : TcpConn} : net.conn? idx = some c ↔ net.conns[idx]? = some (some c) := by
  unfold Net.conn?
  cases h : net.conns[idx]? with
  | none => simp
  | some slot => cases slot <;> simp

theorem mem_of_conn? {net : Net} {idx : Nat} {c : TcpConn} (h : net.conn? idx = some c) : some c ∈ net.conns :=
  mem_of_getElem? (conn?_eq_some.mp h)

/-! ### Segment input -/

/-- What a segment can do: nothing but make the kernel send, reach the connection that it belongs to, or, if there is none,
    join the backlog of a listener. -/
theorem receive_cases (net : Net) (ourIp rand32 srcIp : UInt32) (pkt : List UInt8) :
    (∃ segs, receive net ourIp rand32 srcIp pkt = net.emit segs) ∨
    (∃ idx c segs seq window data, net.conn? idx = some c ∧
      isConnTo (header pkt).dstPort srcIp (header pkt).srcPort (some c) ∧
      receive net ourIp rand32 srcIp pkt = (net.setConn idx
        (some (c.process ourIp seq (header pkt).ackNum (header pkt).flags window data).1)).emit segs) ∨
    ∃ idx l segs, net.conn? idx = some l ∧
      receive net ourIp rand32 srcIp pkt = (net.setConn idx
        (some { l with backlog := l.backlog ++ [halfOpen ourIp rand32 srcIp (header pkt)] })).emit segs := by
  have hsame : net = net.emit [] := by simp [Net.emit]
  have hreject : ∀ data, ∃ segs, reject net ourIp srcIp (header pkt) data = net.emit segs := by
    intro data
    rw [reject]
    split
    · exact ⟨_, rfl⟩
    · exact ⟨[], hsame⟩
  simp only [receive]
  split
  · exact .inl ⟨[], hsame⟩
  split
  · exact .inl ⟨[], hsame⟩
  split
  · exact .inl ⟨[], hsame⟩
  split
  · rename_i idx hidx
    obtain ⟨hlt, hto, -⟩ := findIdx?_eq_some_iff_getElem.mp hidx
    rw [processEstablished]
    split
    · exact .inl ⟨[], hsame⟩
    · rename_i c hc
      rw [(List.getElem?_eq_some_iff.mp (conn?_eq_some.mp hc)).2] at hto
      exact .inr (.inl ⟨idx, c, _, _, _, _, hc, hto, rfl⟩)
  split
  · split
    · split
      · rename_i l hl
        exact .inr (.inr ⟨_, l, _, hl, rfl⟩)
      · exact .inl ⟨_, rfl⟩
    · exact .inl (hreject _)
  · exact .inl (hreject _)

section Process
variable {c : TcpConn} {ourIp seq ack : UInt32} {flags : UInt8} {window : UInt16} {data : List UInt8}

def TcpConn.acked (c : TcpConn) (ack : UInt32) (flags : UInt8) (window : UInt16) : TcpConn :=
  if flags &&& ACK ≠ 0 then ({ c with sndWnd := window }.acknowledge ack).afterAck else { c with sndWnd := window }

theorem process_cases (hsyn : c.state ≠ .synSent) :
    (flags &&& RST ≠ 0 ∧ (c.process ourIp seq ack flags window data).1 = { c with state := .closed }) ∨
    ((c.acked ack flags window).state = .lastAck ∧
      (c.process ourIp seq ack flags window data).1 = { c.acked ack flags window with state := .closed }) ∨
    c.process ourIp seq ack flags window data = (c.acked ack flags window).deliver ourIp seq flags data := by
  unfold process
  dsimp only
  split
  · exact .inl ⟨‹_›, rfl⟩
  right
  unfold acked
  split
  · rw [if_neg (fun h => hsyn h.1)]
    split
    · rename_i h
      exact .inl ⟨h.1, rfl⟩
    · exact .inr rfl
  · exact .inr rfl

theorem afterAck_fields (c : TcpConn) : c.afterAck.rcvNxt = c.rcvNxt ∧ c.afterAck.rxBuf = c.rxBuf ∧
    c.afterAck.sndNxt = c.sndNxt ∧ c.afterAck.sndUna = c.sndUna ∧ c.afterAck.unacked = c.unacked := by
  unfold afterAck
  dsimp only
  split <;> split <;> exact ⟨rfl, rfl, rfl, rfl, rfl⟩

theorem acknowledge_fields (c : TcpConn) (ack : UInt32) : (c.acknowledge ack).rcvNxt = c.rcvNxt ∧
    (c.acknowledge ack).rxBuf = c.rxBuf ∧ (c.acknowledge ack).state = c.state := by
  unfold acknowledge
  split <;> exact ⟨rfl, rfl, rfl⟩

theorem acked_fields (c : TcpConn) (ack : UInt32) (flags : UInt8) (window : UInt16) :
    (c.acked ack flags window).rcvNxt = c.rcvNxt ∧ (c.acked ack flags window).rxBuf = c.rxBuf := by
  unfold acked
  split
  · obtain ⟨a1, a2, -⟩ := afterAck_fields ({ c with sndWnd := window }.acknowledge ack)
    obtain ⟨b1, b2, -⟩ := acknowledge_fields { c with sndWnd := window } ack
    exact ⟨a1.trans b1, a2.trans b2⟩
  · exact ⟨rfl, rfl⟩

def TcpState.Opened (st : TcpState) : Prop := st ≠ .synSent ∧ st ≠ .synReceived

theorem acked_state (hst : c.state.Opened) :
    (c.acked ack flags window).state.Opened ∧ (c.acked ack flags window).state.receiving = c.state.receiving := by
  unfold acked
  split
  · have hack : ({ c with sndWnd := window }.acknowledge ack).state = c.state := (acknowledge_fields _ ack).2.2
    unfold afterAck
    dsimp only
    rw [hack, if_neg hst.2]
    split
    · rename_i h
      rw [← hack, h.1]
      exact ⟨⟨by simp, by simp⟩, rfl⟩
    · rw [hack]
      exact ⟨hst, rfl⟩
  · exact ⟨hst, rfl⟩

theorem afterFin_opened {st : TcpState} (h : st.Opened) : st.afterFin.Opened := by
  cases st <;> first | exact h | exact ⟨by simp [TcpState.afterFin], by simp [TcpState.afterFin]⟩

theorem deliver_fields (c : TcpConn) (ourIp seq : UInt32) (flags : UInt8) (data : List UInt8) :
    (c.deliver ourIp seq flags data).1.sndNxt = c.sndNxt ∧ (c.deliver ourIp seq flags data).1.sndUna = c.sndUna ∧
    (c.deliver ourIp seq flags data).1.unacked = c.unacked := by
  unfold deliver
  split
  · split <;> split <;> exact ⟨rfl, rfl, rfl⟩
  · exact ⟨rfl, rfl, rfl⟩

theorem deliver_opened (hst : c.state.Opened) : (c.deliver ourIp seq flags data).1.state.Opened := by
  unfold deliver
  split
  · split <;> split <;> first | exact afterFin_opened hst | exact hst
  · exact hst

theorem process_opened (hst : c.state.Opened) : (c.process ourIp seq ack flags window data).1.state.Opened := by
  rcases @process_cases c ourIp seq ack flags window data hst.1 with ⟨-, h⟩ | ⟨-, h⟩ | h
  · rw [h]
    exact ⟨by simp, by simp⟩
  · rw [h]
    exact ⟨by simp, by simp⟩
  · rw [h]
    exact deliver_opened (acked_state hst).1

structure Ends where
  localPort : UInt16
  remoteIp : UInt32
  remotePort : UInt16
  isn : UInt32

/-- What no segment changes: the ends of the connection, the next sequence number to send and the backlog. -/
def TcpConn.kept (c : TcpConn) : Ends × UInt32 × List TcpConn :=
  (⟨c.localPort, c.remoteIp, c.remotePort, c.sndIsn⟩, c.sndNxt, c.backlog)

theorem process_kept (c : TcpConn) (ourIp seq ack : UInt32) (flags : UInt8) (window : UInt16) (data : List UInt8) :
    (c.process ourIp seq ack flags window data).1.kept = c.kept ∧
      ((c.process ourIp seq ack flags window data).1.sndWnd = window ∨
        (c.process ourIp seq ack flags window data).1.state = .closed) := by
  have hack : ∀ d : TcpConn, (d.acknowledge ack).afterAck.kept = d.kept ∧
    (d.acknowledge ack).afterAck.sndWnd = d.sndWnd := by
    intro d
    simp only [acknowledge, afterAck]
    split <;> split <;> split <;> exact ⟨rfl, rfl⟩
  have hdeliver : ∀ d : TcpConn, (d.deliver ourIp seq flags data).1.kept = d.kept ∧
      (d.deliver ourIp seq flags data).1.sndWnd = d.sndWnd := by
    intro d
    simp only [deliver]
    split
    · split <;> split <;> exact ⟨rfl, rfl⟩
    · exact ⟨rfl, rfl⟩
  simp only [process]
  split
  · exact ⟨rfl, .inr rfl⟩
  split
  · split
    · exact ⟨rfl, .inl rfl⟩
    split
    · exact ⟨(hack _).1, .inr rfl⟩
    · exact ⟨(hdeliver _).1.trans (hack _).1, .inl ((hdeliver _).2.trans (hack _).2)⟩
  · exact ⟨(hdeliver _).1, .inl (hdeliver _).2⟩

end Process

inductive Chunks (ourIp : UInt32) : TcpConn → TcpConn → List Segment → Prop where
  | done (c : TcpConn) : Chunks ourIp c c []
  | round {c c' : TcpConn} {segs : List Segment} {n : Nat} (hpos : 0 < n) (hn : n ≤ c.txBuf.length)
      (hwnd : n ≤ c.sndWnd.toNat) (h : Chunks ourIp (c.sendChunk n) c' segs) :
      Chunks ourIp c c' (c.segmentTo ourIp c.sndNxt (PSH ||| ACK) (c.txBuf.take n) :: segs)

theorem flushLoop_spec (ourIp : UInt32) : ∀ (fuel : Nat) (c c' : TcpConn) (segs : List Segment),
    flushLoop ourIp fuel c = some (c', segs) →
      Chunks ourIp c c' segs ∧ (c.txBuf.length ≤ fuel → c'.txBuf = [] ∨ c'.chunkLen = 0) := by
  intro fuel
  induction fuel with
  | zero =>
    intro c c' segs h
    cases h
    exact ⟨.done c, fun hlen => .inl (length_eq_zero_iff.mp (Nat.le_zero.mp hlen))⟩
  | succ fuel ih =>
    intro c c' segs h
    unfold flushLoop at h
    split at h
    · cases h
      exact ⟨.done c, fun _ => .inl ‹_›⟩
    split at h
    · cases h
      exact ⟨.done c, fun _ => .inr ‹_›⟩
    split at h
    · cases h
    rename_i h0 hlen
    obtain ⟨⟨c₁, segs₁⟩, h₁, h₂⟩ := bind_eq_some_iff.mp h
    cases h₂
    obtain ⟨hchunks, hdrains⟩ := ih _ _ _ h₁
    refine ⟨.round (Nat.pos_of_ne_zero h0) (not_lt.mp hlen) (Nat.min_le_right _ _) hchunks, fun hfuel => hdrains ?_⟩
    simp only [sendChunk, length_drop]
    omega

theorem flush_chunks {c c' : TcpConn} {ourIp : UInt32} {segs : List Segment} (h : c.flush ourIp = some (c', segs)) :
    Chunks ourIp c c' segs := by
  unfold TcpConn.flush at h
  split at h
  · cases h
    exact .done c
  · exact (flushLoop_spec ourIp _ _ _ _ h).1

theorem Chunks.fields {ourIp : UInt32} {c c' : TcpConn} {segs : List Segment} (h : Chunks ourIp c c' segs) :
    c'.state = c.state ∧ c'.sndUna = c.sndUna ∧ c'.backlog = c.backlog := by
  induction h with
  | done c => exact ⟨rfl, rfl, rfl⟩
  | round _ _ _ _ ih => exact ih

end Moxide.Tcp

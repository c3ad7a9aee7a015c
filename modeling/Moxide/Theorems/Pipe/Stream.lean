import Moxide.Lib.Reach
import Moxide.Pipe

/-! A pipe is a byte stream: what reads have taken out followed by what the ring holds is what writes have stored. -/

namespace Moxide.Pipe
open Lib List
open WriteSection (record)

def bytesOf (l : List (Nat × List UInt8)) : List UInt8 := l.flatMap Prod.snd

def ofCall (i : Nat) (l : List (Nat × List UInt8)) : List (List UInt8) := (l.filter (·.1 = i)).map Prod.snd

@[simp] theorem ofCall_append (i : Nat) (l m : List (Nat × List UInt8)) : ofCall i (l ++ m) = ofCall i l ++ ofCall i m := by
  simp [ofCall]

theorem mem_ofCall {i : Nat} {l : List (Nat × List UInt8)} {b : List UInt8} : b ∈ ofCall i l ↔ (i, b) ∈ l := by
  simp [ofCall]

/-! ### The ring -/

def PipeInner.unread (p : PipeInner) : List UInt8 := Ring.contents p.buf p.head p.len

structure PipeInner.Sized (p : PipeInner) : Prop where
  size : p.buf.length = PIPE_BUF_SIZE
  fits : p.len ≤ PIPE_BUF_SIZE

namespace PipeInner
variable {p : PipeInner} {src : List UInt8}

theorem space_new (nonblocking : Bool) : (new nonblocking).space = PIPE_BUF_SIZE := by
  rw [space, capacity, new, length_replicate]
  rfl

section
variable (hp : p.Sized)
include hp

theorem Sized.length_unread : p.unread.length = p.len :=
  Ring.length_contents _ (hp.fits.trans hp.size.ge)

theorem Sized.writeBytes (h : src.length ≤ p.space) : (p.writeBytes src).Sized := by
  have hfits := hp.fits
  have hsize := hp.size
  refine ⟨?_, ?_⟩
  · simp [PipeInner.writeBytes, hsize]
  · simp only [PipeInner.writeBytes, space, capacity] at h ⊢
    omega

theorem unread_writeBytes (h : src.length ≤ p.space) : (p.writeBytes src).unread = p.unread ++ src := by
  have hfits := hp.fits
  have hsize := hp.size
  simp only [space, capacity] at h
  refine Ring.contents_fill src ?_ ?_
  · omega
  · exact Nat.mod_mod _ _

theorem Sized.readBytes (want : Nat) : (p.readBytes want).2.Sized :=
  ⟨hp.size, (Nat.sub_le _ _).trans hp.fits⟩

theorem readBytes_fst (want : Nat) : (p.readBytes want).1 = p.unread.take want := by
  calc (p.readBytes want).1
    _ = p.unread.take (min want p.len) :=
      Ring.slice_eq_take p.head (Nat.min_le_right _ _) (hp.fits.trans hp.size.ge)
    _ = p.unread.take want := by rw [← hp.length_unread, ← take_eq_take_min]

theorem readBytes_unread (want : Nat) : (p.readBytes want).1 ++ (p.readBytes want).2.unread = p.unread := by
  have hle : p.len ≤ p.buf.length := hp.fits.trans hp.size.ge
  have hn : min want p.len ≤ p.len := Nat.min_le_right _ _
  have htake := Ring.slice_eq_take p.head hn hle
  have hdrop := Ring.contents_advance p.head hn hle
  simp only [PipeInner.readBytes, unread, capacity]
  rw [htake, hdrop, take_append_drop]

end

theorem readSection_data (want : Nat) (h : p.len ≠ 0) :
    p.readSection want = ((p.readBytes want).2, .data (p.readBytes want).1) := by
  rw [readSection, isEmpty, decide_eq_false h, if_neg Bool.false_ne_true]

theorem readSection_cases (p : PipeInner) (want : Nat) :
    (∃ eof nonblock, p.readSection want = (p, .empty eof nonblock)) ∨
      p.readSection want = ((p.readBytes want).2, .data (p.readBytes want).1) := by
  unfold readSection
  split
  · exact .inl ⟨_, _, rfl⟩
  · exact .inr rfl

theorem writeSection_cases (p : PipeInner) (atomic : Bool) (remaining : List UInt8) :
    (p.writeSection atomic remaining = (p, .broken)) ∨
      (∃ nonblock, p.writeSection atomic remaining = (p, .full nonblock)) ∨
      ∃ chunk, p.writeSection atomic remaining = (p.writeBytes chunk, .wrote chunk) ∧ chunk.length ≤ p.space ∧
        chunk <+: remaining ∧ (atomic → chunk = remaining) := by
  unfold writeSection
  split
  · exact .inl rfl
  split
  · exact .inr (.inl ⟨_, rfl⟩)
  split
  · split
    · rename_i hspace
      exact .inr (.inr ⟨remaining, rfl, hspace, prefix_refl _, fun _ => rfl⟩)
    · exact .inr (.inl ⟨_, rfl⟩)
  · rename_i hatomic
    refine .inr (.inr ⟨_, rfl, ?_, take_prefix _ _, fun h => absurd h hatomic⟩)
    rw [length_take]
    omega

end PipeInner

/-! ### One call -/

/-- A read has taken nothing out, or its bytes in one piece, and then it has returned their number. -/
def Reader.Ok (r : Reader) (reads : List (List UInt8)) : Prop :=
  (reads = [] ∧ r.bytes = [] ∧ ∀ n, r.point = .done n → n ≤ 0) ∨ (reads = [r.bytes] ∧ r.point = .done r.bytes.length)

structure Writer.Stored (w : Writer) (chunks : List (List UInt8)) : Prop where
  remaining : w.remaining = w.buf.drop w.written
  le : w.written ≤ w.buf.length
  stored : chunks.flatten = w.buf.take w.written
  small : w.buf.length ≤ PIPE_BUF → (w.written = 0 ∧ chunks = []) ∨ (w.written = w.buf.length ∧ chunks = [w.buf])

/-- Besides, the mode fits what remains until the write returns, and a positive result is what it has written. -/
structure Writer.Ok (w : Writer) (chunks : List (List UInt8)) : Prop extends w.Stored chunks where
  busy : (∀ n, w.point ≠ .done n) → w.remaining ≠ [] ∧ w.atomic = decide (w.remaining.length ≤ PIPE_BUF)
  returned : ∀ n, w.point = .done n → 0 < n → n = w.written

def Call.Ok (chunks reads : List (List UInt8)) : Call → Prop
  | .read r => r.Ok reads ∧ chunks = []
  | .write w => w.Ok chunks ∧ reads = []

theorem Reader.ok_start (want : Nat) : (Reader.start want).Ok [] := by
  refine .inl ⟨rfl, rfl, ?_⟩
  intro n hn
  by_cases hw : want = 0 <;> simp [Reader.start, hw] at hn
  exact hn.ge

section
variable {r : Reader} {reads : List (List UInt8)} (h : r.Ok reads)
include h

theorem Reader.Ok.after (hp : r.point = .lock) (i : Nat) (out : ReadSection) :
    (r.after out).Ok (reads ++ ofCall i (out.record i)) := by
  obtain ⟨rfl, hbytes, -⟩ | ⟨-, hdone⟩ := h
  · cases out with
    | data bytes => exact .inr ⟨by simp [ReadSection.record, ofCall, Reader.after], rfl⟩
    | empty isEof nonblock =>
      refine .inl ⟨by simp [ReadSection.record, ofCall], hbytes, ?_⟩
      intro n hn
      simp only [Reader.after] at hn
      split at hn
      · cases hn; decide
      · split at hn
        · cases hn; decide
        · cases hn
  · rw [hp] at hdone
    cases hdone

theorem Reader.Ok.woken (hp : r.point = .wait) (reason : Sync.WakeReason) : (r.woken reason).Ok reads := by
  obtain ⟨hreads, hbytes, -⟩ | ⟨-, hdone⟩ := h
  · refine .inl ⟨hreads, ?_, ?_⟩ <;> cases reason <;> simp [Reader.woken, hbytes, EINTR]
  · rw [hp] at hdone
    cases hdone

end

namespace Writer
variable {w : Writer} {chunks : List (List UInt8)}

theorem Stored.top (h : w.Stored chunks) : w.top.Ok chunks := by
  unfold Writer.top
  split
  · refine ⟨{ h with }, ?_, ?_⟩
    · intro hn
      exact absurd rfl (hn w.written)
    · intro n hn _
      cases hn
      rfl
  · rename_i hrem
    refine ⟨{ h with }, fun _ => ⟨?_, rfl⟩, ?_⟩
    · rwa [List.isEmpty_iff] at hrem
    · intro n hn
      cases hn

theorem ok_start (buf : List UInt8) : (Writer.start buf).Ok [] :=
  Stored.top ⟨rfl, Nat.zero_le _, rfl, fun _ => .inl ⟨rfl, rfl⟩⟩

variable (h : w.Ok chunks)
include h

theorem Ok.giveUp (err : Int) (herr : err ≤ 0) : (w.giveUp err).Ok chunks := by
  refine ⟨{ h with }, ?_, ?_⟩
  · intro hn
    exact absurd rfl (hn _)
  · intro n hn hpos
    simp only [Writer.giveUp, Point.done.injEq] at hn
    split at hn
    · omega
    · exact hn.symm

theorem Ok.pause (hbusy : ∀ n, w.point ≠ .done n) (pt : Point) (hpt : ∀ n, pt ≠ .done n) :
    { w with point := pt }.Ok chunks :=
  ⟨{ h with }, fun _ => h.busy hbusy, fun n hn => absurd hn (hpt n)⟩

theorem Ok.wrote (hbusy : ∀ n, w.point ≠ .done n) {chunk : List UInt8} (hpre : chunk <+: w.remaining)
    (hatomic : w.atomic → chunk = w.remaining) : (w.after (.wrote chunk)).Ok (chunks ++ [chunk]) := by
  obtain ⟨hne, hmode⟩ := h.busy hbusy
  have hchunk : chunk = (w.buf.drop w.written).take chunk.length := by
    rw [← h.remaining]
    exact prefix_iff_eq_take.mp hpre
  have hlen : chunk.length ≤ w.buf.length - w.written := by
    have hle := hpre.length_le
    rwa [h.remaining, length_drop] at hle
  have hle := h.le
  refine Stored.top ⟨?_, ?_, ?_, ?_⟩
  · rw [h.remaining, drop_drop]
  · change w.written + chunk.length ≤ w.buf.length
    omega
  · rw [flatten_append, h.stored, take_add, ← hchunk]
    simp
  · intro hbuf
    obtain ⟨h0, hnil⟩ | ⟨hall, -⟩ := h.small hbuf
    · -- nothing stored yet, so the mode is atomic and the chunk is the whole buffer
      have hrem : w.remaining = w.buf := by rw [h.remaining, h0, drop_zero]
      have hwhole := hatomic (by rw [hmode, hrem]; exact decide_eq_true hbuf)
      rw [hrem] at hwhole
      exact .inr ⟨by simp [h0, hwhole], by rw [hnil, hwhole, nil_append]⟩
    · refine absurd ?_ hne
      rw [h.remaining, hall, drop_length]

theorem Ok.woken (hp : w.point = .wait) (reason : Sync.WakeReason) : (w.woken reason).Ok chunks := by
  have hbusy : ∀ n, w.point ≠ .done n := fun n hn => by rw [hp] at hn; cases hn
  cases reason with
  | cancelled => exact h.giveUp EINTR (by decide)
  | ready => exact h.pause hbusy .lock (by simp)
  | timeout => exact h.pause hbusy .lock (by simp)

end Writer

/-! ### Runs -/

structure Stream.Inv (s : Stream) : Prop where
  sized : s.inner.Sized
  stream : bytesOf s.chunks = bytesOf s.reads ++ s.inner.unread
  calls : ∀ i (c : Call), s.calls[i]? = some c → c.Ok (ofCall i s.chunks) (ofCall i s.reads)
  fresh : ∀ i, s.calls.length ≤ i → ofCall i s.chunks = [] ∧ ofCall i s.reads = []

namespace Stream
variable {s t : Stream} {i : Nat} {c : Call} {inner : PipeInner}

theorem inv_new (nonblocking : Bool) : (Stream.new nonblocking).Inv := by
  refine ⟨⟨length_replicate, Nat.zero_le _⟩, ?_, ?_, ?_⟩
  · simp [Stream.new, bytesOf, PipeInner.unread, PipeInner.new]
  · intro i c hc
    simp [Stream.new] at hc
  · intro i _
    exact ⟨rfl, rfl⟩

section
variable (h : s.Inv)
include h

theorem Inv.push (hc : c.Ok [] []) : { s with calls := s.calls ++ [c] }.Inv := by
  refine ⟨h.sized, h.stream, ?_, ?_⟩
  · intro i d hd
    rcases lt_or_ge i s.calls.length with hi | hi
    · rw [getElem?_append_left hi] at hd
      exact h.calls i d hd
    obtain ⟨hchunks, hreads⟩ := h.fresh i hi
    rw [getElem?_append_right hi] at hd
    have hmem := mem_of_getElem? hd
    rw [mem_singleton] at hmem
    subst hmem
    rw [hchunks, hreads]
    exact hc
  · intro i hi
    rw [length_append] at hi
    exact h.fresh i (by omega)

theorem Inv.setCall (d : Call) (chunks reads : List (Nat × List UInt8)) (hi : s.calls[i]? = some c) (hsized : inner.Sized)
    (hstream : bytesOf (s.chunks ++ chunks) = bytesOf (s.reads ++ reads) ++ inner.unread)
    (hd : d.Ok (ofCall i (s.chunks ++ chunks)) (ofCall i (s.reads ++ reads)))
    (hown : ∀ e, e ∈ chunks ∨ e ∈ reads → e.1 = i) :
    (Stream.mk inner (s.calls.set i d) (s.chunks ++ chunks) (s.reads ++ reads)).Inv := by
  have hlt : i < s.calls.length := (List.getElem?_eq_some_iff.mp hi).1
  have hother : ∀ j, j ≠ i → ofCall j (s.chunks ++ chunks) = ofCall j s.chunks ∧
      ofCall j (s.reads ++ reads) = ofCall j s.reads := by
    intro j hj
    have hnil : ∀ l : List (Nat × List UInt8), (∀ e ∈ l, e.1 = i) → ofCall j l = [] := by
      intro l hl
      rw [ofCall, filter_eq_nil_iff.mpr, map_nil]
      intro e he heq
      exact hj ((of_decide_eq_true heq).symm.trans (hl e he))
    rw [ofCall_append, ofCall_append, hnil chunks fun e he => hown e (.inl he),
      hnil reads fun e he => hown e (.inr he)]
    simp
  refine ⟨hsized, hstream, ?_, ?_⟩
  · intro j e he
    by_cases hj : j = i
    · subst hj
      rw [getElem?_set_self hlt] at he
      cases he
      exact hd
    · rw [getElem?_set_ne (Ne.symm hj)] at he
      rw [(hother j hj).1, (hother j hj).2]
      exact h.calls j e he
  · intro j hj
    rw [length_set] at hj
    rw [(hother j (by omega)).1, (hother j (by omega)).2]
    exact h.fresh j hj

theorem Inv.readLock {r : Reader} (hi : s.calls[i]? = some (.read r)) (hp : r.point = .lock) : (s.readLock i r).Inv := by
  obtain ⟨hr, hnone⟩ := h.calls i _ hi
  have hown : ∀ out : ReadSection, ∀ e ∈ out.record i, e.1 = i := by
    intro out e he
    cases out <;> simp [ReadSection.record] at he
    rw [he]
  have hkey : ∀ inner out, s.inner.readSection r.want = (inner, out) → inner.Sized →
      bytesOf s.chunks = bytesOf (s.reads ++ out.record i) ++ inner.unread → (s.readLock i r).Inv := by
    intro inner out hsec hsized hstream
    have hset := h.setCall (.read (r.after out)) [] (out.record i) hi hsized
      (by rw [append_nil]; exact hstream) ?_ (by simpa using hown out)
    · simpa [Stream.readLock, hsec] using hset
    · rw [append_nil, ofCall_append]
      exact ⟨hr.after hp i out, hnone⟩
  rcases s.inner.readSection_cases r.want with ⟨eof, nonblock, hsec⟩ | hsec
  · exact hkey _ _ hsec h.sized (by simpa [ReadSection.record] using h.stream)
  · refine hkey _ _ hsec (h.sized.readBytes _) ?_
    rw [h.stream, ← PipeInner.readBytes_unread h.sized r.want]
    simp [ReadSection.record, bytesOf]

theorem Inv.writeLock {w : Writer} (hi : s.calls[i]? = some (.write w)) (hp : w.point = .lock) : (s.writeLock i w).Inv := by
  obtain ⟨hw, hnone⟩ := h.calls i _ hi
  have hbusy : ∀ n, w.point ≠ .done n := fun n hn => by rw [hp] at hn; cases hn
  have hown : ∀ out : WriteSection, ∀ e ∈ out.record i, e.1 = i := by
    intro out e he
    cases out <;> simp [record] at he
    rw [he]
  have hkey : ∀ inner out, s.inner.writeSection w.atomic w.remaining = (inner, out) → inner.Sized →
      bytesOf (s.chunks ++ out.record i) = bytesOf s.reads ++ inner.unread →
      (w.after out).Ok (ofCall i s.chunks ++ ofCall i (out.record i)) → (s.writeLock i w).Inv := by
    intro inner out hsec hsized hstream hafter
    have hset := h.setCall (.write (w.after out)) (out.record i) [] hi hsized
      (by rw [append_nil]; exact hstream) ?_ (by simpa using hown out)
    · simpa [Stream.writeLock, hsec] using hset
    · rw [append_nil, ofCall_append]
      exact ⟨hafter, hnone⟩
  rcases s.inner.writeSection_cases w.atomic w.remaining with hsec | ⟨nonblock, hsec⟩ | ⟨chunk, hsec, hspace, hpre, hat⟩
  · refine hkey _ _ hsec h.sized (by simpa [record] using h.stream) ?_
    have hsig : { w with signalled := true }.Ok (ofCall i s.chunks) :=
      ⟨{ hw with }, hw.busy, hw.returned⟩
    simpa [record, ofCall, Writer.after] using hsig.giveUp EPIPE (by decide)
  · refine hkey _ _ hsec h.sized (by simpa [record] using h.stream) ?_
    cases nonblock with
    | true => simpa [record, ofCall, Writer.after] using hw.giveUp EAGAIN (by decide)
    | false => simpa [record, ofCall, Writer.after] using hw.pause hbusy .wait (by simp)
  · refine hkey _ _ hsec (h.sized.writeBytes hspace) ?_ ?_
    · rw [PipeInner.unread_writeBytes h.sized hspace, ← append_assoc, ← h.stream]
      simp [record, bytesOf]
    · simpa [record, ofCall] using hw.wrote hbusy hpre hat

theorem Inv.woken {d : Call} (hi : s.calls[i]? = some c)
    (hd : d.Ok (ofCall i s.chunks) (ofCall i s.reads)) : { s with calls := s.calls.set i d }.Inv := by
  have hset := h.setCall d [] [] hi h.sized (by simpa using h.stream) (by simpa using hd)
    (by simp)
  simpa using hset

theorem Inv.counters (hbuf : inner.buf = s.inner.buf) (hhead : inner.head = s.inner.head)
    (hlen : inner.len = s.inner.len) : { s with inner := inner }.Inv := by
  refine ⟨⟨?_, ?_⟩, ?_, h.calls, h.fresh⟩
  · exact hbuf ▸ h.sized.size
  · exact hlen ▸ h.sized.fits
  · rw [h.stream, PipeInner.unread, PipeInner.unread, hbuf, hhead, hlen]

theorem Inv.step {e : Event} (hs : s.step e = some t) : t.Inv := by
  cases e with
  | write buf => cases hs; exact h.push ⟨Writer.ok_start buf, rfl⟩
  | read want => cases hs; exact h.push ⟨Reader.ok_start want, rfl⟩
  | lock i =>
    simp only [Stream.step] at hs
    split at hs
    · rename_i r hi
      split at hs <;> cases hs
      exact h.readLock hi ‹_›
    · rename_i w hi
      split at hs <;> cases hs
      exact h.writeLock hi ‹_›
    · cases hs
  | woken i reason =>
    simp only [Stream.step] at hs
    split at hs
    · rename_i r hi
      split at hs <;> cases hs
      exact h.woken hi ⟨(h.calls i _ hi).1.woken ‹_› reason, (h.calls i _ hi).2⟩
    · rename_i w hi
      split at hs <;> cases hs
      exact h.woken hi ⟨(h.calls i _ hi).1.woken ‹_› reason, (h.calls i _ hi).2⟩
    · cases hs
  | dup e => cases hs; cases e <;> exact h.counters rfl rfl rfl
  | close e => cases hs; cases e <;> exact h.counters rfl rfl rfl

end

end Stream

structure Stream.Faithful (s : Stream) : Prop where
  /-- What reads took out is the first part of what writes stored. -/
  inOrder : bytesOf s.reads <+: bytesOf s.chunks
  /-- The ring holds the rest, at most 65536 bytes. -/
  rest : bytesOf s.chunks = bytesOf s.reads ++ s.inner.unread
  bounded : s.inner.unread.length ≤ 65536
  /-- What was taken out is what reads have returned: each record is the bytes of a read that returned their number,
      and a read that returned a positive number has one record. -/
  recorded : ∀ i b, (i, b) ∈ s.reads → ∃ r, s.calls[i]? = some (.read r) ∧ r.bytes = b ∧ r.point = .done b.length
  once : ∀ i r n, s.calls[i]? = some (.read r) → r.point = .done n → 0 < n →
    n = r.bytes.length ∧ ofCall i s.reads = [r.bytes]
  /-- The section of a read that finds bytes in the ring takes as many as the read wants, or all there are. -/
  takes : ∀ i r t, s.calls[i]? = some (.read r) → s.step (.lock i) = some t → s.inner.unread ≠ [] →
    t.reads = s.reads ++ [(i, s.inner.unread.take r.want)]
  /-- Every chunk was stored by a write. -/
  chunks : ∀ i b, (i, b) ∈ s.chunks → ∃ w, s.calls[i]? = some (.write w)
  /-- A write that returned a positive number stored that many bytes of its buffer, the first ones in order. -/
  counted : ∀ i w n, s.calls[i]? = some (.write w) → w.point = .done n → 0 < n →
    n ≤ w.buf.length ∧ (ofCall i s.chunks).flatten = w.buf.take n.toNat
  /-- A small write stored nothing, or all its bytes as one chunk. -/
  atomic : ∀ i w, s.calls[i]? = some (.write w) → w.buf.length ≤ 4096 →
    ofCall i s.chunks = [] ∨ ofCall i s.chunks = [w.buf]

theorem Stream.Inv.exists_call {s : Stream} (h : s.Inv) {i : Nat} {b : List UInt8}
    (hb : (i, b) ∈ s.chunks ∨ (i, b) ∈ s.reads) : ∃ c, s.calls[i]? = some c := by
  rcases lt_or_ge i s.calls.length with hi | hi
  · exact ⟨_, getElem?_eq_getElem hi⟩
  obtain ⟨hchunks, hreads⟩ := h.fresh i hi
  rcases hb with hb | hb
  · have := mem_ofCall.mpr hb
    rw [hchunks] at this
    cases this
  · have := mem_ofCall.mpr hb
    rw [hreads] at this
    cases this

theorem Stream.Inv.takes {s t : Stream} (h : s.Inv) {i : Nat} {r : Reader} (hi : s.calls[i]? = some (.read r))
    (hs : s.step (.lock i) = some t) (hne : s.inner.unread ≠ []) :
    t.reads = s.reads ++ [(i, s.inner.unread.take r.want)] := by
  have hlen : s.inner.len ≠ 0 := by
    rw [← h.sized.length_unread]
    exact fun hzero => hne (length_eq_zero_iff.mp hzero)
  simp only [Stream.step, hi] at hs
  split at hs
  · cases hs
    rw [Stream.readLock, PipeInner.readSection_data r.want hlen, PipeInner.readBytes_fst h.sized]
    rfl
  · cases hs

theorem pipe_faithful (nonblocking : Bool) (s : Stream)
    (h : Reach (fun s e t => s.step e = some t) (fun _ _ => True) (Stream.new nonblocking) s) : s.Faithful := by
  have hinv : s.Inv := h.invariant (Stream.inv_new nonblocking) fun s e t hs _ hstep => hs.step hstep
  refine ⟨⟨s.inner.unread, hinv.stream.symm⟩, hinv.stream, ?_, ?_, ?_, fun _ _ _ => hinv.takes, ?_, ?_, ?_⟩
  · rw [hinv.sized.length_unread]
    exact hinv.sized.fits
  · intro i b hb
    obtain ⟨c, hc⟩ := hinv.exists_call (.inr hb)
    have hmem := mem_ofCall.mpr hb
    have hok := hinv.calls i c hc
    cases c with
    | read r =>
      obtain ⟨⟨hnil, -⟩ | ⟨hone, hdone⟩, -⟩ := hok
      · rw [hnil] at hmem
        cases hmem
      · rw [hone, mem_singleton] at hmem
        exact ⟨r, hc, hmem.symm, hmem ▸ hdone⟩
    | write w =>
      rw [hok.2] at hmem
      cases hmem
  · intro i r n hi hn hpos
    obtain ⟨⟨-, -, hle⟩ | ⟨hone, hdone⟩, -⟩ := hinv.calls i _ hi
    · exact absurd (hle n hn) (by omega)
    · rw [hn] at hdone
      exact ⟨Point.done.inj hdone, hone⟩
  · intro i b hb
    obtain ⟨c, hc⟩ := hinv.exists_call (.inl hb)
    have hmem := mem_ofCall.mpr hb
    cases c with
    | read r =>
      rw [(hinv.calls i _ hc).2] at hmem
      cases hmem
    | write w => exact ⟨w, hc⟩
  · intro i w n hi hn hpos
    obtain ⟨hw, -⟩ := hinv.calls i _ hi
    have hle := hw.le
    obtain rfl := hw.returned n hn hpos
    exact ⟨by omega, hw.stored⟩
  · intro i w hi hbuf
    rcases (hinv.calls i _ hi).1.small hbuf with ⟨-, hnil⟩ | ⟨-, hall⟩
    · exact .inl hnil
    · exact .inr hall

/-- Three bytes are written, and a read of two takes the first two. -/
theorem pipe_faithful_after_write : ∃ s t,
    Reach.run Stream.step (fun _ _ => true) (Stream.new false) [.write [1, 2, 3], .lock 0, .read 2] = some s ∧
      s.step (.lock 1) = some t ∧ t.reads = [(1, [1, 2])] ∧ t.Faithful := by
  have hlock : ∀ s : Stream, s.inner = .new false → s.chunks = [] →
      (s.writeLock 0 (.start [1, 2, 3])).chunks = [(0, [1, 2, 3])] := by
    intro s hinner hchunks
    have hsection : (PipeInner.new false).writeSection true [1, 2, 3] =
        ((PipeInner.new false).writeBytes [1, 2, 3], .wrote [1, 2, 3]) := by
      rw [PipeInner.writeSection, PipeInner.space_new, if_neg (by decide), if_neg (by decide), if_pos rfl,
        if_pos (by decide)]
    have hatomic : (Writer.start [1, 2, 3]).atomic = true := rfl
    have hremaining : (Writer.start [1, 2, 3]).remaining = [1, 2, 3] := rfl
    rw [Stream.writeLock, hinner, hchunks, hatomic, hremaining, hsection]
    rfl
  -- The run is evaluated on a stream of which only this is known, so that the 65536 bytes of the ring stay folded.
  have hrun : ∀ s₀ : Stream, s₀.inner = .new false → s₀.calls = [] → s₀.chunks = [] → s₀.reads = [] →
      ∃ s, Reach.run Stream.step (fun _ _ => true) s₀ [.write [1, 2, 3], .lock 0, .read 2] = some s ∧
        bytesOf s.chunks = [1, 2, 3] ∧ s.reads = [] ∧ s.calls[1]? = some (.read (.start 2)) := by
    rintro ⟨inner, calls, chunks, reads⟩ hinner rfl rfl rfl
    have hchunks := hlock ⟨inner, [.write (.start [1, 2, 3])], [], []⟩ hinner rfl
    exact ⟨_, rfl, congrArg bytesOf hchunks, rfl, rfl⟩
  obtain ⟨s, hs, hchunks, hreads, hread⟩ := hrun (.new false) rfl rfl rfl rfl
  have hreach := (Reach.of_run _ .start hs).mono fun _ _ _ => trivial
  have hfaithful := pipe_faithful false s hreach
  have hunread : [1, 2, 3] = s.inner.unread := by
    rw [← hchunks, hfaithful.rest, hreads]
    rfl
  have hstep : s.step (.lock 1) = some (s.readLock 1 (.start 2)) := by
    simp only [Stream.step, hread]
    exact if_pos rfl
  have htaken := hfaithful.takes 1 _ _ hread hstep (hunread ▸ cons_ne_nil _ _)
  rw [hreads, ← hunread] at htaken
  exact ⟨s, _, hs, hstep, htaken, pipe_faithful false _ (hreach.step _ trivial hstep)⟩

end Moxide.Pipe

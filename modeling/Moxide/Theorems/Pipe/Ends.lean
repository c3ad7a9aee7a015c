import Moxide.Lib.Reach
import Moxide.Pipe

/-! The references to the ends of pipes. `sys_close_pipe` takes an end out of the table at its first close, whatever its
    counter says. -/

namespace Moxide.Pipe
open Function (update update_of_ne update_self)
open Lib List Option

def PipeInner.openOf (p : PipeInner) : End → UInt32
  | .read => p.readOpen
  | .write => p.writeOpen

def End.offset : End → Nat
  | .read => 0
  | .write => 1

namespace PipeInner

variable (p : PipeInner)

theorem openOf_dup (e e' : End) : (p.dup e).openOf e' = if e' = e then saturatingAdd1 (p.openOf e) else p.openOf e' := by
  cases e <;> cases e' <;> rfl

theorem openOf_close (e e' : End) : (p.close e).openOf e' = if e' = e then saturatingSub1 (p.openOf e) else p.openOf e' := by
  cases e <;> cases e' <;> rfl

theorem openOf_readSection (want : Nat) (e : End) : (p.readSection want).1.openOf e = p.openOf e := by
  unfold readSection
  split <;> cases e <;> rfl

theorem openOf_writeSection (atomic : Bool) (remaining : List UInt8) (e : End) :
    (p.writeSection atomic remaining).1.openOf e = p.openOf e := by
  unfold writeSection
  split
  · rfl
  split
  · rfl
  · split
    · split <;> cases e <;> rfl
    · cases e <;> rfl

end PipeInner

namespace Table

/-- An end is closed only through its last reference, the counter of an end to be duplicated is not at its maximum, and
    the numbers of a new pipe's ends do not wrap. -/
def safe (t : Table) : Op → Bool
  | .pipe2 _ _ => t.nextPipeFd.toNat + 2 ^ 31 + 1 < 2 ^ 64
  | .dup bfd => t.refs bfd < 2 ^ 32 - 1
  | .close bfd => t.refs bfd = 1
  | .read _ _ | .write _ _ => true

/-- The ends handed out are pairs of numbers in the order of creation; each is in the table as long as there is a
    reference to it, and its counter is the number of these. -/
structure Inv (t : Table) : Prop where
  next : t.nextPipeFd.toNat = 2 * t.pipes.length
  small : 2 * t.pipes.length + 2 ^ 31 ≤ 2 ^ 64
  ends : ∀ p e bfd, (p, e, bfd) ∈ t.ends → p < t.pipes.length ∧ bfd.toNat = 2 ^ 31 + 2 * p + e.offset
  known : ∀ bfd, t.refs bfd ≠ 0 → ∃ p e, (p, e, bfd) ∈ t.ends
  mapped : ∀ p e bfd, (p, e, bfd) ∈ t.ends → t.refs bfd ≠ 0 → t.map bfd = some p
  counts : ∀ p e bfd inner, (p, e, bfd) ∈ t.ends → t.pipes[p]? = some inner → (inner.openOf e).toNat = t.refs bfd

variable {t u : Table}

theorem inv_new : Table.new.Inv := by
  refine ⟨rfl, by decide, ?_, ?_, ?_, ?_⟩
  · intro p e bfd h
    cases h
  · intro bfd h
    exact absurd rfl h
  · intro p e bfd h
    cases h
  · intro p e bfd inner h
    cases h

namespace Inv

variable {bfd : UInt64} {e : End} {p : Nat}

section
variable (h : t.Inv)
include h

theorem end_eq {q : Nat} {f : End} (hp : (p, e, bfd) ∈ t.ends) (hq : (q, f, bfd) ∈ t.ends) : p = q ∧ e = f := by
  have hp' := (h.ends p e bfd hp).2
  have hq' := (h.ends q f bfd hq).2
  cases e <;> cases f <;> simp only [End.offset] at hp' hq' <;> refine ⟨by omega, ?_⟩ <;> first | rfl | omega

theorem bfd_eq {a b : UInt64} (ha : (p, e, a) ∈ t.ends) (hb : (p, e, b) ∈ t.ends) : a = b :=
  UInt64.toNat_inj.mp ((h.ends p e a ha).2.trans (h.ends p e b hb).2.symm)

section
variable (hp : (p, e, bfd) ∈ t.ends)
include hp

theorem endOf_eq : endOf bfd = e := by
  have hnat := (h.ends p e bfd hp).2
  have hand : (bfd &&& 1).toNat = bfd.toNat % 2 := by
    exact Nat.and_one_is_mod _
  unfold endOf
  cases e with
  | read =>
    rw [if_pos]
    apply UInt64.toNat_inj.mp
    change (bfd &&& 1).toNat = 0
    rw [hand, hnat, End.offset]
    omega
  | write =>
    rw [if_neg]
    intro h0
    rw [h0, hnat, End.offset] at hand
    simp at hand
    omega

theorem base_le : ¬ bfd < PIPE_FD_BASE := by
  have hnat := (h.ends p e bfd hp).2
  rw [UInt64.lt_iff_toNat_lt]
  have hbase : PIPE_FD_BASE.toNat = 2 ^ 31 := rfl
  omega

/-- The references to one end change, its counter with them and the other one not; the end stays in the table unless no
    reference is left. -/
theorem recount {n : Nat} (f : PipeInner → PipeInner)
    (map : UInt64 → Option Nat) (hself : ∀ inner, t.pipes[p]? = some inner → ((f inner).openOf e).toNat = n)
    (hother : ∀ inner e', e' ≠ e → (f inner).openOf e' = inner.openOf e')
    (hmap : ∀ b, b ≠ bfd → map b = t.map b) (hmapped : n ≠ 0 → map bfd = some p) :
    { t with map := map, pipes := t.pipes.modify p f, refs := update t.refs bfd n }.Inv := by
  have hlen : (t.pipes.modify p f).length = t.pipes.length := length_modify ..
  refine ⟨by simpa [hlen] using h.next, by simpa [hlen] using h.small, by simpa [hlen] using h.ends, ?_, ?_, ?_⟩
  · intro b hb
    by_cases hbe : b = bfd
    · exact ⟨p, e, hbe ▸ hp⟩
    · exact h.known b (by simpa [update_of_ne hbe] using hb)
  · intro q e' b hq hb
    change map b = some q
    by_cases hbe : b = bfd
    · subst hbe
      obtain ⟨rfl, rfl⟩ := h.end_eq hp hq
      exact hmapped (by simpa using hb)
    · rw [hmap b hbe]
      exact h.mapped q e' b hq (by simpa [update_of_ne hbe] using hb)
  · intro q e' b inner hq hinner
    change (inner.openOf e').toNat = update t.refs bfd n b
    by_cases hbe : b = bfd
    · subst hbe
      obtain ⟨rfl, rfl⟩ := h.end_eq hp hq
      rw [getElem?_modify_eq, Option.map_eq_map, map_eq_some_iff] at hinner
      obtain ⟨old, hold, rfl⟩ := hinner
      rw [update_self]
      exact hself old hold
    rw [update_of_ne hbe]
    by_cases hpq : p = q
    · subst hpq
      -- the other end of the same pipe
      rw [getElem?_modify_eq, Option.map_eq_map, map_eq_some_iff] at hinner
      obtain ⟨old, hold, rfl⟩ := hinner
      have hne : e' ≠ e := fun heq => hbe (h.bfd_eq (heq ▸ hq) hp)
      rw [hother old e' hne]
      exact h.counts p e' b old hq hold
    · rw [getElem?_modify_ne _ _ hpq] at hinner
      exact h.counts q e' b inner hq hinner

end

theorem ringOnly {inner inner' : PipeInner} (hp : t.pipes[p]? = some inner)
    (hopen : ∀ e, inner'.openOf e = inner.openOf e) : (t.modify p fun _ => inner').Inv := by
  have hlen : (t.pipes.modify p fun _ => inner').length = t.pipes.length := length_modify ..
  refine ⟨?_, ?_, ?_, h.known, h.mapped, ?_⟩
  · simpa [Table.modify, hlen] using h.next
  · simpa [Table.modify, hlen] using h.small
  · simpa [Table.modify, hlen] using h.ends
  · intro q e bfd x hq hx
    change (t.pipes.modify p fun _ => inner')[q]? = some x at hx
    by_cases hpq : p = q
    · subst hpq
      rw [getElem?_modify_eq, hp] at hx
      cases hx
      rw [hopen]
      exact h.counts p e bfd inner hq hp
    · rw [getElem?_modify_ne _ _ hpq] at hx
      exact h.counts q e bfd x hq hx

theorem dup (hrefs : t.refs bfd ≠ 0) (hmax : t.refs bfd < 2 ^ 32 - 1) :
    { t.pipeDup bfd with refs := update t.refs bfd (t.refs bfd + 1) }.Inv := by
  obtain ⟨p, e, hp⟩ := h.known bfd hrefs
  have hmap := h.mapped p e bfd hp hrefs
  have hdup : t.pipeDup bfd = t.modify p (·.dup e) := by
    simp only [pipeDup, if_neg (h.base_le hp), hmap, h.endOf_eq hp]
  rw [hdup]
  refine h.recount hp (·.dup e) t.map ?_ ?_ (fun _ _ => rfl) fun _ => hmap
  · intro inner hinner
    have hcount := h.counts p e bfd inner hp hinner
    have hne : inner.openOf e ≠ 0xFFFFFFFF := by
      intro heq
      rw [heq] at hcount
      have hval : (0xFFFFFFFF : UInt32).toNat = 2 ^ 32 - 1 := rfl
      omega
    rw [PipeInner.openOf_dup, if_pos rfl, saturatingAdd1, if_neg hne, UInt32.toNat_add, hcount]
    exact Nat.mod_eq_of_lt (by change t.refs bfd + 1 < 2 ^ 32; omega)
  · intro inner e' he
    rw [PipeInner.openOf_dup, if_neg he]

theorem close (hlast : t.refs bfd = 1) : { t.sysClosePipe bfd with refs := update t.refs bfd (t.refs bfd - 1) }.Inv := by
  have hrefs : t.refs bfd ≠ 0 := by omega
  obtain ⟨p, e, hp⟩ := h.known bfd hrefs
  have hmap := h.mapped p e bfd hp hrefs
  have hclose : t.sysClosePipe bfd = (t.modify p (·.close e)).remove bfd := by
    simp only [sysClosePipe, hmap, h.endOf_eq hp]
  rw [hclose, hlast]
  refine h.recount hp (·.close e) (update t.map bfd none) ?_ ?_ ?_ ?_
  · intro inner hinner
    have hcount := h.counts p e bfd inner hp hinner
    have hone : inner.openOf e = 1 := UInt32.toNat_inj.mp (hcount.trans hlast)
    rw [PipeInner.openOf_close, if_pos rfl, hone]
    rfl
  · intro inner e' he
    rw [PipeInner.openOf_close, if_neg he]
  · intro b hb
    exact update_of_ne hb _ _
  · intro hn
    exact absurd rfl hn

section
variable (hsafe : t.nextPipeFd.toNat + 2 ^ 31 + 1 < 2 ^ 64)
include hsafe

theorem toNat_newEnds :
    (PIPE_FD_BASE + t.nextPipeFd).toNat = 2 ^ 31 + 2 * t.pipes.length ∧
      (PIPE_FD_BASE + t.nextPipeFd + 1).toNat = 2 ^ 31 + 2 * t.pipes.length + 1 := by
  have hnext := h.next
  have hread : (PIPE_FD_BASE + t.nextPipeFd).toNat = 2 ^ 31 + 2 * t.pipes.length := by
    rw [UInt64.toNat_add, hnext]
    exact Nat.mod_eq_of_lt (by change 2 ^ 31 + 2 * t.pipes.length < 2 ^ 64; omega)
  refine ⟨hread, ?_⟩
  rw [UInt64.toNat_add, hread]
  exact Nat.mod_eq_of_lt (by change 2 ^ 31 + 2 * t.pipes.length + 1 < 2 ^ 64; omega)

theorem ne_newEnds (hp : (p, e, bfd) ∈ t.ends) : bfd ≠ PIPE_FD_BASE + t.nextPipeFd ∧
    bfd ≠ PIPE_FD_BASE + t.nextPipeFd + 1 := by
  obtain ⟨hread, hwrite⟩ := h.toNat_newEnds hsafe
  obtain ⟨hlt, hnat⟩ := h.ends p e bfd hp
  have hoff : e.offset ≤ 1 := by cases e <;> decide
  constructor
  · rintro rfl
    omega
  · rintro rfl
    omega

theorem nextPipe : (t.nextPipeFd + 2).toNat = 2 * (t.pipes.length + 1) ∧ 2 * (t.pipes.length + 1) + 2 ^ 31 ≤ 2 ^ 64 := by
  have hnext := h.next
  refine ⟨?_, by omega⟩
  rw [UInt64.toNat_add, hnext]
  exact Nat.mod_eq_of_lt (by change 2 * t.pipes.length + 2 < 2 ^ 64; omega)

end

theorem pipe2 (nonblocking fits : Bool) (hsafe : t.nextPipeFd.toNat + 2 ^ 31 + 1 < 2 ^ 64) :
    (t.sysPipe2 nonblocking fits).1.Inv := by
  obtain ⟨hread, hwrite⟩ := h.toNat_newEnds hsafe
  obtain ⟨hnext, hsmall⟩ := h.nextPipe hsafe
  have hlen : (t.pipes ++ [PipeInner.new nonblocking]).length = t.pipes.length + 1 := length_append
  -- an end handed out before keeps its entry, its references and its pipe
  have hold : ∀ p e bfd, (p, e, bfd) ∈ t.ends → ∀ inner,
      (t.pipes ++ [PipeInner.new nonblocking])[p]? = some inner → (inner.openOf e).toNat = t.refs bfd := by
    intro p e bfd hp inner hinner
    rw [getElem?_append_left (h.ends p e bfd hp).1] at hinner
    exact h.counts p e bfd inner hp hinner
  cases fits with
  | false =>
    refine ⟨hnext.trans (by rw [← hlen]; rfl), hlen ▸ hsmall, ?_, h.known, ?_,
      fun p e bfd inner hp hinner => hold p e bfd hp inner hinner⟩
    · intro p e bfd hp
      obtain ⟨hlt, hnat⟩ := h.ends p e bfd hp
      exact ⟨hlt.trans (by change _ < (t.pipes ++ [PipeInner.new nonblocking]).length; omega), hnat⟩
    · intro p e bfd hp hrefs
      obtain ⟨hne, hne'⟩ := h.ne_newEnds hsafe hp
      change update (update (update (update t.map _ _) _ _) _ _) _ _ bfd = some p
      simp only [update_of_ne hne, update_of_ne hne']
      exact h.mapped p e bfd hp hrefs
  | true =>
    have hends : ∀ p e bfd, (p, e, bfd) ∈ (t.sysPipe2 nonblocking true).1.ends → (p, e, bfd) ∈ t.ends ∨
        p = t.pipes.length ∧ (e = .read ∧ bfd = PIPE_FD_BASE + t.nextPipeFd ∨
          e = .write ∧ bfd = PIPE_FD_BASE + t.nextPipeFd + 1) := by
      intro p e bfd hp
      change (p, e, bfd) ∈ t.ends ++ _ at hp
      simp only [mem_append, mem_cons, Prod.mk.injEq, not_mem_nil, or_false] at hp
      tauto
    have hne : PIPE_FD_BASE + t.nextPipeFd ≠ PIPE_FD_BASE + t.nextPipeFd + 1 := by
      intro heq
      rw [← heq] at hwrite
      omega
    refine ⟨hnext.trans (by rw [← hlen]; rfl), hlen ▸ hsmall, ?_, ?_, ?_, ?_⟩
    · intro p e bfd hp
      change p < (t.pipes ++ [PipeInner.new nonblocking]).length ∧ _
      rcases hends p e bfd hp with hp | ⟨rfl, ⟨rfl, rfl⟩ | ⟨rfl, rfl⟩⟩
      · obtain ⟨hlt, hnat⟩ := h.ends p e bfd hp
        exact ⟨by omega, hnat⟩
      · exact ⟨by omega, hread⟩
      · exact ⟨by omega, hwrite⟩
    · intro bfd hrefs
      change update (update t.refs _ 1) _ 1 bfd ≠ 0 at hrefs
      change ∃ p e, (p, e, bfd) ∈ t.ends ++ [(t.pipes.length, End.read, PIPE_FD_BASE + t.nextPipeFd),
        (t.pipes.length, End.write, PIPE_FD_BASE + t.nextPipeFd + 1)]
      by_cases hw : bfd = PIPE_FD_BASE + t.nextPipeFd + 1
      · exact ⟨t.pipes.length, .write, by simp [hw]⟩
      by_cases hr : bfd = PIPE_FD_BASE + t.nextPipeFd
      · exact ⟨t.pipes.length, .read, by simp [hr]⟩
      · rw [update_of_ne hw, update_of_ne hr] at hrefs
        obtain ⟨p, e, hp⟩ := h.known bfd hrefs
        exact ⟨p, e, mem_append_left _ hp⟩
    · intro p e bfd hp hrefs
      change update (update t.map _ _) _ _ bfd = some p
      rcases hends p e bfd hp with hp | ⟨rfl, ⟨rfl, rfl⟩ | ⟨rfl, rfl⟩⟩
      · obtain ⟨hner, hnew⟩ := h.ne_newEnds hsafe hp
        change update (update t.refs _ 1) _ 1 bfd ≠ 0 at hrefs
        rw [update_of_ne hnew, update_of_ne hner] at hrefs ⊢
        exact h.mapped p e bfd hp hrefs
      · rw [update_of_ne hne, update_self]
      · rw [update_self]
    · intro p e bfd inner hp hinner
      change (t.pipes ++ [PipeInner.new nonblocking])[p]? = some inner at hinner
      change _ = update (update t.refs _ 1) _ 1 bfd
      rcases hends p e bfd hp with hp | ⟨rfl, hnew⟩
      · obtain ⟨hner, hnew⟩ := h.ne_newEnds hsafe hp
        rw [update_of_ne hnew, update_of_ne hner]
        exact hold p e bfd hp inner hinner
      rw [getElem?_concat_length] at hinner
      cases hinner
      rcases hnew with ⟨rfl, rfl⟩ | ⟨rfl, rfl⟩
      · rw [update_of_ne hne, update_self]
        rfl
      · rw [update_self]
        rfl

theorem read (bfd : UInt64) (want : Nat) : (t.pipeRead bfd want).1.Inv := by
  unfold pipeRead
  split
  · exact h
  split
  · exact h
  rename_i p inner hp
  obtain ⟨q, -, hq⟩ := bind_eq_some_iff.mp hp
  obtain ⟨inner', hinner, heq⟩ := map_eq_some_iff.mp hq
  cases heq
  split
  · exact h
  · exact h.ringOnly hinner (PipeInner.openOf_readSection _ _)

theorem write (bfd : UInt64) (buf : List UInt8) : (t.pipeWrite bfd buf).1.Inv := by
  unfold pipeWrite
  split
  · exact h
  split
  · exact h
  rename_i p inner hp
  obtain ⟨q, -, hq⟩ := bind_eq_some_iff.mp hp
  obtain ⟨inner', hinner, heq⟩ := map_eq_some_iff.mp hq
  cases heq
  split
  · exact h
  · exact h.ringOnly hinner (PipeInner.openOf_writeSection _ _ _)

theorem step {op : Op} (hsafe : t.safe op) (hs : t.step op = some u) : u.Inv := by
  cases op with
  | pipe2 nonblocking fits =>
    simp only [safe, decide_eq_true_eq] at hsafe
    cases hs
    exact h.pipe2 nonblocking fits hsafe
  | dup bfd =>
    simp only [safe, decide_eq_true_eq] at hsafe
    simp only [Table.step] at hs
    split at hs <;> cases hs
    exact h.dup ‹_› hsafe
  | close bfd =>
    simp only [safe, decide_eq_true_eq] at hsafe
    simp only [Table.step] at hs
    split at hs <;> cases hs
    exact h.close hsafe
  | read bfd want => cases hs; exact h.read bfd want
  | write bfd buf => cases hs; exact h.write bfd buf

end

end Inv

/-! ### What reads and writes find -/

/-- The pipe `p` with the ends `r` and `w`: references reach it, the counters are their numbers, an empty pipe is at its
    end exactly when the write end has no reference, and a write fails with `EPIPE` exactly when the read end has none. -/
structure Counted (t : Table) (p : Nat) (r w : UInt64) (inner : PipeInner) : Prop where
  reads : 1 ≤ t.refs r → ∀ want, want ≠ 0 → t.pipeRead r want =
    (t.modify p fun _ => (inner.readSection want).1, (Reader.start want).after (inner.readSection want).2)
  writes : 1 ≤ t.refs w → ∀ buf, buf ≠ [] → t.pipeWrite w buf =
    (t.modify p fun _ => (inner.writeSection (Writer.start buf).atomic buf).1,
      (Writer.start buf).after (inner.writeSection (Writer.start buf).atomic buf).2)
  readOpen : inner.readOpen.toNat = t.refs r
  writeOpen : inner.writeOpen.toNat = t.refs w
  eof : 1 ≤ t.refs r → inner.isEmpty = true → ∀ want, want ≠ 0 →
    ((t.pipeRead r want).2.point = .done 0 ↔ t.refs w = 0)
  epipe : 1 ≤ t.refs w → ∀ buf, buf ≠ [] → ((t.pipeWrite w buf).2.point = .done EPIPE ↔ t.refs r = 0)

end Table

theorem Reader.after_empty_iff {p : PipeInner} (hp : p.isEmpty) (r : Reader) (want : Nat) :
    (r.after (p.readSection want).2).point = .done 0 ↔ p.writeOpen.toNat = 0 := by
  have hzero : (p.writeOpen == 0) ↔ p.writeOpen.toNat = 0 := by
    rw [beq_iff_eq, ← UInt32.toNat_inj]
    rfl
  simp only [PipeInner.readSection, hp, if_true, Reader.after]
  by_cases hw : p.writeOpen.toNat = 0
  · simp [hzero.mpr hw, hw]
  have hfalse : (p.writeOpen == 0) = false := by
    rw [Bool.eq_false_iff]
    exact fun h => hw (hzero.mp h)
  cases hn : p.nonblocking <;> simp [hfalse, hw, EAGAIN]

theorem Writer.top_ne_epipe (w : Writer) : w.top.point ≠ .done EPIPE := by
  unfold Writer.top
  split
  · simp [EPIPE]
  · simp

theorem Writer.after_epipe_iff {w : Writer} (hw : w.written = 0) (p : PipeInner) (buf : List UInt8) :
    (w.after (p.writeSection w.atomic buf).2).point = .done EPIPE ↔ p.readOpen.toNat = 0 := by
  unfold PipeInner.writeSection
  by_cases hr : p.readOpen = 0
  · simp [hr, Writer.after, Writer.giveUp, hw]
  have hnat : p.readOpen.toNat ≠ 0 := fun h => hr (UInt32.toNat_inj.mp h)
  have hfull : ∀ nonblock, (w.after (.full nonblock)).point ≠ .done EPIPE := by
    intro nonblock
    cases nonblock <;> simp [Writer.after, Writer.giveUp, hw, EAGAIN, EPIPE]
  simp only [hr, if_false, hnat, iff_false]
  split
  · exact hfull _
  split
  · split
    · exact Writer.top_ne_epipe _
    · exact hfull _
  · exact Writer.top_ne_epipe _

namespace Table
variable {t : Table} {inner : PipeInner} {r w : UInt64}

theorem pipeRead_eq {p want : Nat} (hwant : want ≠ 0) (hmap : t.map r = some p)
    (hp : t.pipes[p]? = some inner) (hside : r &&& 1 = 0) : t.pipeRead r want =
      (t.modify p fun _ => (inner.readSection want).1, (Reader.start want).after (inner.readSection want).2) := by
  simp [pipeRead, hwant, hmap, hp, hside]

theorem pipeWrite_eq {p : Nat} {buf : List UInt8} (hbuf : buf ≠ [])
    (hmap : t.map w = some p) (hp : t.pipes[p]? = some inner) (hside : w &&& 1 ≠ 0) : t.pipeWrite w buf =
      (t.modify p fun _ => (inner.writeSection (Writer.start buf).atomic buf).1,
        (Writer.start buf).after (inner.writeSection (Writer.start buf).atomic buf).2) := by
  simp [pipeWrite, hbuf, hmap, hp, hside]

theorem Inv.counted (h : t.Inv) {p : Nat} (hr : (p, .read, r) ∈ t.ends)
    (hw : (p, .write, w) ∈ t.ends) (hp : t.pipes[p]? = some inner) : t.Counted p r w inner := by
  have hreadOpen := h.counts p .read r inner hr hp
  have hwriteOpen := h.counts p .write w inner hw hp
  have hrside : r &&& 1 = 0 := by
    have hend := h.endOf_eq hr
    unfold endOf at hend
    split at hend
    · assumption
    · cases hend
  have hwside : w &&& 1 ≠ 0 := by
    have hend := h.endOf_eq hw
    unfold endOf at hend
    split at hend
    · cases hend
    · assumption
  have hreads : 1 ≤ t.refs r → ∀ want, want ≠ 0 → t.pipeRead r want =
      (t.modify p fun _ => (inner.readSection want).1, (Reader.start want).after (inner.readSection want).2) :=
    fun hrefs want hwant => pipeRead_eq hwant (h.mapped p .read r hr (by omega)) hp hrside
  have hwrites : 1 ≤ t.refs w → ∀ buf, buf ≠ [] → t.pipeWrite w buf =
      (t.modify p fun _ => (inner.writeSection (Writer.start buf).atomic buf).1,
        (Writer.start buf).after (inner.writeSection (Writer.start buf).atomic buf).2) :=
    fun hrefs buf hbuf => pipeWrite_eq hbuf (h.mapped p .write w hw (by omega)) hp hwside
  refine ⟨hreads, hwrites, hreadOpen, hwriteOpen, ?_, ?_⟩
  · intro hrefs hempty want hwant
    rw [hreads hrefs want hwant, Reader.after_empty_iff hempty]
    rw [show inner.writeOpen.toNat = t.refs w from hwriteOpen]
  · intro hrefs buf hbuf
    have hwritten : (Writer.start buf).written = 0 := by
      unfold Writer.start Writer.top
      split <;> rfl
    rw [hwrites hrefs buf hbuf, Writer.after_epipe_iff hwritten]
    rw [show inner.readOpen.toNat = t.refs r from hreadOpen]

/-- Where every step is safe, the references to every pipe handed out are counted exactly. -/
theorem ends_counted (t : Table) (h : Reach (fun t op u => t.step op = some u) (fun t op => t.safe op = true) Table.new t) :
    ∀ p r w, (p, .read, r) ∈ t.ends → (p, .write, w) ∈ t.ends →
      ∃ inner, t.pipes[p]? = some inner ∧ t.Counted p r w inner := by
  have hinv : t.Inv := h.invariant inv_new fun t op u ht hsafe hstep => ht.step hsafe hstep
  intro p r w hr hw
  have hp := getElem?_eq_getElem (hinv.ends p .read r hr).1
  exact ⟨_, hp, hinv.counted hr hw hp⟩

/-- A read end with two references, and a write end whose only one is closed. -/
theorem ends_counted_dup_close : ∃ t, Reach.run Table.step Table.safe Table.new
    [.pipe2 false true, .dup 0x80000000, .close 0x80000001] = some t ∧ t.refs 0x80000000 = 2 ∧
      ∃ inner, t.pipes[0]? = some inner ∧ t.Counted 0 0x80000000 0x80000001 inner := by
  refine Reach.exists_run_and (A := fun t => t.refs 0x80000000 = 2 ∧
    t.ends = [(0, .read, 0x80000000), (0, .write, 0x80000001)]) (by decide +kernel) fun t ht ⟨hrefs, hends⟩ => ⟨hrefs, ?_⟩
  exact ends_counted t ht 0 _ _ (by simp [hends]) (by simp [hends])

/-- The first of two closes takes the end out of the table: the reference left no longer reads the pipe. -/
theorem end_lost : ∃ t, Reach.run Table.step (fun _ _ => true) Table.new
    [.pipe2 false true, .dup 0x80000000, .close 0x80000000] = some t ∧
      (0, .read, 0x80000000) ∈ t.ends ∧ t.refs 0x80000000 = 1 ∧
      (t.pipeRead 0x80000000 1).2.point = .done EBADF := by
  exact Reach.exists_run (by decide +kernel)

end Table

end Moxide.Pipe

import Moxide.Overlayfs

namespace Moxide.Overlayfs
open Lib List

/-! ### Paths -/

/-- A path without `..`. -/
def Free (path : Str) : Prop := ['.', '.'] ∉ split path

theorem exists_split (p : Str) : ∃ w ws, split p = w :: ws := by
  cases p with
  | nil => exact ⟨_, _, rfl⟩
  | cons c cs =>
    rw [split]
    split_ifs
    · exact ⟨_, _, rfl⟩
    · cases split cs with
      | nil => exact ⟨_, _, rfl⟩
      | cons w ws => exact ⟨_, _, rfl⟩

theorem split_append (a b : Str) : split (a ++ '/' :: b) = split a ++ split b := by
  induction a with
  | nil => rfl
  | cons c a ih =>
    obtain ⟨w, ws, hw⟩ := exists_split a
    rw [cons_append, split, split, ih, hw]
    split_ifs
    · rfl
    · rfl

theorem free_append {a b : Str} : Free (a ++ '/' :: b) ↔ Free a ∧ Free b := by
  rw [Free, split_append, mem_append, not_or]
  rfl

theorem resolve_append (a b : Str) : resolve (a ++ '/' :: b) = (split b).foldl enter (resolve a) := by
  rw [resolve, split_append, foldl_append, resolve]

theorem trimEnd_induction {P : Str → Prop} (h : ∀ p, P (p ++ ['/']) → P p) : ∀ p, P p → P (trimEnd p) := by
  intro p
  induction p using List.reverseRecOn with
  | nil => exact id
  | append_singleton p c ih =>
    intro hp
    by_cases hc : c = '/'
    · subst hc
      rw [trimEnd, rdropWhile_concat_pos _ _ _ (by decide)]
      exact ih (h p hp)
    · rw [trimEnd, rdropWhile_concat_neg _ _ _ (by rw [decide_eq_true_iff]; exact hc)]
      exact hp

theorem resolve_trimEnd (p : Str) : resolve (trimEnd p) = resolve p := by
  refine trimEnd_induction (P := fun x => resolve x = resolve p) (fun x hx => ?_) p rfl
  rw [← hx, resolve_append]
  rfl

variable {p : Str}

theorem Free.trimEnd (h : Free p) : Free (trimEnd p) :=
  trimEnd_induction (fun _ hx => (free_append.mp hx).1) p h

theorem Free.trimStart (h : Free p) : Free (trimStart p) := by
  induction p with
  | nil => exact h
  | cons c p ih =>
    by_cases hc : c = '/'
    · subst hc
      exact ih (free_append (a := []) |>.mp h).2
    · rw [Overlayfs.trimStart, dropWhile_cons_of_neg (by rw [decide_eq_true_iff]; exact hc)]
      exact h

theorem Free.join {a b : Str} (ha : Free a) (hb : Free b) : Free (join a b) := by
  rw [Overlayfs.join]
  split_ifs
  · exact ha.trimEnd
  · exact free_append.mpr ⟨ha.trimEnd, hb.trimStart⟩

theorem prefix_foldl_enter {ws : List Str} (h : ['.', '.'] ∉ ws) (dir : List Str) : dir <+: ws.foldl enter dir := by
  induction ws generalizing dir with
  | nil => exact prefix_refl dir
  | cons w ws ih =>
    rw [mem_cons, not_or] at h
    refine List.IsPrefix.trans ?_ (ih h.2 _)
    rw [enter, if_neg (Ne.symm h.1)]
    split_ifs
    · exact prefix_refl dir
    · exact prefix_append dir _

/-- A path without `..` stays below its base. -/
theorem Free.under {rel : Str} (h : Free rel) (base : Str) : resolve base <+: resolve (Overlayfs.join base rel) := by
  rw [Overlayfs.join, ← resolve_trimEnd base]
  split_ifs
  · exact prefix_refl _
  · rw [resolve_append]
    exact prefix_foldl_enter h.trimStart _

theorem free_slash : Free ['/'] := show ['.', '.'] ∉ [[], []] by decide

theorem Free.splitLast (h : Free p) : Free (splitLast p).1 ∧ Free (splitLast p).2 := by
  rw [Overlayfs.splitLast]
  have hp := h.trimEnd
  generalize Overlayfs.trimEnd p = q at hp
  have hparts : q.rdropWhile (· ≠ '/') ++ q.rtakeWhile (· ≠ '/') = q := rdropWhile_append_rtakeWhile ..
  by_cases hdir : q.rdropWhile (· ≠ '/') = []
  · rw [hdir, nil_append] at hparts
    rw [hdir, hparts]
    exact ⟨free_slash, hp⟩
  have hlast := rdropWhile_last_not (· ≠ '/') q hdir
  rw [decide_eq_true_iff, not_not] at hlast
  rw [← dropLast_append_getLast hdir, hlast, append_assoc] at hparts
  rw [← hparts] at hp
  obtain ⟨hfirst, hbase⟩ := free_append.mp hp
  refine ⟨?_, hbase⟩
  split_ifs
  · exact free_slash
  · exact hfirst

theorem split_prepend {pre : Str} (h : '/' ∉ pre) (b : Str) :
    ∃ w ws, split b = w :: ws ∧ split (pre ++ b) = (pre ++ w) :: ws := by
  induction pre with
  | nil =>
    obtain ⟨w, ws, hw⟩ := exists_split b
    exact ⟨w, ws, hw, hw⟩
  | cons c pre ih =>
    rw [mem_cons, not_or] at h
    obtain ⟨w, ws, hb, hpre⟩ := ih h.2
    refine ⟨w, ws, hb, ?_⟩
    rw [cons_append, split, if_neg (Ne.symm h.1), hpre]
    rfl

theorem split_append_suffix {suf : Str} (h : '/' ∉ suf) (a : Str) :
    ∃ ws w, split a = ws ++ [w] ∧ split (a ++ suf) = ws ++ [w ++ suf] := by
  induction a with
  | nil =>
    obtain ⟨w, ws, hw, hsplit⟩ := split_prepend h []
    cases hw
    rw [append_nil] at hsplit
    exact ⟨[], [], rfl, hsplit⟩
  | cons c a ih =>
    obtain ⟨ws, w, ha, hsuf⟩ := ih
    rw [cons_append, split, split, ha, hsuf]
    split_ifs
    · exact ⟨[] :: ws, w, rfl, rfl⟩
    · cases ws with
      | nil => exact ⟨[], c :: w, rfl, rfl⟩
      | cons x ws => exact ⟨(c :: x) :: ws, w, rfl, rfl⟩

theorem Free.whiteout {base : Str} (h : Free base) : Free (WH_PREFIX ++ base) := by
  obtain ⟨w, ws, hw, hsplit⟩ := split_prepend (show '/' ∉ WH_PREFIX by decide) base
  rw [Free, hsplit, mem_cons, not_or]
  rw [Free, hw, mem_cons, not_or] at h
  refine ⟨fun heq => ?_, h.2⟩
  cases heq

theorem append_suffix_ne (w : Str) {x : Str} (hx : x.length < 12) : w ++ SYMLINK_SUFFIX ≠ x := by
  intro heq
  have hlen : SYMLINK_SUFFIX.length = 12 := by decide
  rw [← heq, length_append] at hx
  omega

theorem Free.suffix (h : Free p) : Free (p ++ SYMLINK_SUFFIX) := by
  obtain ⟨ws, w, hp, hsuf⟩ := split_append_suffix (show '/' ∉ SYMLINK_SUFFIX by decide) p
  rw [Free, hp, mem_append, not_or] at h
  rw [Free, hsuf, mem_append, not_or]
  refine ⟨h.1, fun hmem => ?_⟩
  exact append_suffix_ne w (by decide) (mem_singleton.mp hmem).symm

/-! ### Paths of the layers -/

/-- Neither directory contains the other. -/
def Apart (a b : Str) : Prop := ¬resolve a <+: resolve b ∧ ¬resolve b <+: resolve a

/-- A path in the lower directory. The directory itself is one, unless it has the name of the sidecar of the overlay's root,
    to which a symlink with an empty path is written. -/
def InLower (om : OverlayMount) (q : List Str) : Prop :=
  resolve om.lower <+: q ∧ (q = resolve om.lower → q ≠ resolve (om.symlinkSidecarPath []))

variable {om : OverlayMount} {rel : Str}

theorem Apart.outside {dir path : Str} (h : Apart om.lower dir) (hunder : resolve dir <+: resolve path) :
    ¬InLower om (resolve path) := by
  rintro ⟨hlower, -⟩
  rcases prefix_or_prefix_of_prefix hlower hunder with hin | hin
  · exact h.1 hin
  · exact h.2 hin

theorem upperPath_outside (h : Apart om.lower om.upper) (hrel : Free rel) : ¬InLower om (resolve (om.upperPath rel)) :=
  h.outside (hrel.under _)

theorem whiteoutPath_outside (h : Apart om.lower om.upper) (hrel : Free rel) :
    ¬InLower om (resolve (om.whiteoutPath rel)) := by
  obtain ⟨hdir, hbase⟩ := hrel.splitLast
  exact h.outside ((hdir.join hbase.whiteout).under _)

theorem workPath_outside (h : Apart om.lower om.work) (hrel : Free rel) : ¬InLower om (resolve (om.workPath rel)) :=
  h.outside (hrel.under _)

/-- The sidecar of the root lies beside the upper directory. -/
theorem sidecarPath_outside (h : Apart om.lower om.upper) (hrel : Free rel) :
    ¬InLower om (resolve (om.symlinkSidecarPath rel)) := by
  rw [OverlayMount.symlinkSidecarPath, OverlayMount.upperPath, join]
  split_ifs with hroot
  · obtain ⟨ws, w, hup, hsuf⟩ := split_append_suffix (show '/' ∉ SYMLINK_SUFFIX by decide) (trimEnd om.upper)
    have hupper : enter (ws.foldl enter []) w = resolve om.upper := by
      rw [← resolve_trimEnd, resolve, hup, foldl_append]
      rfl
    have hside : resolve (trimEnd om.upper ++ SYMLINK_SUFFIX) = ws.foldl enter [] ++ [w ++ SYMLINK_SUFFIX] := by
      rw [resolve, hsuf, foldl_append, foldl_cons, foldl_nil, enter,
        if_neg (not_or.mpr ⟨append_suffix_ne w (by decide), append_suffix_ne w (by decide)⟩),
        if_neg (append_suffix_ne w (by decide))]
    rintro ⟨hlower, hne⟩
    have hin : resolve om.lower <+: ws.foldl enter [] := by
      rcases prefix_concat_iff.mp (hside ▸ hlower) with heq | hin
      · exact absurd rfl (hne (hside.trans heq.symm))
      · exact hin
    rw [enter] at hupper
    split_ifs at hupper
    · exact h.1 (hupper ▸ hin)
    · have hdir := dropLast_prefix (ws.foldl enter [])
      rw [hupper] at hdir
      rcases prefix_or_prefix_of_prefix hin hdir with hpre | hpre
      · exact h.1 hpre
      · exact h.2 hpre
    · exact h.1 (hupper ▸ hin.trans (prefix_append _ _))
  · refine h.outside ?_
    rw [append_assoc, cons_append, resolve_append, resolve_trimEnd]
    exact prefix_foldl_enter hrel.trimStart.suffix _

/-! ### Programs -/

/-- Nothing in the lower directory has changed. -/
def SameLower {σ ν : Type} (v : Vfs σ ν) (om : OverlayMount) (s t : σ) : Prop := ∀ q, InLower om q → v.node t q = v.node s q

/-- The program changes nothing in the lower directory. -/
abbrev Spares {σ ν α : Type} (v : Vfs σ ν) (om : OverlayMount) (m : Prog σ α) : Prop := Keeps (SameLower v om) m

section
variable {σ ν α β : Type} {v : Vfs σ ν} {path : Str}

theorem SameLower.refl (s : σ) : SameLower v om s s := fun _ _ => rfl

theorem SameLower.trans (s t u : σ) (hst : SameLower v om s t) (htu : SameLower v om t u) : SameLower v om s u :=
  fun q hq => (htu q hq).trans (hst q hq)

theorem Spares.pure (a : α) : Spares v om (pure a : Prog σ α) := Keeps.pure SameLower.refl a

theorem Spares.throw (e : Int) : Spares v om (throw e : Prog σ α) := Keeps.throw SameLower.refl e

theorem Spares.ask (f : σ → Except Int α) : Spares v om (ask f) := Keeps.ask SameLower.refl f

theorem Spares.bind {m : Prog σ α} (hm : Spares v om m) {f : α → Prog σ β} (hf : ∀ a, Spares v om (f a)) :
    Spares v om (m >>= f) :=
  Keeps.bind SameLower.trans hm (fun _ _ _ _ => trivial) fun a _ => hf a

theorem Spares.tryCatch {m : Prog σ α} (hm : Spares v om m) {f : Int → Prog σ α} (hf : ∀ e, Spares v om (f e)) :
    Spares v om (tryCatch m f) :=
  Keeps.tryCatch SameLower.trans hm hf

theorem Spares.ite {c : Prop} [Decidable c] {m n : Prog σ α} (hm : Spares v om m) (hn : Spares v om n) :
    Spares v om (if c then m else n) := by
  split_ifs
  · exact hm
  · exact hn

theorem Spares.cond {q : σ → Except Int Bool} {m n : Prog σ α} (hm : Spares v om m) (hn : Spares v om n) :
    Spares v om (do if ← Lib.ask q then m else n) :=
  (Spares.ask q).bind fun _ => hm.ite hn

section
variable (h : ¬InLower om (resolve path))
include h

theorem ne_of_inLower {q : List Str} (hq : InLower om q) : q ≠ resolve path := by
  rintro rfl
  exact h hq

theorem spares_writeAll (data : List UInt8) : Spares v om (v.writeAll path data) :=
  fun s q hq => (v.framed path q s (ne_of_inLower h hq)).1 data

theorem spares_create : Spares v om (v.create path) :=
  fun s q hq => (v.framed path q s (ne_of_inLower h hq)).2.1

theorem spares_mkdir : Spares v om (v.mkdir path) :=
  fun s q hq => (v.framed path q s (ne_of_inLower h hq)).2.2.1

theorem spares_unlink : Spares v om (v.unlink path) :=
  fun s q hq => (v.framed path q s (ne_of_inLower h hq)).2.2.2.1

end

theorem Spares.ignore {m : Prog σ Unit} (h : Spares v om m) : Spares v om (ignore m) := h.tryCatch fun _ => .pure ()

theorem spares_lookup (rel : Str) : Spares v om (lookup v om rel) :=
  .cond (.throw _) (.cond (.pure _) (.cond (.pure _) (.throw _)))

theorem spares_read (rel : Str) : Spares v om (read v om rel) := (spares_lookup rel).bind fun _ => .ask _

theorem spares_stat (rel : Str) : Spares v om (stat v om rel) := (spares_lookup rel).bind fun _ => .ask _

theorem spares_ensureUpperDir (h : Apart om.lower om.upper) (n : Nat) {dir : Str} (hdir : Free dir) :
    Spares v om (ensureUpperDirFrom v om n dir) := by
  induction n generalizing dir with
  | zero => exact .pure ()
  | succ n ih =>
    refine Spares.ite (.pure ()) (.cond (.pure ()) ?_)
    exact (ih hdir.splitLast.1).bind fun _ => spares_mkdir (upperPath_outside h hdir)

theorem Spares.onlyIf {q : σ → Except Int Bool} {m : Prog σ Unit} (h : Spares v om m) : Spares v om (onlyIf (Lib.ask q) m) :=
  .cond h (.pure ())

theorem spares_entriesOf (rel : Str) (names : List Str) : Spares v om (entriesOf v om rel names) := by
  induction names with
  | nil => exact .pure _
  | cons name names ih =>
    refine Spares.bind (Spares.tryCatch ?_ fun _ => .pure _) fun _ => ih.bind fun _ => .pure _
    exact (spares_stat _).bind fun _ => .pure _

theorem spares_readdir (rel : Str) : Spares v om (readdir v om rel) :=
  Spares.bind (.cond (.ask _) (.pure _)) fun _ => Spares.bind (.cond (.ask _) (.pure _)) fun _ => spares_entriesOf _ _

theorem spares_readlink (rel : Str) : Spares v om (readlink v om rel) :=
  .cond ((Spares.ask _).bind fun _ => .ite (.pure _) (.throw _)) ((Spares.ask _).bind fun _ => .pure _)

section
variable (hup : Apart om.lower om.upper) (hrel : Free rel)
include hup hrel

theorem spares_clearWhiteout : Spares v om (clearWhiteout v om rel) :=
  .onlyIf (.ignore (spares_unlink (whiteoutPath_outside hup hrel)))

theorem spares_createFile : Spares v om (create v om rel) :=
  (spares_clearWhiteout hup hrel).bind fun _ => (spares_create (upperPath_outside hup hrel)).bind fun _ => .pure _

theorem spares_unlinkName : Spares v om (unlink v om rel) := by
  refine Spares.bind (.onlyIf (spares_unlink (upperPath_outside hup hrel))) fun _ => ?_
  exact .cond (spares_create (whiteoutPath_outside hup hrel)) (.cond (.pure ()) (.throw _))

theorem spares_rmdir : Spares v om (rmdir v om rel) := by
  refine (spares_readdir rel).bind fun _ => Spares.ite (.throw _) ?_
  refine Spares.bind (.onlyIf (spares_unlink (upperPath_outside hup hrel))) fun _ => ?_
  exact .onlyIf (spares_create (whiteoutPath_outside hup hrel))

theorem spares_symlink (target : List UInt8) : Spares v om (symlink v om target rel) := by
  refine (spares_clearWhiteout hup hrel).bind fun _ => ?_
  refine (spares_ensureUpperDir hup _ hrel.splitLast.1).bind fun _ => ?_
  exact spares_writeAll (sidecarPath_outside hup hrel) target

variable (hwork : Apart om.lower om.work)
include hwork

/-- The copy up writes to the work and the upper directory. -/
theorem spares_openWrite : Spares v om (openWrite v om rel) := by
  obtain ⟨hdir, hbase⟩ := hrel.splitLast
  refine .cond (.pure _) (.cond (Spares.bind ?_ fun _ => .pure _) (.throw _))
  refine (spares_ensureUpperDir hup _ hdir).bind fun _ => (Spares.ask _).bind fun data => ?_
  refine (spares_writeAll (workPath_outside hwork hbase) data).bind fun _ => ?_
  refine (spares_writeAll (upperPath_outside hup hrel) data).bind fun _ => ?_
  exact .ignore (spares_unlink (workPath_outside hwork hbase))

omit hup hrel hwork in
theorem yields_openWrite (rel : Str) : Yields (· = om.upperPath rel) (openWrite v om rel) := by
  refine Yields.bind _ fun up => ?_
  split_ifs
  · exact .pure rfl
  refine Yields.bind _ fun lo => ?_
  split_ifs
  · exact Yields.bind _ fun _ => .pure rfl
  · exact .throw _

theorem spares_write (data : List UInt8) : Spares v om (write v om rel data) := by
  refine Keeps.bind SameLower.trans (P := (· = om.upperPath rel)) ((spares_openWrite hup hrel hwork).tryCatch fun _ =>
    spares_createFile hup hrel) ((yields_openWrite rel).tryCatch fun _ => ?_) ?_
  · exact Yields.bind _ fun _ => Yields.bind _ fun _ => .pure rfl
  · rintro _ rfl
    exact spares_writeAll (upperPath_outside hup hrel) data

theorem spares_truncate (len : Nat) : Spares v om (truncate v om rel len) := by
  refine Keeps.bind SameLower.trans (spares_openWrite hup hrel hwork) (yields_openWrite rel) ?_
  rintro _ rfl s q hq
  exact (v.framed _ q s (ne_of_inLower (upperPath_outside hup hrel) hq)).2.2.2.2.1 len

theorem spares_link (oldRel : Str) : Spares v om (link v om oldRel rel) :=
  (spares_read oldRel).bind fun buf => spares_write hup hrel hwork buf

end

end

/-! ### Operations -/

inductive Call
  | lookup (rel : Str)
  | create (rel : Str)
  | read (rel : Str)
  | write (rel : Str) (data : List UInt8)
  | truncate (rel : Str) (len : Nat)
  | stat (rel : Str)
  | unlink (rel : Str)
  | mkdir (rel : Str)
  | rmdir (rel : Str)
  | readdir (rel : Str)
  | rename (oldRel newRel : Str)
  | link (oldRel newRel : Str)
  | symlink (target : List UInt8) (linkRel : Str)
  | readlink (rel : Str)
  | chmod (rel : Str) (mode : Nat)
  | chown (rel : Str) (uid gid : Nat)
  | copyUpIfNeeded (rel : Str)

def Call.rels : Call → List Str
  | .lookup rel | .create rel | .read rel | .write rel _ | .truncate rel _ | .stat rel | .unlink rel
  | .mkdir rel | .rmdir rel | .readdir rel | .symlink _ rel | .readlink rel | .chmod rel _ | .chown rel _ _
  | .copyUpIfNeeded rel => [rel]
  | .rename oldRel newRel | .link oldRel newRel => [oldRel, newRel]

/-- The state after a call, whether it succeeds or not. -/
def afterCall {σ ν : Type} (v : Vfs σ ν) (om : OverlayMount) (s : σ) : Call → σ
  | .lookup rel => stateAfter (lookup v om rel) s
  | .create rel => stateAfter (create v om rel) s
  | .read rel => stateAfter (read v om rel) s
  | .write rel data => stateAfter (write v om rel data) s
  | .truncate rel len => stateAfter (truncate v om rel len) s
  | .stat rel => stateAfter (stat v om rel) s
  | .unlink rel => stateAfter (unlink v om rel) s
  | .mkdir rel => stateAfter (mkdir v om rel) s
  | .rmdir rel => stateAfter (rmdir v om rel) s
  | .readdir rel => stateAfter (readdir v om rel) s
  | .rename oldRel newRel => stateAfter (rename v om oldRel newRel) s
  | .link oldRel newRel => stateAfter (link v om oldRel newRel) s
  | .symlink target linkRel => stateAfter (symlink v om target linkRel) s
  | .readlink rel => stateAfter (readlink v om rel) s
  | .chmod rel mode => stateAfter (chmod v om rel mode) s
  | .chown rel uid gid => stateAfter (chown v om rel uid gid) s
  | .copyUpIfNeeded rel => stateAfter (copyUpIfNeeded v om rel) s

theorem sameLower_afterCall {σ ν : Type} {v : Vfs σ ν} (hup : Apart om.lower om.upper)
    (hwork : Apart om.lower om.work) {c : Call}
    (hfree : ∀ rel ∈ c.rels, Free rel) (s : σ) : SameLower v om s (afterCall v om s c) := by
  cases c with
  | lookup rel => exact spares_lookup rel s
  | create rel => exact spares_createFile hup (hfree rel (.head _)) s
  | read rel => exact spares_read rel s
  | write rel data => exact spares_write hup (hfree rel (.head _)) hwork data s
  | truncate rel len => exact spares_truncate hup (hfree rel (.head _)) hwork len s
  | stat rel => exact spares_stat rel s
  | unlink rel => exact spares_unlinkName hup (hfree rel (.head _)) s
  | mkdir rel =>
    have hm : Spares v om (mkdir v om rel) := .cond (.throw _) (spares_mkdir (upperPath_outside hup (hfree rel (.head _))))
    exact hm s
  | rmdir rel => exact spares_rmdir hup (hfree rel (.head _)) s
  | readdir rel => exact spares_readdir rel s
  | rename oldRel newRel =>
    have hm : Spares v om (rename v om oldRel newRel) :=
      (spares_link hup (hfree newRel (.tail _ (.head _))) hwork oldRel).bind fun _ =>
        spares_unlinkName hup (hfree oldRel (.head _))
    exact hm s
  | link oldRel newRel => exact spares_link hup (hfree newRel (.tail _ (.head _))) hwork oldRel s
  | symlink target linkRel => exact spares_symlink hup (hfree linkRel (.head _)) target s
  | readlink rel => exact spares_readlink rel s
  | chmod rel mode =>
    have hout := upperPath_outside hup (hfree rel (.head _))
    have hm : Spares v om (chmod v om rel mode) :=
      .cond (fun s q hq => (v.framed _ q s (ne_of_inLower hout hq)).2.2.2.2.2.1 mode) (.throw _)
    exact hm s
  | chown rel uid gid =>
    have hout := upperPath_outside hup (hfree rel (.head _))
    have hm : Spares v om (chown v om rel uid gid) :=
      .cond (fun s q hq => (v.framed _ q s (ne_of_inLower hout hq)).2.2.2.2.2.2 uid gid) (.throw _)
    exact hm s
  | copyUpIfNeeded rel =>
    have hm : Spares v om (copyUpIfNeeded v om rel) :=
      (spares_openWrite hup (hfree rel (.head _)) hwork).bind fun _ => .pure ()
    exact hm s

/-- No sequence of operations changes a node inside the lower directory, whether they succeed or not. -/
theorem lower_unchanged {σ ν : Type} (v : Vfs σ ν) (hup : Apart om.lower om.upper) (hwork : Apart om.lower om.work)
    {calls : List Call} (hfree : ∀ c ∈ calls, ∀ rel ∈ c.rels, Free rel) (s : σ) {q : List Str} (hq : InLower om q) :
    v.node (calls.foldl (afterCall v om) s) q = v.node s q := by
  induction calls generalizing s with
  | nil => rfl
  | cons c calls ih =>
    rw [foldl_cons, ih (fun d hd => hfree d (.tail _ hd))]
    exact sameLower_afterCall hup hwork (hfree c (.head _)) s q hq

/-- A virtual filesystem of files only. -/
def plainFiles : Vfs (List Str → Option (List UInt8)) (Option (List UInt8)) where
  node s := s
  stat s p := (s (resolve p)).elim (.error ENOENT) fun data => .ok ⟨0, 0, data.length, false⟩
  readAll s p := (s (resolve p)).elim (.error ENOENT) .ok
  readdir _ _ := .error ENOENT
  readlink _ _ := .error ENOENT
  writeAll p data := modify fun s => Function.update s (resolve p) (some data)
  create p := modify fun s => Function.update s (resolve p) (some [])
  mkdir _ := throw ENOENT
  unlink p := modify fun s => Function.update s (resolve p) none
  truncate p len := modify fun s => Function.update s (resolve p) ((s (resolve p)).map (·.take len))
  chmod _ _ := pure ()
  chown _ _ _ := pure ()
  framed p q s hq := by
    refine ⟨fun data => ?_, ?_, rfl, ?_, fun len => ?_, fun _ => rfl, fun _ _ => rfl⟩ <;> exact Function.update_of_ne hq _ _

/-- A write to a name of the lower directory is made in the upper one. -/
theorem lower_unchanged_write :
    let om : OverlayMount := ⟨"/l".toList, "/u".toList, "/w".toList⟩
    let s : List Str → Option (List UInt8) := fun q => if q = [['l'], ['f']] then some [7] else none
    let t := [Call.write ['f'] [1]].foldl (afterCall plainFiles om) s
    plainFiles.node t [['u'], ['f']] = some [1] ∧ plainFiles.node t [['l'], ['f']] = plainFiles.node s [['l'], ['f']] ∧
      plainFiles.node t [['l']] = plainFiles.node s [['l']] := by
  intro om s t
  have hup : Apart om.lower om.upper := by unfold Apart; decide
  have hwork : Apart om.lower om.work := by unfold Apart; decide
  have hfree : ∀ c ∈ [Call.write ['f'] [1]], ∀ rel ∈ c.rels, Free rel := by simp [Call.rels, Free, split]
  have hsame {q : List Str} (hq : InLower om q) := lower_unchanged plainFiles hup hwork hfree s hq
  exact ⟨by decide, hsame (by unfold InLower; decide), hsame (by unfold InLower; decide)⟩

/-- A lower directory with the name of the root's sidecar is written to. -/
example :
    let om : OverlayMount := ⟨"/u.ovl_symlink".toList, "/u".toList, "/w".toList⟩
    afterCall plainFiles om (fun _ => none) (.symlink [7] []) (resolve om.lower) = some [7] := by decide

end Moxide.Overlayfs

import Moxide.Getdents
import Moxide.Theorems.User

/-! Enumeration of directories. The entries that one call packs can be read back; but every call starts with the first
    entry. -/

namespace Moxide.Getdents
open Lib.LittleEndian List Option
open User (Mem USER_SPACE_END validateUserPtr userAccessOk copyFromUser overlay Mapped)

def Named (es : List Dent) : Prop := ∀ e ∈ es, e.name.length ≤ MAX_NAME_LEN ∧ 0 ∉ e.name

/-- The calls return the entries in order, each once, and nothing only when all have been returned. -/
def Enumerates (entries : List Dent) (outs : List (Option (List Dent))) : Prop :=
  ∃ ds : List (List Dent), outs = ds.map some ∧ ds.flatten <+: entries ∧
    ∀ i, ds[i]? = some [] → (ds.take i).flatten = entries

structure Buffer (m : Mem) (entries : List Dent) (dirp count : Nat) : Prop where
  nonnull : dirp ≠ 0
  min : 24 ≤ count
  range : dirp + count ≤ USER_SPACE_END
  mapped : Mapped m dirp count
  first : ∀ e ∈ entries.head?, reclen e ≤ count

section
variable {m : Mem} {entries : List Dent} {dirp count : Nat} (h : Buffer m entries dirp count)
include h

theorem Buffer.guard : ¬ (dirp = 0 ∨ count < 24) := by
  rintro (hz | hlt)
  · exact h.nonnull hz
  · exact absurd h.min (not_le.mpr hlt)

theorem Buffer.overlay (a : Nat) (bs : List UInt8) : Buffer (User.overlay m a bs) entries dirp count :=
  { h with mapped := h.mapped.overlay _ _ }

theorem Buffer.valid : validateUserPtr dirp count := by
  rw [validateUserPtr, userAccessOk, decide_eq_true h.nonnull, decide_eq_true h.range, Bool.and_self]

end

/-! ### Records -/

def fitting (count : Nat) : Nat → List Dent → List Dent
  | _, [] => []
  | written, e :: es => if count < written + reclen e then [] else e :: fitting count (written + reclen e) es

def pack : Nat → List Dent → List UInt8
  | _, [] => []
  | written, e :: es => record e (written + reclen e) ++ pack (written + reclen e) es

variable {e : Dent} {es : List Dent} {m : Mem} {dirp count written : Nat} {env : Env} {fdno : Nat}

theorem name_lt_reclen (e : Dent) : 19 + e.name.length + 1 ≤ reclen e := by
  rw [reclen]
  omega

theorem reclen_lt (h : e.name.length ≤ MAX_NAME_LEN) : reclen e < 2 ^ 16 := by
  rw [MAX_NAME_LEN] at h
  rw [reclen]
  omega

theorem length_record (e : Dent) (off : Nat) : (record e off).length = reclen e := by
  have hlt := name_lt_reclen e
  simp only [record, length_append, length_toBytes, length_singleton, length_replicate]
  omega

theorem fitting_isPrefix : fitting count written es <+: es := by
  induction es generalizing written with
  | nil => exact prefix_refl _
  | cons e es ih =>
    rw [fitting]
    split_ifs
    · exact nil_prefix
    · exact (prefix_cons_inj e).mpr ih

theorem length_pack_le (h : written ≤ count) : written + (pack written (fitting count written es)).length ≤ count := by
  induction es generalizing written with
  | nil => exact h
  | cons e es ih =>
    rw [fitting]
    split_ifs with hfit
    · exact h
    · rw [pack, length_append, length_record, ← add_assoc]
      exact ih (Nat.le_of_not_lt hfit)

/-! ### The reader -/

section
variable (e : Dent) (off : Nat) (rest : List UInt8)

theorem record_split :
    record e off ++ rest = toBytes 8 e.ino.toNat ++ (toBytes 8 off ++ (toBytes 2 (reclen e) ++ (e.dtype :: (e.name ++
      (List.replicate (reclen e - 19 - e.name.length) 0 ++ rest))))) := by
  simp only [record, append_assoc, cons_append, nil_append]

theorem take_ino : (record e off ++ rest).take 8 = toBytes 8 e.ino.toNat := by
  rw [record_split, take_left' (length_toBytes 8 _)]

theorem take_len : ((record e off ++ rest).drop 16).take 2 = toBytes 2 (reclen e) := by
  rw [record_split, ← append_assoc, drop_left' (by simp), take_left' (length_toBytes 2 _)]

theorem getD_type : (record e off ++ rest).getD 18 0 = e.dtype := by
  rw [record_split, ← append_assoc, getD_append_right _ _ _ _ (by simp)]
  simp

end

theorem take_name (h : 0 ∉ e.name) (off : Nat) (rest : List UInt8) :
    (((record e off ++ rest).take (reclen e)).drop 19).takeWhile (· ≠ 0) = e.name := by
  have hlt := name_lt_reclen e
  have hall : ∀ x ∈ e.name, decide (x ≠ 0) := by
    intro x hx
    refine decide_eq_true ?_
    rintro rfl
    exact h hx
  obtain ⟨k, hk⟩ := Nat.exists_eq_add_of_lt (Nat.lt_sub_of_add_lt (show 0 + (19 + e.name.length) < reclen e by omega))
  have hpad : List.replicate (reclen e - 19 - e.name.length) (0 : UInt8) = 0 :: List.replicate k 0 := by
    rw [← replicate_succ]
    congr 1
    omega
  rw [take_left' (length_record e off)]
  have hdrop : (record e off).drop 19 = e.name ++ 0 :: List.replicate k 0 := by
    rw [record, hpad, append_assoc, drop_left' (by simp)]
  rw [hdrop, takeWhile_append_of_pos hall, takeWhile_cons_of_neg (by simp), append_nil]

theorem parseDents_pack (h : Named es) {fuel : Nat} (hfuel : es.length ≤ fuel) :
    parseDents fuel (pack written es) = some es := by
  induction es generalizing written fuel with
  | nil => cases fuel <;> rfl
  | cons e es ih =>
    obtain ⟨hlen, hnul⟩ := h e mem_cons_self
    obtain ⟨fuel, rfl⟩ := Nat.exists_eq_succ_of_ne_zero (ne_of_gt (lt_of_lt_of_le (Nat.succ_pos _) hfuel))
    have hlt := name_lt_reclen e
    have hbytes : (pack written (e :: es)).length = reclen e + (pack (written + reclen e) es).length := by
      rw [pack, length_append, length_record]
    obtain ⟨b, bs, hcons⟩ := exists_cons_of_length_pos (show 0 < (pack written (e :: es)).length by omega)
    have hread : ofBytes (((pack written (e :: es)).drop 16).take 2) = reclen e := by
      rw [pack, take_len, ofBytes_toBytes]
      exact Nat.mod_eq_of_lt (reclen_lt hlen)
    have hino : UInt64.ofNat (ofBytes ((pack written (e :: es)).take 8)) = e.ino := by
      rw [pack, take_ino, ofNat_ofBytes_64]
    have hname : (((pack written (e :: es)).take (reclen e)).drop 19).takeWhile (· ≠ 0) = e.name := by
      exact take_name hnul _ _
    have htype : (pack written (e :: es)).getD 18 0 = e.dtype := by
      exact getD_type _ _ _
    have hrest : (pack written (e :: es)).drop (reclen e) = pack (written + reclen e) es := by
      rw [pack, drop_left' (length_record _ _)]
    have ih' := @ih (written + reclen e) (fun x hx => h x (mem_cons_of_mem _ hx)) fuel (Nat.le_of_succ_le_succ hfuel)
    rw [hcons] at hbytes hread hino hname htype hrest ⊢
    rw [parseDents]
    simp only [hread, hino, hname, htype, hrest, ih', map_some]
    rw [if_neg (by omega)]

theorem writeDents_eq (hes : ∀ e ∈ es, e.name.length ≤ MAX_NAME_LEN) (hdirp : dirp ≠ 0)
    (hrange : dirp + count ≤ USER_SPACE_END) (hm : Mapped m dirp count) (hw : written ≤ count) :
    writeDents dirp count m written es =
      (overlay m (dirp + written) (pack written (fitting count written es)),
        ((written + (pack written (fitting count written es)).length : Nat) : Int)) := by
  induction es generalizing m written with
  | nil => simp [writeDents, fitting, pack, User.overlay_nil]
  | cons e es ih =>
    have hlen := hes e mem_cons_self
    rw [writeDents, if_neg (not_lt.mpr hlen), fitting]
    by_cases hfit : count < written + reclen e
    · rw [if_pos hfit, if_pos hfit]
      simp [pack, User.overlay_nil]
    have hle := Nat.le_of_not_lt hfit
    have hcopy : User.copyToUser m (dirp + written) (record e (written + reclen e)) =
        some (overlay m (dirp + written) (record e (written + reclen e))) := by
      refine User.copyToUser_mapped (by omega) (by rw [length_record]; omega) ?_
      intro a hlow hhigh
      rw [length_record] at hhigh
      exact hm a (by omega) (by omega)
    rw [if_neg hfit, if_neg hfit, hcopy]
    dsimp only
    rw [ih (fun x hx => hes x (mem_cons_of_mem _ hx)) (hm.overlay _ _) hle, pack, length_append, length_record]
    have hat : dirp + (written + reclen e) = dirp + written + (record e (written + reclen e)).length := by
      rw [length_record, add_assoc]
    rw [hat, User.overlay_append, add_assoc]

theorem sysGetdents64_eq (h : Named (env.entries fdno)) (hb : Buffer m (env.entries fdno) dirp count) :
    env.sysGetdents64 m fdno dirp count = (overlay m dirp (pack 0 (fitting count 0 (env.entries fdno))),
      (((pack 0 (fitting count 0 (env.entries fdno))).length : Nat) : Int)) := by
  rw [Env.sysGetdents64, if_neg hb.guard, hb.valid]
  dsimp only
  rw [if_neg (by decide)]
  split_ifs with hempty
  · rw [hempty]
    simp [fitting, pack, User.overlay_nil]
  · rw [writeDents_eq (fun e he => (h e he).1) hb.nonnull hb.range hb.mapped (Nat.zero_le _), Nat.zero_add, Nat.add_zero]

/-- After a call the buffer holds the entries whose records fit, in order. -/
theorem sysGetdents64_records (h : Named (env.entries fdno)) (hb : Buffer m (env.entries fdno) dirp count) :
    records (env.sysGetdents64 m fdno dirp count).1 dirp (env.sysGetdents64 m fdno dirp count).2 =
      some (fitting count 0 (env.entries fdno)) := by
  have hfits : 0 + (pack 0 (fitting count 0 (env.entries fdno))).length ≤ count := length_pack_le (Nat.zero_le count)
  rw [Nat.zero_add] at hfits
  have hnamed : Named (fitting count 0 (env.entries fdno)) := fun e he => h e (fitting_isPrefix.subset he)
  have hlen : (fitting count 0 (env.entries fdno)).length ≤ (pack 0 (fitting count 0 (env.entries fdno))).length := by
    generalize fitting count 0 (env.entries fdno) = ds
    generalize (0 : Nat) = w
    induction ds generalizing w with
    | nil => exact le_refl _
    | cons e ds ih =>
      have hlt := name_lt_reclen e
      have ih' := ih (w + reclen e)
      rw [pack, length_append, length_record, length_cons]
      omega
  rw [sysGetdents64_eq h hb, records, Int.toNat_natCast]
  rw [User.copyFromUser_overlay hb.nonnull (Nat.le_trans (Nat.add_le_add_left hfits _) hb.range)]
  exact parseDents_pack hnamed hlen

/-- Every call starts again with the first entry. -/
theorem enumerate_eq {calls : List (Nat × Nat)} (h : Named (env.entries fdno))
    (hb : ∀ c ∈ calls, Buffer m (env.entries fdno) c.1 c.2) :
    env.enumerate fdno m calls = (calls.map fun c => fitting c.2 0 (env.entries fdno)).map some := by
  induction calls generalizing m with
  | nil => rfl
  | cons c calls ih =>
    have hc := hb c mem_cons_self
    rw [Env.enumerate, sysGetdents64_records h hc, sysGetdents64_eq h hc, map_cons, map_cons]
    congr 1
    exact ih fun c' hc' => (hb c' (mem_cons_of_mem _ hc')).overlay _ _

theorem fitting_first (h : reclen e ≤ count) : fitting count 0 (e :: es) = e :: fitting count (reclen e) es := by
  rw [fitting, zero_add, if_neg (not_lt.mpr h)]

/-- A directory is enumerated if it has no entries, or if no more than one call is made; one without repeated entries in no
    other case. -/
theorem enumerate_enumerates (env : Env) (fdno : Nat) (m : Mem) (calls : List (Nat × Nat)) (h : Named (env.entries fdno))
    (hb : ∀ c ∈ calls, Buffer m (env.entries fdno) c.1 c.2) :
    (env.entries fdno = [] ∨ calls.length ≤ 1 → Enumerates (env.entries fdno) (env.enumerate fdno m calls)) ∧
      ((env.entries fdno).Nodup → Enumerates (env.entries fdno) (env.enumerate fdno m calls) →
        env.entries fdno = [] ∨ calls.length ≤ 1) := by
  rw [enumerate_eq h hb]
  generalize env.entries fdno = entries at h hb ⊢
  cases entries with
  | nil =>
    have hnil : ∀ l ∈ calls.map fun c => fitting c.2 0 [], l = [] := by
      intro l hl
      obtain ⟨c, -, rfl⟩ := List.mem_map.mp hl
      rfl
    refine ⟨fun _ => ⟨_, rfl, ?_, fun i _ => ?_⟩, fun _ _ => .inl rfl⟩
    · rw [flatten_eq_nil_iff.mpr hnil]
    · exact flatten_eq_nil_iff.mpr fun l hl => hnil l (mem_of_mem_take hl)
  | cons e es =>
    have hfirst : ∀ c ∈ calls, fitting c.2 0 (e :: es) = e :: fitting c.2 (reclen e) es :=
      fun c hc => fitting_first ((hb c hc).first e rfl)
    constructor
    · intro hcond
      have hone := hcond.resolve_left (cons_ne_nil e es)
      rcases calls with _ | ⟨c, _ | ⟨c', calls⟩⟩
      · exact ⟨[], rfl, nil_prefix, fun i hi => by cases hi⟩
      · refine ⟨[fitting c.2 0 (e :: es)], rfl, ?_, fun i hi => ?_⟩
        · rw [flatten_singleton]
          exact fitting_isPrefix
        · rw [hfirst c mem_cons_self] at hi
          cases i <;> cases hi
      · simp at hone
    · rintro hnodup ⟨ds, hds, hpre, -⟩
      obtain rfl := map_injective_iff.mpr (some_injective _) hds
      refine .inr (not_lt.mp fun htwo => ?_)
      rcases calls with _ | ⟨c, _ | ⟨c', calls⟩⟩
      · cases htwo
      · exact lt_irrefl 1 htwo
      -- the second call returns the first entry again
      rw [map_cons, map_cons, flatten_cons, flatten_cons, hfirst c mem_cons_self,
        hfirst c' (mem_cons_of_mem _ mem_cons_self), cons_append] at hpre
      have hnot := (nodup_cons.mp (hnodup.sublist hpre.sublist)).1
      exact hnot (mem_append_right _ (mem_append_left _ mem_cons_self))

/-- The descriptor is not known, so that the root directory is listed, which holds one file. -/
def oneFile : Env := ⟨fun _ => none, fun _ _ => none, fun _ => some true, fun _ => some [⟨7, [97], false⟩]⟩

def zeroed : Mem := fun _ => some 0

theorem entries_oneFile (fdno : Nat) : oneFile.entries fdno = [⟨7, [97], DT_REG⟩] := rfl

/-- The same with a directory beside the file. -/
def twoFiles : Env := { oneFile with readdir := fun _ => some [⟨7, [97], false⟩, ⟨8, [98], true⟩] }

theorem entries_twoFiles (fdno : Nat) : twoFiles.entries fdno = [⟨7, [97], DT_REG⟩, ⟨8, [98], DT_DIR⟩] := rfl

/-- One call enumerates the two, and two calls do not. -/
theorem enumerate_enumerates_twoFiles :
    Enumerates (twoFiles.entries 3) (twoFiles.enumerate 3 zeroed [(0x1000, 64)]) ∧
      ¬ Enumerates (twoFiles.entries 3) (twoFiles.enumerate 3 zeroed [(0x1000, 64), (0x1000, 64)]) := by
  have hnamed : Named (twoFiles.entries 3) := by
    rw [entries_twoFiles]
    unfold Named
    decide
  have hbuffer : Buffer zeroed (twoFiles.entries 3) 0x1000 64 := by
    refine ⟨by decide, by decide, by decide, fun _ _ _ => rfl, ?_⟩
    rw [entries_twoFiles]
    decide
  have hcalls (n : Nat) := enumerate_enumerates twoFiles 3 zeroed (replicate n (0x1000, 64)) hnamed
    fun c hc => eq_of_mem_replicate hc ▸ hbuffer
  refine ⟨(hcalls 1).1 (.inr (le_refl 1)), fun henum => ?_⟩
  have hcond := (hcalls 2).2 (by rw [entries_twoFiles]; decide) henum
  exact absurd hcond (by rw [entries_twoFiles]; decide)

/-- A second call returns the entry again. -/
theorem enumerate_repeats :
    oneFile.enumerate 3 zeroed [(0x1000, 32), (0x1000, 32)] =
      [some (oneFile.entries 3), some (oneFile.entries 3)] ∧
    ¬ Enumerates (oneFile.entries 3) (oneFile.enumerate 3 zeroed [(0x1000, 32), (0x1000, 32)]) := by
  have hrun : oneFile.enumerate 3 zeroed [(0x1000, 32), (0x1000, 32)] =
      [some (oneFile.entries 3), some (oneFile.entries 3)] := by
    decide +kernel
  refine ⟨hrun, ?_⟩
  rintro ⟨ds, hds, hpre, -⟩
  rw [hrun] at hds
  have heq : ds = [oneFile.entries 3, oneFile.entries 3] := by
    refine map_injective_iff.mpr (some_injective _) ?_
    exact hds.symm
  rw [heq] at hpre
  have hlen := hpre.length_le
  rw [entries_oneFile] at hlen
  exact absurd hlen (by decide)

end Moxide.Getdents

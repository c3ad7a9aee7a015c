import Moxide.Initramfs

namespace Moxide.Initramfs
open List Option
open UInt32 (ofNat)

/-! ### The format -/

def hexChar (upper : Bool) (d : Nat) : UInt8 := .ofNat (if d < 10 then 48 + d else if upper then 55 + d else 87 + d)

def hex (upper : Bool) : Nat → Nat → List UInt8
  | 0, _ => []
  | k + 1, w => hexChar upper (w / 16 ^ k % 16) :: hex upper k w

/-- Zeros up to a multiple of four. -/
def padding (n : Nat) : List UInt8 := List.replicate (alignUp n 4 - n) 0

/-- What a member of an archive is made from. -/
structure Member where
  name : String
  data : List UInt8 := []
  mode : UInt32 := 0
  uid : UInt32 := 0
  gid : UInt32 := 0
  nlink : UInt32 := 1
  mtime : UInt32 := 0
  ino : UInt32 := 0
  devmajor : UInt32 := 0
  devminor : UInt32 := 0
  rdevmajor : UInt32 := 0
  rdevminor : UInt32 := 0
  check : UInt32 := 0

namespace Member

def namesize (m : Member) : Nat := (bytes m.name).length + 1

def chunks (upper : Bool) (m : Member) : List (List UInt8) :=
  [NEWC_MAGIC, hex upper 8 m.ino.toNat, hex upper 8 m.mode.toNat, hex upper 8 m.uid.toNat, hex upper 8 m.gid.toNat,
    hex upper 8 m.nlink.toNat, hex upper 8 m.mtime.toNat, hex upper 8 m.data.length, hex upper 8 m.devmajor.toNat,
    hex upper 8 m.devminor.toNat, hex upper 8 m.rdevmajor.toNat, hex upper 8 m.rdevminor.toNat, hex upper 8 m.namesize,
    hex upper 8 m.check.toNat, bytes m.name ++ [0], padding (HEADER_LEN + m.namesize), m.data, padding m.data.length]

def encode (upper : Bool) (m : Member) : List UInt8 := (m.chunks upper).flatten

def entry (m : Member) : CpioEntry :=
  { name := bytes m.name, data := m.data, mode := m.mode, size := m.data.length, uid := m.uid, gid := m.gid,
    mtime := m.mtime, nlink := m.nlink }

/-- A name that the reader does not trim, and sizes that fit. -/
structure Plain (m : Member) : Prop where
  nulFree : 0 ∉ bytes m.name
  noSlash : ¬bytes "/" <+: bytes m.name
  noDotSlash : ¬bytes "./" <+: bytes m.name
  nameFits : m.namesize < 2 ^ 32
  dataFits : m.data.length < 2 ^ 32

end Member

structure Source extends Member where
  nameNonempty : name ≠ ""
  plain : toMember.Plain
  notTrailer : bytes name ≠ TRAILER

def trailer : Member := { name := "TRAILER!!!" }

/-- The members, the trailer, and any bytes. -/
def archive (upper : Bool) (ms : List Source) (rest : List UInt8) : List UInt8 :=
  ms.flatMap (·.encode upper) ++ (trailer.encode upper ++ rest)

/-! ### Numbers -/

theorem digit_hexChar (upper : Bool) {d : Nat} (h : d < 16) : digit (hexChar upper d) = some (ofNat d) := by
  interval_cases d <;> cases upper <;> decide

@[simp] theorem length_hex (upper : Bool) (k w : Nat) : (hex upper k w).length = k := by
  induction k with
  | zero => rfl
  | succ k ih => rw [hex, length_cons, ih]

theorem shl_or_digit {v d : Nat} (hd : d < 16) : ofNat v <<< 4 ||| ofNat d = ofNat (16 * v + d) := by
  have hor : (16 * v) ||| d = 16 * v + d := by
    have hpow := Nat.two_pow_add_eq_or_of_lt (i := 4) (b := d) (by omega) v
    exact hpow.symm
  apply UInt32.toNat_inj.mp
  rw [UInt32.toNat_or, UInt32.toNat_shiftLeft]
  simp only [UInt32.toNat_ofNat']
  rw [← hor, Nat.or_mod_two_pow]
  have hshift : (4 : UInt32).toNat % 32 = 4 := rfl
  rw [hshift]
  congr 1
  omega

theorem hexLoop_hex (upper : Bool) (k w : Nat) : hexLoop (ofNat (w / 16 ^ k)) (hex upper k w) = ofNat w := by
  induction k with
  | zero => rw [hex, hexLoop, Nat.pow_zero, Nat.div_one]
  | succ k ih =>
    have hdigit : w / 16 ^ k % 16 < 16 := Nat.mod_lt _ (by decide)
    have hnext : 16 * (w / 16 ^ (k + 1)) + w / 16 ^ k % 16 = w / 16 ^ k := by
      rw [pow_succ, ← Nat.div_div_eq_div_mul]
      exact Nat.div_add_mod _ _
    rw [hex, hexLoop, digit_hexChar upper hdigit]
    dsimp only
    rw [shl_or_digit hdigit, hnext, ih]

/-- The digits of a word, in either case, are read back. -/
theorem parseHex8_hex (upper : Bool) {w : Nat} (h : w < 2 ^ 32) : parseHex8 (hex upper 8 w) = ofNat w := by
  have hzero : w / 16 ^ 8 = 0 := Nat.div_eq_of_lt h
  have hloop := hexLoop_hex upper 8 w
  rw [hzero] at hloop
  exact hloop

theorem slice_append {pre mid post : List UInt8} {i : Nat} (hi : i = pre.length) :
    slice (pre ++ (mid ++ post)) i (i + mid.length) = some mid := by
  rw [slice_eq _ (Nat.le_add_right _ _) (by simp only [length_append]; omega), hi, Nat.add_sub_cancel_left,
    drop_left, take_left]

theorem slice_chunk {pre post c : List UInt8} {cs : List (List UInt8)} {i n : Nat} (hc : cs[n]? = some c)
    (hi : i = pre.length + (cs.take n).flatten.length) : slice (pre ++ (cs.flatten ++ post)) i (i + c.length) = some c := by
  obtain ⟨hlt, rfl⟩ := List.getElem?_eq_some_iff.mp hc
  have hsplit : cs.flatten = (cs.take n).flatten ++ (cs[n] ++ (cs.drop (n + 1)).flatten) := by
    rw [← flatten_cons, ← flatten_append, ← drop_eq_getElem_cons hlt, take_append_drop]
  rw [hsplit, append_assoc, append_assoc, ← append_assoc pre]
  exact slice_append (by rw [hi, length_append])

theorem slice_of_infix {l buf : List UInt8} (h : l <:+: buf) : ∃ i, slice buf i (i + l.length) = some l := by
  obtain ⟨pre, post, rfl⟩ := h
  rw [append_assoc]
  exact ⟨pre.length, slice_append rfl⟩

theorem infix_of_slice {l buf : List UInt8} {i j : Nat} (h : slice buf i j = some l) : l <:+: buf := by
  rw [slice, ite_none_right_eq_some, some.injEq] at h
  rw [← h.2]
  have htake := take_prefix (j - i) (buf.drop i)
  exact htake.isInfix.trans (drop_suffix _ _).isInfix

theorem fromUtf8_name (s : String) : fromUtf8 (bytes s ++ [0]) = bytes s ++ [0] := by
  refine if_pos (ByteArray.validateUTF8_eq_true_iff.mpr ?_)
  have hnul : (ByteArray.mk #[0]).IsValidUTF8 := ByteArray.validateUTF8_eq_true_iff.mp (by decide)
  exact s.isValidUTF8.append hnul

theorem trimDotSlash_eq {l : List UInt8} (h : ¬[46, 47] <+: l) : trimDotSlash l = l := by
  unfold trimDotSlash
  split
  · exact absurd ⟨_, rfl⟩ h
  · rfl

theorem dropWhile_slash {l : List UInt8} (h : ¬[47] <+: l) : l.dropWhile (· = 47) = l := by
  cases l with
  | nil => rfl
  | cons b bs =>
    have hb : b ≠ 47 := fun heq => h ⟨bs, by rw [heq]; rfl⟩
    exact dropWhile_cons_of_neg (by rw [decide_eq_true_iff]; exact hb)

theorem Member.Plain.trim {m : Member} (h : m.Plain) :
    trimStart ((fromUtf8 (bytes m.name ++ [0])).rdropWhile (· = 0)) = bytes m.name := by
  have hend : (bytes m.name).rdropWhile (· = 0) = bytes m.name := by
    refine rdropWhile_eq_self_iff.mpr fun hne hlast => h.nulFree ?_
    rw [← of_decide_eq_true hlast]
    exact getLast_mem hne
  rw [fromUtf8_name, rdropWhile_concat_pos _ _ _ (by decide), hend, trimStart, trimDotSlash_eq h.noDotSlash,
    dropWhile_slash h.noSlash]

theorem trimDotSlash_suffix (l : List UInt8) : trimDotSlash l <:+ l := by
  fun_induction trimDotSlash l with
  | case1 bs ih => exact ih.trans ⟨[46, 47], rfl⟩
  | case2 l => exact suffix_refl _

theorem trim_sublist (raw : List UInt8) : trimStart ((fromUtf8 raw).rdropWhile (· = 0)) <:+: raw := by
  have hutf8 : fromUtf8 raw <:+: raw := by
    rw [fromUtf8]
    split_ifs
    · exact infix_refl _
    · exact nil_infix
  have hstart := (dropWhile_suffix (· = 47)).trans (trimDotSlash_suffix ((fromUtf8 raw).rdropWhile (· = 0)))
  have hend := rdropWhile_prefix (· = 0) (fromUtf8 raw)
  exact hstart.isInfix.trans (hend.isInfix.trans hutf8)

/-! ### One member -/

theorem length_padding (n : Nat) : n + (padding n).length = alignUp n 4 := by
  have hle := le_alignUp n (a := 4) (by decide)
  rw [padding, length_replicate]
  omega

theorem alignUp_add {a : Nat} (n : Nat) (h : 4 ∣ a) : alignUp (a + n) 4 = a + alignUp n 4 := by
  simp only [alignUp]
  omega

theorem dvd_alignUp (n : Nat) : 4 ∣ alignUp n 4 := Nat.dvd_mul_left _ _

theorem length_magic : NEWC_MAGIC.length = 6 := by decide

namespace Member
variable (m : Member) (upper : Bool) (pre post : List UInt8)

theorem length_encode : (m.encode upper).length = alignUp (HEADER_LEN + m.namesize) 4 + alignUp m.data.length 4 := by
  rw [← length_padding, ← length_padding]
  simp only [encode, chunks, flatten_cons, flatten_nil, length_append, length_hex, length_magic,
    length_cons, length_nil]
  generalize (padding (HEADER_LEN + m.namesize)).length = p
  generalize (padding m.data.length).length = q
  rw [namesize, HEADER_LEN]
  omega

theorem slice_encode {c : List UInt8} {n i : Nat} (hc : (m.chunks upper)[n]? = some c)
    (hi : i = ((m.chunks upper).take n).flatten.length) :
    slice (pre ++ (m.encode upper ++ post)) (pre.length + i) (pre.length + i + c.length) = some c :=
  slice_chunk hc (by rw [hi])

theorem length_header {n : Nat} (hn : n ≤ 13) : ((m.chunks upper).take (n + 1)).flatten.length = 6 + 8 * n := by
  interval_cases n <;> simp only [chunks, take_succ_cons, take_zero, flatten_cons, flatten_nil,
    length_append, length_hex, length_magic, length_nil]

theorem field_encode {n i w : Nat} (hn : n ≤ 13) (hi : i = 6 + 8 * n) (hc : (m.chunks upper)[n + 1]? = some (hex upper 8 w))
    (hw : w < 2 ^ 32) : field (pre ++ (m.encode upper ++ post)) pre.length i = some (ofNat w) := by
  have hslice := m.slice_encode upper pre post hc (hi.trans (m.length_header upper hn).symm)
  rw [length_hex] at hslice
  rw [field, hslice, map_some, parseHex8_hex upper hw]

variable {m pre} in
/-- The reader takes one member and stands behind it. -/
theorem Plain.next (h : m.Plain) (hpre : 4 ∣ pre.length) :
    (CpioIter.mk (pre ++ (m.encode upper ++ post)) pre.length).next =
      some (if bytes m.name = TRAILER then none else some m.entry,
        ⟨pre ++ (m.encode upper ++ post), (pre ++ m.encode upper).length⟩) := by
  have hword : ∀ w : UInt32, w.toNat < 2 ^ 32 := UInt32.toNat_lt
  have hmagic := m.slice_encode upper pre post (n := 0) (i := 0) rfl rfl
  have hmode := m.field_encode upper pre post (n := 1) (i := 14) (by decide) rfl rfl (hword m.mode)
  have huid := m.field_encode upper pre post (n := 2) (i := 22) (by decide) rfl rfl (hword m.uid)
  have hgid := m.field_encode upper pre post (n := 3) (i := 30) (by decide) rfl rfl (hword m.gid)
  have hnlink := m.field_encode upper pre post (n := 4) (i := 38) (by decide) rfl rfl (hword m.nlink)
  have hmtime := m.field_encode upper pre post (n := 5) (i := 46) (by decide) rfl rfl (hword m.mtime)
  have hfilesize := m.field_encode upper pre post (n := 6) (i := 54) (by decide) rfl rfl h.dataFits
  have hnamesize := m.field_encode upper pre post (n := 11) (i := 94) (by decide) rfl rfl h.nameFits
  have hraw := m.slice_encode upper pre post (n := 14) (i := HEADER_LEN) rfl (m.length_header upper (le_refl 13)).symm
  have hdata := m.slice_encode upper pre post (n := 16) (i := alignUp (HEADER_LEN + m.namesize) 4) rfl (by
    rw [← length_padding]
    simp only [chunks, take_succ_cons, take_zero, flatten_cons, flatten_nil, length_append, length_hex,
      length_magic, length_cons, length_nil, HEADER_LEN, namesize]
    omega)
  have hnamelen : (bytes m.name ++ [0]).length = m.namesize := length_append
  have hstart : alignUp (pre.length + HEADER_LEN + m.namesize) 4 = pre.length + alignUp (HEADER_LEN + m.namesize) 4 := by
    rw [add_assoc, alignUp_add _ hpre]
  have hstop : alignUp (pre.length + alignUp (HEADER_LEN + m.namesize) 4 + m.data.length) 4 =
      (pre ++ m.encode upper).length := by
    rw [alignUp_add _ (Nat.dvd_add hpre (dvd_alignUp _)), length_append, length_encode, add_assoc]
  have hname : pre.length + HEADER_LEN + m.namesize ≤ pre.length + alignUp (HEADER_LEN + m.namesize) 4 := by
    rw [← hstart]
    exact le_alignUp _ (by decide)
  have hbound :
    pre.length + alignUp (HEADER_LEN + m.namesize) 4 + m.data.length ≤ (pre ++ (m.encode upper ++ post)).length := by
    have hle := le_alignUp m.data.length (a := 4) (by decide)
    rw [length_append, length_append, length_encode]
    omega
  rw [length_magic, add_zero] at hmagic
  rw [hnamelen] at hraw
  generalize (pre ++ (m.encode upper ++ post)) = buf at *
  simp only [CpioIter.next, hmagic, hmode, huid, hgid, hnlink, hmtime, hfilesize, hnamesize, Option.pure_def, bind_eq_bind,
    bind_some, UInt32.toNat_ofNat_of_lt' h.nameFits, UInt32.toNat_ofNat_of_lt' h.dataFits, UInt32.ofNat_toNat, hstart, hraw,
    h.trim, hstop, hdata, ne_eq, not_true_eq_false, if_false]
  rw [if_neg (by omega), if_neg (by omega), if_neg (by omega)]
  split_ifs
  · rfl
  · rfl

end Member

/-! ### The walk -/

theorem CpioIter.entries_of_next {it it' : CpioIter} {e : CpioEntry} (h : it.next = some (some e, it')) :
    it.entries = it'.entries.map (e :: ·) := by
  rw [CpioIter.entries]
  split
  · rename_i hnext
    rw [h] at hnext
    cases hnext
  · rename_i hnext
    rw [h] at hnext
    cases hnext
  rename_i hnext
  rw [h] at hnext
  cases hnext
  rfl

theorem CpioIter.entries_of_end {it it' : CpioIter} (h : it.next = some (none, it')) : it.entries = some [] := by
  rw [CpioIter.entries]
  split
  · rename_i hnext
    rw [h] at hnext
    cases hnext
  · rfl
  · rename_i hnext
    rw [h] at hnext
    cases hnext

theorem trailer_plain : trailer.Plain := ⟨by decide, by decide, by decide, by decide, by decide⟩

theorem dvd_length_encode (m : Member) (upper : Bool) : 4 ∣ (m.encode upper).length := by
  rw [Member.length_encode]
  exact Nat.dvd_add (dvd_alignUp _) (dvd_alignUp _)

theorem entries_archive (upper : Bool) (ms : List Source) (rest : List UInt8) {pre : List UInt8} (hpre : 4 ∣ pre.length) :
    (CpioIter.mk (pre ++ archive upper ms rest) pre.length).entries = some (ms.map (·.entry)) := by
  induction ms generalizing pre with
  | nil =>
    have hnext := trailer_plain.next upper rest hpre
    exact CpioIter.entries_of_end hnext
  | cons m ms ih =>
    have hnext := m.plain.next upper (archive upper ms rest) hpre
    rw [if_neg m.notTrailer] at hnext
    have hrest : 4 ∣ (pre ++ m.encode upper).length := by
      rw [length_append]
      exact Nat.dvd_add hpre (dvd_length_encode _ _)
    have hwalk := ih hrest
    have hsplit : archive upper (m :: ms) rest = m.encode upper ++ archive upper ms rest := by
      rw [archive, flatMap_cons, append_assoc, archive]
    rw [append_assoc] at hwalk
    rw [hsplit, CpioIter.entries_of_next hnext, hwalk]
    rfl

/-- Name and contents are slices of the buffer. -/
def Inside (buf : List UInt8) (e : CpioEntry) : Prop :=
  (∃ i j, slice buf i j = some e.name) ∧ ∃ i, slice buf i (i + e.size) = some e.data

/-- The walk ends on any bytes. -/
theorem entries_inside (it : CpioIter) : ∃ es, it.entries = some es ∧ HEADER_LEN * es.length ≤ it.data.length - it.offset ∧
    ∀ e ∈ es, Inside it.data e := by
  obtain ⟨item, it', hnext, hdata, hitem⟩ := it.next_spec
  cases item with
  | none =>
    refine ⟨[], CpioIter.entries_of_end hnext, Nat.zero_le _, ?_⟩
    intro e he
    cases he
  | some e =>
    obtain ⟨hmove, hhead, ⟨i, j, raw, hraw, hname⟩, hbody⟩ := hitem e rfl
    obtain ⟨es, hes, hlen, hin⟩ := entries_inside it'
    rw [hdata] at hlen hin
    refine ⟨e :: es, by rw [CpioIter.entries_of_next hnext, hes]; rfl, ?_, ?_⟩
    · rw [length_cons, Nat.mul_succ]
      omega
    · intro x hx
      rcases mem_cons.mp hx with rfl | hx
      · obtain ⟨k, hslice⟩ := slice_of_infix ((trim_sublist raw).trans (infix_of_slice hraw))
        rw [← hname] at hslice
        exact ⟨⟨_, _, hslice⟩, hbody⟩
      · exact hin x hx
termination_by it.data.length - it.offset
decreasing_by
  simp only [HEADER_LEN] at hmove hhead
  rw [hdata]
  omega

/-- The walk over an archive yields its members in order, and a file is found by its name; on any bytes the walk stops after
    at most one entry for each header's length, with every name and content inside. -/
theorem reader_inverts_newc :
    (∀ (upper : Bool) (ms : List Source) (rest : List UInt8),
      (iter (archive upper ms rest)).entries = some (ms.map (·.entry)) ∧
      ∀ path : String, findFile (archive upper ms rest) path =
        some ((ms.find? fun m => bytes m.name = trimStart (bytes path) && m.entry.isFile).map (·.data))) ∧
    ∀ buf : List UInt8, ∃ es, (iter buf).entries = some es ∧ es.length ≤ buf.length / HEADER_LEN ∧
      ∀ e ∈ es, Inside buf e := by
  refine ⟨fun upper ms rest => ?_, fun buf => ?_⟩
  · have hwalk : (iter (archive upper ms rest)).entries = some (ms.map (·.entry)) :=
      entries_archive upper ms rest (show 4 ∣ ([] : List UInt8).length from Nat.dvd_zero 4)
    refine ⟨hwalk, fun path => ?_⟩
    rw [findFile, hwalk, map_some, find?_map, Option.map_map]
    rfl
  · obtain ⟨es, hes, hlen, hin⟩ := entries_inside (iter buf)
    refine ⟨es, hes, (Nat.le_div_iff_mul_le (by decide)).mpr ?_, hin⟩
    rw [mul_comm]
    exact hlen

def initFile : Source where
  name := "sbin/init"
  data := [0x7f, 0x45]
  mode := 0o100755
  nameNonempty := by decide
  plain := ⟨by decide, by decide, by decide, by decide, by decide⟩
  notTrailer := by decide

def motdFile : Source where
  name := "etc/motd"
  data := [104, 105, 10]
  mode := 0o100644
  nameNonempty := by decide
  plain := ⟨by decide, by decide, by decide, by decide, by decide⟩
  notTrailer := by decide

theorem reader_inverts_newc_init :
    (iter (archive false [initFile, motdFile] [])).entries = some [initFile.entry, motdFile.entry] ∧
      findFile (archive false [initFile, motdFile] []) "./sbin/init" = some (some [0x7f, 0x45]) ∧
      findFile (archive false [initFile, motdFile] []) "/etc/motd" = some (some [104, 105, 10]) := by
  obtain ⟨hwalk, hfind⟩ := reader_inverts_newc.1 false [initFile, motdFile] []
  rw [hfind, hfind]
  exact ⟨hwalk, by decide, by decide⟩

end Moxide.Initramfs

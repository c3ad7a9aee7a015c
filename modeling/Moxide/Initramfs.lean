import Mathlib

/-! The reader of newc cpio archives (`init/initramfs/mod.rs`). Text is the list of its bytes, and a slice of the archive
    that is out of range is `none`, where the reader panics. -/

namespace Moxide.Initramfs
open Option

def HEADER_LEN : Nat := 110

def bytes (s : String) : List UInt8 := s.toByteArray.data.toList

def NEWC_MAGIC : List UInt8 := bytes "070701"

def TRAILER : List UInt8 := bytes "TRAILER!!!"

structure CpioEntry where
  name : List UInt8
  data : List UInt8
  mode : UInt32
  size : Nat
  uid : UInt32
  gid : UInt32
  mtime : UInt32
  nlink : UInt32
  deriving DecidableEq

def CpioEntry.isFile (e : CpioEntry) : Bool := e.mode &&& 0o170000 = 0o100000

/-- `&buf[i..j]` -/
def slice (buf : List UInt8) (i j : Nat) : Option (List UInt8) :=
  if i ≤ j ∧ j ≤ buf.length then some ((buf.drop i).take (j - i)) else none

def digit (b : UInt8) : Option UInt32 :=
  if 48 ≤ b ∧ b ≤ 57 then some (b - 48).toUInt32
  else if 97 ≤ b ∧ b ≤ 102 then some (b - 97 + 10).toUInt32
  else if 65 ≤ b ∧ b ≤ 70 then some (b - 65 + 10).toUInt32
  else none

/-- The loop of `parse_hex8`: another byte makes the whole number 0. -/
def hexLoop (val : UInt32) : List UInt8 → UInt32
  | [] => val
  | b :: bs =>
    match digit b with
    | none => 0
    | some d => hexLoop (val <<< 4 ||| d) bs

def parseHex8 (bs : List UInt8) : UInt32 := hexLoop 0 (bs.take 8)

/-- `align` is a power of two, so the mask is a division. -/
def alignUp (n align : Nat) : Nat := (n + align - 1) / align * align

/-- `core::str::from_utf8(..).unwrap_or("")` -/
def fromUtf8 (bs : List UInt8) : List UInt8 := if ByteArray.validateUTF8 ⟨bs.toArray⟩ then bs else []

/-- `trim_start_matches("./")` -/
def trimDotSlash : List UInt8 → List UInt8
  | 46 :: 47 :: bs => trimDotSlash bs
  | bs => bs

/-- `trim_start_matches("./").trim_start_matches('/')` -/
def trimStart (bs : List UInt8) : List UInt8 := (trimDotSlash bs).dropWhile (· = 47)

structure CpioIter where
  data : List UInt8
  offset : Nat

/-- The field at `i` of the header at `off`. -/
def field (buf : List UInt8) (off i : Nat) : Option UInt32 := (slice buf (off + i) (off + i + 8)).map parseHex8

def CpioIter.next (it : CpioIter) : Option (Option CpioEntry × CpioIter) := do
  let buf := it.data
  let off := it.offset
  if buf.length < off + HEADER_LEN then return (none, it)
  if (← slice buf off (off + 6)) ≠ NEWC_MAGIC then return (none, it)
  let mode ← field buf off 14
  let uid ← field buf off 22
  let gid ← field buf off 30
  let nlink ← field buf off 38
  let mtime ← field buf off 46
  let filesize := (← field buf off 54).toNat
  let namesize := (← field buf off 94).toNat
  let nameStart := off + HEADER_LEN
  let nameEnd := nameStart + namesize
  if buf.length < nameEnd then return (none, it)
  let rawName := (fromUtf8 (← slice buf nameStart nameEnd)).rdropWhile (· = 0)
  let name := trimStart rawName
  let dataStart := alignUp nameEnd 4
  let dataEnd := dataStart + filesize
  if buf.length < dataEnd then return (none, it)
  let it := { it with offset := alignUp dataEnd 4 }
  if name = TRAILER then return (none, it)
  return (some { name, data := ← slice buf dataStart dataEnd, mode, size := filesize, uid, gid, mtime, nlink }, it)

def iter (cpio : List UInt8) : CpioIter := ⟨cpio, 0⟩

theorem le_alignUp (n : Nat) {a : Nat} (h : 0 < a) : n ≤ alignUp n a := by
  have hdiv := Nat.div_add_mod (n + a - 1) a
  have hmod := Nat.mod_lt (n + a - 1) h
  rw [alignUp, Nat.mul_comm]
  omega

theorem slice_eq (buf : List UInt8) {i j : Nat} (hij : i ≤ j) (hj : j ≤ buf.length) :
    slice buf i j = some ((buf.drop i).take (j - i)) := if_pos ⟨hij, hj⟩

/-- What a call of `next` does: it ends the walk, or it yields an entry whose name and data are slices of the archive and
    moves on by a header and more. -/
theorem CpioIter.next_spec (it : CpioIter) : ∃ item it', it.next = some (item, it') ∧ it'.data = it.data ∧
    ∀ e, item = some e → it.offset + HEADER_LEN ≤ it'.offset ∧ it.offset + HEADER_LEN ≤ it.data.length ∧
      (∃ i j raw, slice it.data i j = some raw ∧ e.name = trimStart ((fromUtf8 raw).rdropWhile (· = 0))) ∧
      ∃ i, slice it.data i (i + e.size) = some e.data := by
  obtain ⟨buf, off⟩ := it
  have hlen : HEADER_LEN = 110 := rfl
  simp only [CpioIter.next, pure_def, bind_eq_bind]
  by_cases hhead : buf.length < off + HEADER_LEN
  · exact ⟨none, _, if_pos hhead, rfl, by rintro e ⟨⟩⟩
  have hfield : ∀ i, i ≤ 102 → ∃ v, field buf off i = some v := fun i hi =>
    ⟨_, congrArg (Option.map parseHex8) (slice_eq buf (by omega) (by omega))⟩
  obtain ⟨mode, hmode⟩ := hfield 14 (by decide)
  obtain ⟨uid, huid⟩ := hfield 22 (by decide)
  obtain ⟨gid, hgid⟩ := hfield 30 (by decide)
  obtain ⟨nlink, hnlink⟩ := hfield 38 (by decide)
  obtain ⟨mtime, hmtime⟩ := hfield 46 (by decide)
  obtain ⟨filesize, hfilesize⟩ := hfield 54 (by decide)
  obtain ⟨namesize, hnamesize⟩ := hfield 94 (by decide)
  rw [if_neg hhead, slice_eq buf (i := off) (j := off + 6) (by omega) (by omega)]
  simp only [hmode, huid, hgid, hnlink, hmtime, hfilesize, hnamesize, bind_some]
  split
  · exact ⟨none, _, rfl, rfl, by rintro e ⟨⟩⟩
  by_cases hname : buf.length < off + HEADER_LEN + namesize.toNat
  · exact ⟨none, _, if_pos hname, rfl, by rintro e ⟨⟩⟩
  have hraw := slice_eq buf (i := off + HEADER_LEN) (j := off + HEADER_LEN + namesize.toNat) (by omega) (by omega)
  rw [hraw, bind_some]
  have hstart := le_alignUp (off + HEADER_LEN + namesize.toNat) (a := 4) (by decide)
  split_ifs with hdata htrailer
  · exact ⟨none, _, rfl, rfl, by rintro e ⟨⟩⟩
  · exact ⟨none, _, rfl, rfl, by rintro e ⟨⟩⟩
  have hslice := slice_eq buf (i := alignUp (off + HEADER_LEN + namesize.toNat) 4)
    (j := alignUp (off + HEADER_LEN + namesize.toNat) 4 + filesize.toNat) (by omega) (by omega)
  have hend := le_alignUp (alignUp (off + HEADER_LEN + namesize.toNat) 4 + filesize.toNat) (a := 4) (by decide)
  rw [hslice]
  refine ⟨_, _, rfl, rfl, ?_⟩
  intro e he
  obtain rfl := some.inj he
  refine ⟨?_, by omega, ⟨_, _, _, hraw, ?_⟩, _, hslice⟩
  · dsimp only
    omega
  · dsimp only

/-- The entries of a `for` loop over the iterator. -/
def CpioIter.entries (it : CpioIter) : Option (List CpioEntry) :=
  match _hit : it.next with
  | none => none
  | some (none, _) => some []
  | some (some e, it') => (CpioIter.entries it').map (e :: ·)
termination_by it.data.length - it.offset
decreasing_by
  obtain ⟨item, it₂, hnext, hdata, hitem⟩ := it.next_spec
  rw [_hit] at hnext
  cases hnext
  obtain ⟨hmove, hhead, -⟩ := hitem e rfl
  have hlen : it'.data.length = it.data.length := congrArg List.length hdata
  simp only [HEADER_LEN] at hmove hhead
  omega

def findFile (cpio : List UInt8) (path : String) : Option (Option (List UInt8)) :=
  let needle := trimStart (bytes path)
  (iter cpio).entries.map fun es => (es.find? fun e => e.name = needle && e.isFile).map (·.data)

end Moxide.Initramfs

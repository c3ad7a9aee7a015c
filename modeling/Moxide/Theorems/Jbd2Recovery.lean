import Moxide.Theorems.Jbd2

/-! Recovery of the transactions that a journal encodes. The format is stated in two passes, the revoked blocks first and
    then the copies; the scan makes one, and reads the flags of a tag where the format has its checksum. -/

namespace Moxide.Jbd2
open Lib List Option

variable {sb : JournalSuperblock} {n blockSize k : Nat} {data : Block} {w : Nat × Block} {fsImage : List UInt8}
  {txns : List Txn}

/-! ### Words -/

@[simp] theorem length_beBytes (n v : Nat) : (beBytes n v).length = n := by
  rw [beBytes, length_reverse, LittleEndian.length_toBytes]

theorem be_append (pre post : Block) (n v : Nat) : be (pre ++ (beBytes n v ++ post)) pre.length n = some (v % 256 ^ n) := by
  have htake : (beBytes n v ++ post).take n = beBytes n v := take_left' (length_beBytes n v)
  rw [be, if_pos (by simp only [length_append, length_beBytes]; omega), drop_left, htake, beBytes, reverse_reverse,
    LittleEndian.ofBytes_toBytes]

theorem be_append_of_lt (pre post : Block) {v : Nat} (h : v < 256 ^ n) :
    be (pre ++ (beBytes n v ++ post)) pre.length n = some v := by
  rw [be_append, Nat.mod_eq_of_lt h]

theorem length_headerBytes (ty seq : Nat) : (headerBytes ty seq).length = 12 := by
  simp only [headerBytes, length_append, length_beBytes]

theorem map_be_flatMap (r : Nat) (ks : List Nat) (pre post : Block) :
    ((List.range ks.length).map fun i => (be (pre ++ (ks.flatMap (beBytes r) ++ post)) (pre.length + i * r) r).getD 0) =
      ks.map (· % 256 ^ r) := by
  induction ks generalizing pre with
  | nil => rfl
  | cons k ks ih =>
    have hnext : ∀ i, pre.length + (i + 1) * r = (pre ++ beBytes r k).length + i * r := by
      intro i
      rw [length_append, length_beBytes, Nat.succ_mul]
      omega
    rw [length_cons, range_succ_eq_map, map_cons, List.map_map, flatMap_cons, append_assoc, zero_mul,
      add_zero, be_append, getD_some, map_cons, ← ih (pre ++ beBytes r k), append_assoc]
    simp only [Function.comp_def, Nat.succ_eq_add_one, hnext]

/-! ### The blocks of a transaction -/

namespace Txn

def logged (t : Txn) : List (Nat × Block) := t.parts.flatMap (·.writes)

/-- The transaction is written as the format says: the headers of its blocks, whole blocks of data, and revoke blocks that
    hold their numbers. -/
structure Valid (sb : JournalSuperblock) (t : Txn) : Prop where
  seq : t.seq < 256 ^ 4
  descriptors : ∀ p ∈ t.parts, header p.descriptor = some (JBD2_DESCRIPTOR_BLOCK, t.seq)
  data : ∀ p ∈ t.parts, ∀ w ∈ p.writes, w.2.length = sb.blockSize
  revokesFit : ∀ ks ∈ t.revokes, (∀ k ∈ ks, k < 256 ^ recLen sb) ∧ 16 + ks.length * recLen sb ≤ sb.blockSize
  commit : header t.commit = some (JBD2_COMMIT_BLOCK, t.seq)

variable {t : Txn} {p : Part} {bs : List Block} {txn : PendingTxn}

theorem Valid.parseRevoke (h : t.Valid sb) (hsize : sb.blockSize ≤ 65536) {ks : List Nat} (hks : ks ∈ t.revokes) :
    parseRevoke (t.revoke sb ks) sb t.seq = ks.map fun k => ⟨t.seq, k⟩ := by
  obtain ⟨hnum, hfit⟩ := h.revokesFit ks hks
  have hhead := length_headerBytes JBD2_REVOKE_BLOCK t.seq
  have hrec : 0 < recLen sb := by
    rw [recLen]
    split_ifs <;> decide
  have hbytes : (ks.flatMap (beBytes (recLen sb))).length = ks.length * recLen sb := by
    simp only [length_flatMap, length_beBytes, map_const', sum_replicate, smul_eq_mul]
  generalize hfill : List.replicate (sb.blockSize - (headerBytes JBD2_REVOKE_BLOCK t.seq ++
    (beBytes 4 (16 + ks.length * recLen sb) ++ ks.flatMap (beBytes (recLen sb)))).length) (0 : UInt8) = zeros
  have hblock : t.revoke sb ks = headerBytes JBD2_REVOKE_BLOCK t.seq ++ (beBytes 4 (16 + ks.length * recLen sb) ++
      (ks.flatMap (beBytes (recLen sb)) ++ zeros)) := by
    rw [revoke, filled, hfill]
    simp only [append_assoc]
  have hused := be_append_of_lt (headerBytes JBD2_REVOKE_BLOCK t.seq) (ks.flatMap (beBytes (recLen sb)) ++ zeros)
    (show 16 + ks.length * recLen sb < 256 ^ 4 by omega)
  rw [hhead, ← hblock] at hused
  have hlen : 16 + ks.length * recLen sb ≤ (t.revoke sb ks).length := by
    simp only [hblock, length_append, hhead, length_beBytes, hbytes]
    omega
  have hrecords :=
    map_be_flatMap (recLen sb) ks (headerBytes JBD2_REVOKE_BLOCK t.seq ++ beBytes 4 (16 + ks.length * recLen sb)) zeros
  have hmod : (ks.map fun k => k % 256 ^ recLen sb) = ks :=
    (map_congr_left fun k hk => Nat.mod_eq_of_lt (hnum k hk)).trans (List.map_id' ks)
  rw [length_append, append_assoc, ← hblock, hmod] at hrecords
  rw [Jbd2.parseRevoke, hused, getD_some]
  rw [Nat.min_eq_left hlen, Nat.add_sub_cancel_left, Nat.mul_div_cancel _ hrec]
  conv_rhs => rw [← hrecords, List.map_map]
  rfl

variable (h : t.Valid sb) (hsize : sb.blockSize ≤ 65536)
include h hsize

end Txn

/-! ### Writing -/

def blockOf (blockSize : Nat) (fsImage : List UInt8) (k : Nat) : Block := (fsImage.drop (k * blockSize)).take blockSize

def HasBlock (blockSize : Nat) (fsImage : List UInt8) (k : Nat) : Prop :=
  k * blockSize < 2 ^ 64 ∧ k * blockSize + blockSize ≤ fsImage.length

instance (blockSize : Nat) (fsImage : List UInt8) (k : Nat) : Decidable (HasBlock blockSize fsImage k) :=
  inferInstanceAs (Decidable (_ ∧ _))

def put (blockSize : Nat) (fsImage : List UInt8) (w : Nat × Block) : List UInt8 :=
  if HasBlock blockSize fsImage w.1 then
    fsImage.take (w.1 * blockSize) ++ w.2 ++ fsImage.drop (w.1 * blockSize + blockSize)
  else fsImage

/-- The scan reads from the descriptor block the numbers and the escapes of the blocks that are logged. Tags behind them
    have no block of data. -/
def Part.Read (sb : JournalSuperblock) (p : Part) : Prop :=
  (p.writes.map fun w => (w.1, hasMagic w.2)) <+: (parseDescriptor p.descriptor sb).map fun tag => (tag.fsBlock, tag.escaped)

/-- The journal is the encoding of these transactions, and what stands behind them commits none. -/
structure Encodes (sb : JournalSuperblock) (journal : List UInt8) (txns : List Txn) : Prop where
  long : 1024 ≤ journal.length
  superblock : parseSuperblock (journal.take 1024) = some sb
  size : 0 < sb.blockSize ∧ sb.blockSize ≤ 65536
  features : unsupportedIncompat sb.features = 0
  fits : 0 < sb.maxLen ∧ sb.maxLen * sb.blockSize ≤ journal.length
  valid : ∀ t ∈ txns, t.Valid sb
  log : ∃ rest, ring sb journal = txns.flatMap (·.encode sb) ++ rest ∧ replayedFrom sb none rest = []

end Moxide.Jbd2

import Moxide.Jbd2

/-! What a replay takes from the journal. A commit block's number is compared with that of the last descriptor block, never
    with the one in the superblock. -/

namespace Moxide.Jbd2
open Lib List

variable {sb : JournalSuperblock} {s : Scan} {b : Block} {bs : List Block}

/-- The pending transaction after a block. -/
def follow (sb : JournalSuperblock) (current : Option PendingTxn) (b : Block) : Option PendingTxn :=
  (scanBlock sb { fsImage := [], current } b).current

/-- The transaction that the block commits: the pending one, if the block is a commit block with its number. -/
def taken (current : Option PendingTxn) (b : Block) : List PendingTxn :=
  match header b with
  | some (ty, seq) => if ty = JBD2_COMMIT_BLOCK then (current.filter (·.sequence = seq)).toList else []
  | none => []

/-- The transactions that a scan replays, when `current` is pending before it. -/
def replayedFrom (sb : JournalSuperblock) : Option PendingTxn → List Block → List PendingTxn
  | _, [] => []
  | current, b :: bs => taken current b ++ replayedFrom sb (follow sb current b) bs

def beBytes (n v : Nat) : Block := (LittleEndian.toBytes n v).reverse

def headerBytes (ty seq : Nat) : Block := beBytes 4 JBD2_MAGIC ++ (beBytes 4 ty ++ beBytes 4 seq)

def filled (sb : JournalSuperblock) (b : Block) : Block := b ++ List.replicate (sb.blockSize - b.length) 0

def hasMagic (data : Block) : Bool := (beBytes 4 JBD2_MAGIC).isPrefixOf data

def escape (data : Block) : Block := if hasMagic data then List.replicate 4 0 ++ data.drop 4 else data

/-- A descriptor block with the blocks that it logs. -/
structure Part where
  descriptor : Block
  writes : List (Nat × Block)

/-- A transaction: its descriptor blocks, for each revoke block the blocks it revokes, and its commit block. -/
structure Txn where
  seq : Nat
  parts : List Part
  revokes : List (List Nat)
  commit : Block

namespace Txn

def revoke (sb : JournalSuperblock) (t : Txn) (blocks : List Nat) : Block :=
  filled sb (headerBytes JBD2_REVOKE_BLOCK t.seq ++ (beBytes 4 (16 + blocks.length * recLen sb) ++
    blocks.flatMap (beBytes (recLen sb))))

def encode (sb : JournalSuperblock) (t : Txn) : List Block :=
  t.parts.flatMap (fun p => p.descriptor :: p.writes.map fun w => escape w.2) ++ (t.revokes.map (t.revoke sb) ++ [t.commit])

end Txn

def smallSuperblock (sequence start : Nat) : JournalSuperblock :=
  { blockSize := 64, maxLen := 16, first := 1, sequence, start, uuid := List.replicate 16 0 }

/-- The tags of JBD2 in a journal without checksums and wide block numbers: a block number, the checksum, the flags, and the
    UUID with the first tag. -/
def tagsBytes : Bool → List (Nat × Block) → Block
  | _, [] => []
  | same, (fsBlock, data) :: ws =>
    beBytes 4 fsBlock ++ (beBytes 2 0 ++ (beBytes 2 ((if hasMagic data then JBD2_FLAG_ESCAPE else 0) +
      (if same then JBD2_FLAG_SAME_UUID else 0) + if ws.isEmpty then JBD2_FLAG_LAST_TAG else 0) ++
      ((if same then [] else List.replicate 16 0) ++ tagsBytes true ws)))

/-- A transaction in blocks of 64 bytes. -/
def smallTxn (seq : Nat) (parts : List (List (Nat × Block))) (revokes : List (List Nat)) : Txn where
  seq := seq
  parts := parts.map fun ws =>
    ⟨filled (smallSuperblock 0 0) (headerBytes JBD2_DESCRIPTOR_BLOCK seq ++ tagsBytes false ws), ws⟩
  revokes := revokes
  commit := filled (smallSuperblock 0 0) (headerBytes JBD2_COMMIT_BLOCK seq)

def smallJournal (sequence start : Nat) (txns : List Txn) : List UInt8 :=
  let sb := smallSuperblock sequence start
  let blocks := txns.flatMap (·.encode sb)
  filled sb (headerBytes JBD2_SUPERBLOCK_V2 0 ++ (beBytes 4 64 ++ (beBytes 4 16 ++ (beBytes 4 1 ++ (beBytes 4 sequence ++
    beBytes 4 start))))) ++ (blocks.flatten ++ List.replicate ((15 - blocks.length) * 64) 0)

def replayed (fsImage journal : List UInt8) : Option (List UInt8) := (replayJournalImage fsImage journal).toOption.map (·.1)

def ones : Block := List.replicate 64 1
def zeros : Block := List.replicate 64 0

def twos : Block := List.replicate 64 2

def twoTxns : List Txn := [smallTxn 3 [[(0, ones)]] [], smallTxn 4 [[(1, twos)]] []]

theorem replay_small : replayJournalImage (zeros ++ zeros) (smallJournal 3 1 twoTxns) =
    .ok (ones ++ twos, { transactionsSeen := 3, transactionsReplayed := 2, blocksReplayed := 2 }) := by
  decide +kernel

/-- A byte of the second image is that of the first one or of the start. -/
structure Follows (start x y : List UInt8) : Prop where
  first : x.length = start.length
  second : y.length = start.length
  byte : ∀ i : Nat, y[i]? = x[i]? ∨ y[i]? = start[i]?

section
variable {start x y : List UInt8} {blockSize : Nat} (h : Follows start x y)
include h

theorem Follows.splice {dst : Nat} {block : Block} (hblock : block.length = blockSize)
    (hin : dst + blockSize ≤ start.length) :
    Follows start (x.take dst ++ block ++ x.drop (dst + blockSize)) (y.take dst ++ block ++ y.drop (dst + blockSize)) := by
  obtain ⟨hx, hy, hbyte⟩ := h
  refine ⟨?_, ?_, fun i => ?_⟩
  · simp only [length_append, length_take, length_drop]
    omega
  · simp only [length_append, length_take, length_drop]
    omega
  · have hi := hbyte i
    simp only [getElem?_append, length_append, length_take, getElem?_take, getElem?_drop, hx, hy, hblock]
    rw [Nat.min_eq_left (by omega)]
    split_ifs with hend hstart
    · exact hi
    · exact .inl rfl
    · rwa [Nat.add_sub_cancel' (not_lt.mp hend)]

theorem Follows.write (tag : DescriptorTag) {src : Block} (hsrc : src.length = blockSize) :
    Option.Rel (Follows start) (writeTag x blockSize tag src) (writeTag y blockSize tag src) := by
  rw [writeTag, writeTag, h.first, h.second]
  split_ifs
  · exact .none
  · refine .some (h.splice ?_ (by omega))
    simp only [length_append, length_reverse, LittleEndian.length_toBytes, length_drop]
    omega
  · exact .some (h.splice hsrc (by omega))

theorem Follows.tags (txn : PendingTxn) (tags : List DescriptorTag) {payloads : List Block}
    (hlen : ∀ b ∈ payloads, b.length = blockSize) (n : Nat) :
    Follows start (applyTags blockSize txn tags payloads (x, n)).1 (applyTags blockSize txn tags payloads (y, n)).1 ∧
      (applyTags blockSize txn tags payloads (y, n)).2 = (applyTags blockSize txn tags payloads (x, n)).2 := by
  induction tags generalizing payloads x y n with
  | nil => exact ⟨h, rfl⟩
  | cons tag tags ih =>
    cases payloads with
    | nil =>
      rw [applyTags, applyTags]
      split_ifs
      · exact ih h hlen n
      · exact ⟨h, rfl⟩
    | cons src payloads =>
      have hrest := fun b hb => hlen b (.tail _ hb)
      have hwrite := h.write tag (hlen src (.head _))
      rw [applyTags, applyTags]
      split_ifs
      · exact ih h hrest n
      generalize writeTag x blockSize tag src = x', writeTag y blockSize tag src = y' at hwrite
      cases hwrite with
      | none => exact ih h hrest n
      | some hnext => exact ih hnext hrest (n + 1)

end

/-- Two scans that have read the same blocks into different images. -/
structure Paired (sb : JournalSuperblock) (start : List UInt8) (s t : Scan) : Prop where
  image : Follows start s.fsImage t.fsImage
  current : t.current = s.current
  report : t.report = s.report
  payloads : ∀ txn ∈ s.current, ∀ b ∈ txn.payloads, b.length = sb.blockSize

theorem Paired.step {start : List UInt8} {t : Scan} (h : Paired sb start s t) (hb : b.length = sb.blockSize) :
    Paired sb start (scanBlock sb s b) (scanBlock sb t b) := by
  obtain ⟨x, _, _⟩ := s
  obtain ⟨y, current, report⟩ := t
  obtain ⟨himage, rfl, rfl, hpay⟩ := h
  rw [scanBlock, scanBlock]
  cases header b with
  | none =>
    refine ⟨himage, rfl, rfl, fun txn htxn c hc => ?_⟩
    obtain ⟨old, hold, rfl⟩ := Option.mem_map.mp htxn
    rcases mem_append.mp hc with hc | hc
    · exact hpay old hold c hc
    · rw [mem_singleton.mp hc, hb]
  | some p =>
    dsimp only
    split_ifs
    · exact ⟨himage, rfl, rfl, fun txn htxn c hc => by cases htxn; cases hc⟩
    · refine ⟨himage, rfl, rfl, fun txn htxn => ?_⟩
      obtain ⟨old, hold, rfl⟩ := Option.mem_map.mp htxn
      exact hpay old hold
    · cases current with
      | none => exact ⟨himage, rfl, rfl, hpay⟩
      | some txn =>
        dsimp only
        split_ifs
        · obtain ⟨hfs, hcount⟩ := himage.tags txn txn.tags (hpay txn rfl) 0
          exact ⟨hfs, rfl, by rw [applyTxn, hcount]; rfl, fun _ htxn => nomatch htxn⟩
        · exact ⟨himage, rfl, rfl, fun _ htxn => nomatch htxn⟩
    · exact ⟨himage, rfl, rfl, hpay⟩
    · exact ⟨himage, rfl, rfl, hpay⟩

theorem length_of_mem_ringFrom {journal : List UInt8} {n idx : Nat} (h : b ∈ ringFrom sb journal n idx) :
    b.length = sb.blockSize := by
  induction n generalizing idx with
  | zero => cases h
  | succ n ih =>
    rw [ringFrom, blockByJournalIndex] at h
    by_cases hat : idx * sb.blockSize + sb.blockSize ≤ journal.length
    · rw [if_pos hat] at h
      rcases mem_cons.mp h with rfl | h
      · rw [length_take, length_drop]
        omega
      · exact ih h
    · rw [if_neg hat] at h
      cases h

/-- A second replay of the same journal changes nothing and reports the same. -/
theorem replay_idempotent {fsImage journal fsImage' : List UInt8} {report : ReplayReport}
    (h : replayJournalImage fsImage journal = .ok (fsImage', report)) :
    replayJournalImage fsImage' journal = .ok (fsImage', report) := by
  rw [replayJournalImage] at h ⊢
  cases hsb : parseSuperblock (journal.take 1024) with
  | none =>
    rw [hsb] at h
    split_ifs at h
  | some sb =>
    rw [hsb] at h
    dsimp only at h ⊢
    split_ifs at h ⊢
    have hpaired : ∀ {start x y}, Follows start x y →
      Paired sb start ((ring sb journal).foldl (scanBlock sb) { fsImage := x })
        ((ring sb journal).foldl (scanBlock sb) { fsImage := y }) := fun hxy =>
      foldl_rel ⟨hxy, rfl, rfl, fun _ htxn => nomatch htxn⟩ fun b hb s t hst => hst.step (length_of_mem_ringFrom hb)
    cases h
    -- the image keeps its length, by a replay beside itself
    have hlen := (hpaired (x := fsImage) ⟨rfl, rfl, fun _ => .inl rfl⟩).image.first
    obtain ⟨himage, -, hreport, -⟩ := hpaired ⟨hlen.symm, rfl, fun _ => .inr rfl⟩
    rw [hreport, ext_getElem? fun i => (himage.byte i).elim id id]

theorem replay_idempotent_two : replayJournalImage (ones ++ twos) (smallJournal 3 1 twoTxns) =
    .ok (ones ++ twos, { transactionsSeen := 3, transactionsReplayed := 2, blocksReplayed := 2 }) :=
  replay_idempotent replay_small

end Moxide.Jbd2

import Moxide.Lib.Bytes

/-! Replay of a JBD2 journal (`fs/jbd2.rs`). Words are natural numbers below their bounds. -/

namespace Moxide.Jbd2
open Lib

def JBD2_MAGIC : Nat := 0xC03B3998
def JBD2_DESCRIPTOR_BLOCK : Nat := 1
def JBD2_COMMIT_BLOCK : Nat := 2
def JBD2_SUPERBLOCK_V1 : Nat := 3
def JBD2_SUPERBLOCK_V2 : Nat := 4
def JBD2_REVOKE_BLOCK : Nat := 5

def JBD2_FLAG_ESCAPE : Nat := 1
def JBD2_FLAG_SAME_UUID : Nat := 2
def JBD2_FLAG_DELETED : Nat := 4
def JBD2_FLAG_LAST_TAG : Nat := 8

def JBD2_FEATURE_INCOMPAT_64BIT : Nat := 2
def JBD2_FEATURE_INCOMPAT_CSUM_V2 : Nat := 8
def JBD2_FEATURE_INCOMPAT_CSUM_V3 : Nat := 16
def JBD2_FEATURE_INCOMPAT_FAST_COMMIT : Nat := 32

abbrev Block := List UInt8

structure JournalFeatures where
  compat : Nat := 0
  incompat : Nat := 0
  roCompat : Nat := 0
  deriving DecidableEq

structure JournalSuperblock where
  blockSize : Nat
  maxLen : Nat
  first : Nat
  sequence : Nat
  start : Nat
  errno : Nat := 0
  features : JournalFeatures := {}
  uuid : List UInt8 := []
  checksumType : UInt8 := 0
  checksumSeed : Nat := 0
  deriving DecidableEq

structure DescriptorTag where
  fsBlock : Nat
  flags : Nat
  escaped : Bool
  deriving DecidableEq

structure RevokeRecord where
  sequence : Nat
  fsBlock : Nat
  deriving DecidableEq

structure PendingTxn where
  sequence : Nat
  tags : List DescriptorTag
  payloads : List Block
  revokes : List RevokeRecord
  deriving DecidableEq

structure ReplayReport where
  transactionsSeen : Nat := 0
  transactionsReplayed : Nat := 0
  blocksReplayed : Nat := 0
  revokeRecords : Nat := 0
  checksumFailures : Nat := 0
  unsupportedFastCommitBlocks : Nat := 0
  deriving DecidableEq

inductive ReplayError
  | emptyJournal
  | invalidBlockSize
  | badSuperblock
  | unsupportedFeature (features : Nat)
  | outOfBounds
  deriving DecidableEq

/-- A number of `n` bytes at `off`, high byte first: `be16`, `be32` and `be64`. -/
def be (b : Block) (off n : Nat) : Option Nat :=
  if off + n ≤ b.length then some (LittleEndian.ofBytes ((b.drop off).take n).reverse) else none

/-- The type and the sequence number of a block that carries the magic. -/
def header (block : Block) : Option (Nat × Nat) := do
  let magic ← be block 0 4
  let ty ← be block 4 4
  let seq ← be block 8 4
  if magic ≠ JBD2_MAGIC then none else return (ty, seq)

def parseSuperblock (block : Block) : Option JournalSuperblock := do
  let (ty, _) ← header block
  if ty ≠ JBD2_SUPERBLOCK_V1 ∧ ty ≠ JBD2_SUPERBLOCK_V2 then none
  else
    let blockSize ← be block 12 4
    let maxLen ← be block 16 4
    let first ← be block 20 4
    let sequence ← be block 24 4
    let start ← be block 28 4
    let word off := (be block off 4).getD 0
    if blockSize = 0 ∨ blockSize &&& (blockSize - 1) ≠ 0 then none
    else return {
      blockSize, maxLen, first, sequence, start
      errno := word 32
      features := { compat := word 36, incompat := word 40, roCompat := word 44 }
      uuid := if 64 ≤ block.length then (block.drop 48).take 16 else List.replicate 16 0
      checksumType := block.getD 80 0
      checksumSeed := word 84 }

/-- The incompatible features other than the lowest six, all of which are supported. -/
def unsupportedIncompat (features : JournalFeatures) : Nat := features.incompat / 64 * 64

def blockByJournalIndex (journal : List UInt8) (blockSize idx : Nat) : Option Block :=
  if idx * blockSize + blockSize ≤ journal.length then some ((journal.drop (idx * blockSize)).take blockSize) else none

def JournalSuperblock.has (sb : JournalSuperblock) (feature : Nat) : Bool := sb.features.incompat &&& feature ≠ 0

/-- The bytes of a tag with these flags: the block number, the flags, a UUID unless it is the same one, a checksum. -/
def tagLen (sb : JournalSuperblock) (flags : Nat) : Nat :=
  4 + (if sb.has JBD2_FEATURE_INCOMPAT_64BIT then 4 else 0) + 2 + (if flags &&& JBD2_FLAG_SAME_UUID = 0 then 16 else 0) +
    if sb.has JBD2_FEATURE_INCOMPAT_CSUM_V3 then 4 else if sb.has JBD2_FEATURE_INCOMPAT_CSUM_V2 then 2 else 0

def tailLen (sb : JournalSuperblock) : Nat :=
  if sb.has JBD2_FEATURE_INCOMPAT_CSUM_V2 || sb.has JBD2_FEATURE_INCOMPAT_CSUM_V3 then 8 else 0

/-- The loop of `parse_descriptor` at `off`. A tag has six bytes or more, so the length of the block is rounds enough. -/
def tagsFrom (sb : JournalSuperblock) (block : Block) : Nat → Nat → List DescriptorTag
  | 0, _ => []
  | n + 1, off =>
    if block.length - tailLen sb < off + 8 then []
    else
      match be block off 4 with
      | none => []
      | some lo =>
        let wide := sb.has JBD2_FEATURE_INCOMPAT_64BIT
        let hi := if wide then (be block (off + 4) 4).getD 0 else 0
        let flags := (be block (off + 4 + if wide then 4 else 0) 2).getD 0
        let off := off + tagLen sb flags
        if block.length < off then []
        else
          let tag :=
            if flags &&& JBD2_FLAG_DELETED = 0 then [⟨hi * 2 ^ 32 + lo, flags, flags &&& JBD2_FLAG_ESCAPE ≠ 0⟩] else []
          if flags &&& JBD2_FLAG_LAST_TAG ≠ 0 then tag else tag ++ tagsFrom sb block n off

def parseDescriptor (block : Block) (sb : JournalSuperblock) : List DescriptorTag := tagsFrom sb block block.length 12

def recLen (sb : JournalSuperblock) : Nat := if sb.has JBD2_FEATURE_INCOMPAT_64BIT then 8 else 4

def parseRevoke (block : Block) (sb : JournalSuperblock) (seq : Nat) : List RevokeRecord :=
  let used := (be block 12 4).getD (block.length % 2 ^ 32)
  (List.range ((min used block.length - 16) / recLen sb)).map fun i =>
    ⟨seq, (be block (16 + i * recLen sb) (recLen sb)).getD 0⟩

def isRevoked (revokes : List RevokeRecord) (sequence fsBlock : Nat) : Bool :=
  revokes.any fun r => r.sequence = sequence && r.fsBlock = fsBlock

/-- Copy a payload to its block, with the magic put back; `none` if the image has no such block. -/
def writeTag (fsImage : List UInt8) (blockSize : Nat) (tag : DescriptorTag) (src : Block) : Option (List UInt8) :=
  let dst := tag.fsBlock * blockSize
  if 2 ^ 64 ≤ dst ∨ fsImage.length < dst + blockSize then none
  else
    let block := if tag.escaped ∧ 4 ≤ blockSize then (LittleEndian.toBytes 4 JBD2_MAGIC).reverse ++ src.drop 4 else src
    some (fsImage.take dst ++ block ++ fsImage.drop (dst + blockSize))

/-- The loop of `apply_txn`, with the payloads from the current index on. -/
def applyTags (blockSize : Nat) (txn : PendingTxn) : List DescriptorTag → List Block → List UInt8 × Nat → List UInt8 × Nat
  | [], _, s => s
  | tag :: tags, payloads, (fsImage, replayed) =>
    if isRevoked txn.revokes txn.sequence tag.fsBlock then applyTags blockSize txn tags payloads.tail (fsImage, replayed)
    else
      match payloads with
      | [] => (fsImage, replayed)
      | src :: payloads =>
        match writeTag fsImage blockSize tag src with
        | none => applyTags blockSize txn tags payloads (fsImage, replayed)
        | some fsImage => applyTags blockSize txn tags payloads (fsImage, replayed + 1)

def applyTxn (fsImage : List UInt8) (blockSize : Nat) (txn : PendingTxn) : List UInt8 × Nat :=
  applyTags blockSize txn txn.tags txn.payloads (fsImage, 0)

structure Scan where
  fsImage : List UInt8
  current : Option PendingTxn := none
  report : ReplayReport := {}

def scanBlock (sb : JournalSuperblock) (s : Scan) (block : Block) : Scan :=
  match header block with
  | none => { s with current := s.current.map fun txn => { txn with payloads := txn.payloads ++ [block] } }
  | some (ty, seq) =>
    if ty = JBD2_DESCRIPTOR_BLOCK then
      { s with
        current := some ⟨seq, parseDescriptor block sb, [], []⟩
        report := { s.report with transactionsSeen := s.report.transactionsSeen + 1 } }
    else if ty = JBD2_REVOKE_BLOCK then
      let revokes := parseRevoke block sb seq
      { s with
        current := s.current.map fun txn => { txn with revokes := txn.revokes ++ revokes }
        report := { s.report with revokeRecords := s.report.revokeRecords + revokes.length } }
    else if ty = JBD2_COMMIT_BLOCK then
      match s.current with
      | none => s
      | some txn =>
        if txn.sequence = seq then
          let (fsImage, n) := applyTxn s.fsImage sb.blockSize txn
          { fsImage
            current := none
            report := { s.report with
              blocksReplayed := s.report.blocksReplayed + n, transactionsReplayed := s.report.transactionsReplayed + 1 } }
        else { s with current := none }
    else if ty = JBD2_FEATURE_INCOMPAT_FAST_COMMIT then
      { s with report := { s.report with unsupportedFastCommitBlocks := s.report.unsupportedFastCommitBlocks + 1 } }
    else s

/-- The blocks that `n` rounds of the scan come to, from `idx` on around the ring. -/
def ringFrom (sb : JournalSuperblock) (journal : List UInt8) : Nat → Nat → List Block
  | 0, _ => []
  | n + 1, idx =>
    match blockByJournalIndex journal sb.blockSize idx with
    | none => []
    | some block => block :: ringFrom sb journal n (if sb.maxLen ≤ idx + 1 then sb.first else idx + 1)

def startIdx (sb : JournalSuperblock) : Nat :=
  let idx := if sb.start = 0 then sb.first else sb.start
  if idx = 0 then 1 else idx

def ring (sb : JournalSuperblock) (journal : List UInt8) : List Block := ringFrom sb journal sb.maxLen (startIdx sb)

/-- Replay a linear journal byte image into `fsImage`. Nothing is written before the last error exit. -/
def replayJournalImage (fsImage journal : List UInt8) : Except ReplayError (List UInt8 × ReplayReport) :=
  if journal.length < 1024 then .error .emptyJournal
  else
    match parseSuperblock (journal.take 1024) with
    | none => .error .badSuperblock
    | some sb =>
      if sb.blockSize = 0 ∨ 65536 < sb.blockSize then .error .invalidBlockSize
      else if unsupportedIncompat sb.features ≠ 0 then .error (.unsupportedFeature (unsupportedIncompat sb.features))
      else if sb.maxLen = 0 ∨ journal.length < sb.maxLen * sb.blockSize then .error .outOfBounds
      else
        let s := (ring sb journal).foldl (scanBlock sb) { fsImage }
        .ok (s.fsImage, s.report)

end Moxide.Jbd2

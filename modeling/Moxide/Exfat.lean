import Moxide.Lib.Spans
import Moxide.Lib.Chain

/-! Model of `fs/exfat.rs`: an exFAT volume held in memory as one byte image. Strings are lists of characters. An update
    returns the volume with its result, as the volume is changed in place also when the call fails. -/

namespace Moxide.Exfat
open Lib
open Lib.LittleEndian (toBytes ofBytes)

def FAT_FREE : Nat := 0x00000000
def FAT_BAD : Nat := 0xFFFFFFF7
def FAT_EOC : Nat := 0xFFFFFFFF

def DENTRY_EOD : UInt8 := 0x00
def DENTRY_FILE : UInt8 := 0x85
def DENTRY_STREAM_EXT : UInt8 := 0xC0
def DENTRY_FILE_NAME : UInt8 := 0xC1

def DENTRY_SIZE : Nat := 32
def FILE_NAME_CHARS_PER_DENTRY : Nat := 15
def MAX_FILE_NAME_UTF16_UNITS : Nat := 255

def ATTR_DIRECTORY : Nat := 0x0010
def ATTR_ARCHIVE : Nat := 0x0020

structure ClusteredExtent where
  firstCluster : Nat
  len : Nat
  deriving DecidableEq

structure ExfatVol where
  data : Mem
  /-- The length of the image. -/
  dataLen : Nat
  bytesPerSector : Nat
  secsPerCluster : Nat
  bytesPerCluster : Nat
  fatOffset : Nat
  fatLength : Nat
  clusterHeapOff : Nat
  clusterCount : Nat
  rootCluster : Nat
  bitmap : Option ClusteredExtent
  upcase : Option ClusteredExtent

structure DirEntry where
  name : List Char
  firstCluster : Nat
  size : Nat
  isDir : Bool
  primaryOff : Nat
  secondaryCount : Nat
  parentCluster : Nat
  deriving DecidableEq

namespace ExfatVol

variable (v : ExfatVol)

/-! ### Clusters and the FAT -/

def maxClusterExclusive : Nat := min (v.clusterCount + 2) (2 ^ 32 - 1)

def clusterOffset (cluster : Nat) : Option Nat :=
  if cluster < 2 ∨ v.maxClusterExclusive ≤ cluster then none
  else
    let off := (v.clusterHeapOff + (cluster - 2) * v.secsPerCluster) * v.bytesPerSector
    if off + v.bytesPerCluster ≤ v.dataLen then some off else none

def clusterBytes (cluster : Nat) : Option (List UInt8) :=
  (v.clusterOffset cluster).map fun off => v.data.read off v.bytesPerCluster

def fatOff (cluster : Nat) : Nat := v.fatOffset * v.bytesPerSector + cluster * 4

def fatEnd : Nat := (v.fatOffset + v.fatLength) * v.bytesPerSector

def fatEntry (cluster : Nat) : Nat :=
  if v.dataLen < v.fatOff cluster + 4 ∨ v.fatEnd < v.fatOff cluster + 4 then FAT_BAD else v.data.load (v.fatOff cluster) 4

def setFatEntry (cluster value : Nat) : ExfatVol :=
  if v.dataLen < v.fatOff cluster + 4 ∨ v.fatEnd < v.fatOff cluster + 4 then v
  else { v with data := v.data.store (v.fatOff cluster) 4 value }

/-- The loop of `cluster_chain`; the number is the rounds left until `chain.len()` exceeds the cluster count. -/
def chainLoop : Nat → Nat → List Nat
  | 0, _ => []
  | n + 1, cur =>
    if 2 ≤ cur ∧ cur < FAT_BAD ∧ cur < v.maxClusterExclusive then
      let next := v.fatEntry cur
      if next = FAT_FREE ∨ FAT_BAD ≤ next then [cur] else cur :: chainLoop n next
    else []

def clusterChain (first : Nat) : List Nat := v.chainLoop (v.clusterCount + 1) first

def readChain (first : Nat) : List UInt8 := (v.clusterChain first).flatMap fun c => (v.clusterBytes c).getD []

def readExtent (extent : ClusteredExtent) : List UInt8 :=
  if extent.firstCluster < 2 ∨ extent.len = 0 then [] else (v.readChain extent.firstCluster).take extent.len

/-- The address of an offset into the clusters of a chain. -/
def dirEntryAbsOff (dirFirstCluster dirRelativeOff : Nat) : Option Nat :=
  ((v.clusterChain dirFirstCluster)[dirRelativeOff / v.bytesPerCluster]?).bind fun cluster =>
    (v.clusterOffset cluster).map (· + dirRelativeOff % v.bytesPerCluster)

def extentAbsOff (extent : ClusteredExtent) (relOff : Nat) : Option Nat :=
  if extent.len ≤ relOff then none else v.dirEntryAbsOff extent.firstCluster relOff

/-! ### Allocation -/

def bitmapByte (cluster : Nat) : Option Nat :=
  match v.bitmap with
  | none => none
  | some bitmap =>
    if cluster < 2 then none else (v.extentAbsOff bitmap ((cluster - 2) / 8)).filter (· < v.dataLen)

def bitmapBit (cluster : Nat) : UInt8 := 1 <<< UInt8.ofNat ((cluster - 2) % 8)

def bitmapClusterAllocated (cluster : Nat) : Option Bool :=
  (v.bitmapByte cluster).map fun x => v.data x &&& bitmapBit cluster != 0

def setBitmapClusterAllocated (cluster : Nat) (allocated : Bool) : ExfatVol :=
  match v.bitmapByte cluster with
  | none => v
  | some x =>
    let byte := if allocated then v.data x ||| bitmapBit cluster else v.data x &&& ~~~bitmapBit cluster
    { v with data := Function.update v.data x byte }

/-- `cluster_bytes_mut(cluster)` filled with zeros. -/
def zeroCluster (cluster : Nat) : ExfatVol :=
  match v.clusterOffset cluster with
  | none => v
  | some off => { v with data := v.data.fill off 0 v.bytesPerCluster }

/-- The test `fat_free && bitmap_free`. -/
def clusterFree (cluster : Nat) : Bool :=
  v.fatEntry cluster == FAT_FREE && !(v.bitmapClusterAllocated cluster).getD false

def allocCluster : ExfatVol × Option Nat :=
  match (List.range' 2 (v.maxClusterExclusive - 2)).find? v.clusterFree with
  | none => (v, none)
  | some c => (((v.setFatEntry c FAT_EOC).setBitmapClusterAllocated c true).zeroCluster c, some c)

def freeAllocatedClusters (chain : List Nat) : ExfatVol :=
  chain.foldl (fun v c => (v.setFatEntry c FAT_FREE).setBitmapClusterAllocated c false) v

def freeChain (first : Nat) : ExfatVol := if first < 2 then v else v.freeAllocatedClusters (v.clusterChain first)

/-- The loops that allocate a number of clusters, and free those they have when there is no more. -/
def allocClusters (v : ExfatVol) (chain : List Nat) : Nat → ExfatVol × Except Int (List Nat)
  | 0 => (v, .ok chain)
  | n + 1 =>
    match v.allocCluster with
    | (v, some cluster) => allocClusters v (chain ++ [cluster]) n
    | (v, none) => (v.freeAllocatedClusters chain, .error (-28))

/-- The loops that link the clusters of a list, the last to the end mark. -/
def linkClusters (v : ExfatVol) : List Nat → ExfatVol
  | [] => v
  | [c] => v.setFatEntry c FAT_EOC
  | c :: d :: rest => linkClusters (v.setFatEntry c d) (d :: rest)

def appendClustersToChain (first additional : Nat) : ExfatVol × Except Int Unit :=
  if first < 2 then (v, .error (-5))
  else if additional = 0 then (v, .ok ())
  else
    match (v.clusterChain first).getLast? with
    | none => (v, .error (-5))
    | some tail =>
      match v.allocClusters [] additional with
      | (v, .error err) => (v, .error err)
      | (v, .ok newClusters) => ((v.setFatEntry tail (newClusters.headD 0)).linkClusters newClusters, .ok ())

end ExfatVol

/-! ### Names -/

def asciiUpcaseUnit (unit : UInt16) : UInt16 := if 97 ≤ unit ∧ unit ≤ 122 then unit - 32 else unit

/-- The loop of `upcase_unit` over the rest of the table: `0xFFFF` and a number stand for a run of units that stay. -/
def upcaseLoop (unit : UInt16) : Nat → List UInt8 → UInt16
  | logicalIndex, lo :: hi :: table =>
    if ofBytes [lo, hi] = 0xFFFF then
      match table with
      | lo' :: hi' :: table =>
        if logicalIndex ≤ unit.toNat ∧ unit.toNat < logicalIndex + ofBytes [lo', hi'] then unit
        else upcaseLoop unit (logicalIndex + ofBytes [lo', hi']) table
      | _ => asciiUpcaseUnit unit
    else if logicalIndex = unit.toNat then UInt16.ofNat (ofBytes [lo, hi])
    else upcaseLoop unit (logicalIndex + 1) table
  | _, _ => asciiUpcaseUnit unit

def ExfatVol.upcaseUnit (v : ExfatVol) (unit : UInt16) : UInt16 :=
  match v.upcase with
  | none => asciiUpcaseUnit unit
  | some upcase => upcaseLoop unit 0 (v.readExtent upcase)

/-- `char::encode_utf16`. -/
def encodeChar (c : Char) : List UInt16 :=
  if c.toNat < 0x10000 then [UInt16.ofNat c.toNat]
  else [UInt16.ofNat (0xD800 + (c.toNat - 0x10000) / 0x400), UInt16.ofNat (0xDC00 + (c.toNat - 0x10000) % 0x400)]

def encodeUtf16 (name : List Char) : List UInt16 := name.flatMap encodeChar

/-- `char::decode_utf16` with `?` for every unit that is not part of a pair. -/
def decodeUtf16 : List UInt16 → List Char
  | [] => []
  | [u] => if u < 0xD800 ∨ 0xDFFF < u then [Char.ofNat u.toNat] else ['?']
  | u :: w :: rest =>
    if u < 0xD800 ∨ 0xDFFF < u then Char.ofNat u.toNat :: decodeUtf16 (w :: rest)
    else if u < 0xDC00 ∧ 0xDC00 ≤ w ∧ w ≤ 0xDFFF then
      Char.ofNat (0x10000 + (u.toNat - 0xD800) * 0x400 + (w.toNat - 0xDC00)) :: decodeUtf16 rest
    else '?' :: decodeUtf16 (w :: rest)

def ExfatVol.foldedNameUnits (v : ExfatVol) (name : List Char) : List UInt16 := (encodeUtf16 name).map v.upcaseUnit

def ExfatVol.namesEqual (v : ExfatVol) (lhs rhs : List Char) : Bool := v.foldedNameUnits lhs == v.foldedNameUnits rhs

/-- `chunks_exact(2)`, each as a unit. -/
def utf16leUnits : List UInt8 → List UInt16
  | lo :: hi :: rest => UInt16.ofNat (ofBytes [lo, hi]) :: utf16leUnits rest
  | _ => []

def parseUtf16leName (data : List UInt8) (len : Nat) : List Char := decodeUtf16 ((utf16leUnits data).take len)

def utf16NameUnits (name : List Char) : Except Int (List UInt16) :=
  if name = [] ∨ name = ['.'] ∨ name = ['.', '.'] then .error (-22)
  else if name.any fun ch => ch.toNat < 0x20 || ch ∈ ['"', '*', '/', ':', '<', '>', '?', '\\', '|'] then .error (-22)
  else if (encodeUtf16 name).isEmpty || MAX_FILE_NAME_UTF16_UNITS < (encodeUtf16 name).length then .error (-36)
  else .ok (encodeUtf16 name)

/-! ### Directory entries -/

def byteAt (data : List UInt8) (i : Nat) : UInt8 := data.getD i 0

def numAt (data : List UInt8) (i n : Nat) : Nat := ofBytes ((data.drop i).take n)

/-- What the secondary entries of a file entry have given so far. -/
structure Secondaries where
  firstCluster : Nat
  size : Nat
  nameLen : Nat
  nameData : List UInt8

def Secondaries.read (s : Secondaries) (data : List UInt8) (i : Nat) : Secondaries :=
  if byteAt data i = DENTRY_STREAM_EXT then
    { s with nameLen := (byteAt data (i + 3)).toNat, size := numAt data (i + 8) 8, firstCluster := numAt data (i + 20) 4 }
  else if byteAt data i = DENTRY_FILE_NAME then { s with nameData := s.nameData ++ (data.drop (i + 2)).take 30 }
  else s

/-- The loop over the secondary entries from `i` on. -/
def readSecondaries (data : List UInt8) : Nat → Nat → Secondaries → Nat × Secondaries
  | 0, i, s => (i, s)
  | n + 1, i, s =>
    if data.length < i + DENTRY_SIZE then (i, s) else readSecondaries data n (i + DENTRY_SIZE) (s.read data i)

/-- The loop of `parse_dir_entries` from `i` on. A round takes at least one entry of the data, so as many rounds as there
    are bytes are enough. -/
def parseLoop (data : List UInt8) (parentCluster : Nat) : Nat → Nat → List DirEntry
  | 0, _ => []
  | n + 1, i =>
    if data.length < i + DENTRY_SIZE then []
    else if byteAt data i = DENTRY_EOD then []
    else if byteAt data i = DENTRY_FILE then
      let secCount := (byteAt data (i + 1)).toNat
      let isDir := numAt data (i + 4) 2 &&& ATTR_DIRECTORY != 0
      let (j, s) := readSecondaries data secCount (i + DENTRY_SIZE) ⟨0, 0, 0, []⟩
      let name := parseUtf16leName s.nameData s.nameLen
      if name.isEmpty then parseLoop data parentCluster n j
      else ⟨name, s.firstCluster, s.size, isDir, i, secCount, parentCluster⟩ :: parseLoop data parentCluster n j
    else parseLoop data parentCluster n (i + DENTRY_SIZE)

def parseDirEntries (data : List UInt8) (parentCluster : Nat) : List DirEntry := parseLoop data parentCluster data.length 0

namespace ExfatVol

variable (v : ExfatVol)

def entries (dir : Nat) : List DirEntry := parseDirEntries (v.readChain dir) dir

def findEntryByName (entries : List DirEntry) (name : List Char) : Option DirEntry :=
  entries.find? fun entry => v.namesEqual entry.name name

/-- The loop of `resolve_path` from a directory on. -/
def resolveLoop (curCluster : Nat) : List (List Char) → Option DirEntry
  | [] => none
  | comp :: rest =>
    match v.findEntryByName (v.entries curCluster) comp with
    | none => none
    | some found =>
      if rest.isEmpty then some found
      else if !found.isDir then none
      else resolveLoop found.firstCluster rest

def components (path : List Char) : List (List Char) :=
  ((path.dropWhile (· == '/')).splitOn '/').filter (!·.isEmpty)

def resolvePath (path : List Char) : Option DirEntry :=
  if (components path).isEmpty then some ⟨[], v.rootCluster, 0, true, 0, 0, 0⟩
  else v.resolveLoop v.rootCluster (components path)

def resolveParentDir (parent : List Char) : Option DirEntry := (v.resolvePath parent).filter (·.isDir)

def rfindSlash (path : List Char) : Option Nat :=
  (path.reverse.findIdx? (· == '/')).map fun i => path.length - 1 - i

def splitParentName (path : List Char) : List Char × List Char :=
  match rfindSlash path with
  | some p => (path.take (max p 1), path.drop (p + 1))
  | none => (['/'], path)

/-! ### Entry sets -/

/-- A sum of `name_hash` and `entry_set_checksum`: rotated right by one, then the byte added. -/
def hashStep (hash : UInt16) (b : UInt8) : UInt16 := (((hash &&& 1) <<< 15) ||| (hash >>> 1)) + UInt16.ofNat b.toNat

def nameHash (units : List UInt16) : UInt16 := (units.flatMap fun u => toBytes 2 (v.upcaseUnit u).toNat).foldl hashStep 0

def entrySetChecksum (entries : List UInt8) : UInt16 :=
  entries.zipIdx.foldl (fun checksum e => if e.2 = 2 ∨ e.2 = 3 then checksum else hashStep checksum e.1) 0

def nameDentry (units : List UInt16) : List UInt8 :=
  [DENTRY_FILE_NAME, 0x00] ++ (units.flatMap fun u => toBytes 2 u.toNat) ++ List.replicate (30 - 2 * units.length) 0

def fileDentry (secondaryCount checksum attrs : Nat) : List UInt8 :=
  [DENTRY_FILE, UInt8.ofNat secondaryCount] ++ toBytes 2 checksum ++ toBytes 2 attrs ++ List.replicate 26 0

def streamDentry (nameLen hash validDataLen firstCluster dataLen : Nat) : List UInt8 :=
  [DENTRY_STREAM_EXT, 0x01, 0, UInt8.ofNat nameLen] ++ toBytes 2 hash ++ [0, 0] ++ toBytes 8 validDataLen ++
    [0, 0, 0, 0] ++ toBytes 4 firstCluster ++ toBytes 8 dataLen

def buildDentries (name : List Char) (firstCluster validDataLen dataLen attrs : Nat) : Except Int (List UInt8) :=
  match utf16NameUnits name with
  | .error err => .error err
  | .ok nameUnits =>
    let filenameEntries := (nameUnits.length + FILE_NAME_CHARS_PER_DENTRY - 1) / FILE_NAME_CHARS_PER_DENTRY
    let secondaryCount := 1 + filenameEntries
    if 255 < secondaryCount then .error (-36)
    else
      let secondaries := streamDentry nameUnits.length (v.nameHash nameUnits).toNat validDataLen firstCluster dataLen ++
        (List.range filenameEntries).flatMap fun k =>
          nameDentry ((nameUnits.drop (k * FILE_NAME_CHARS_PER_DENTRY)).take FILE_NAME_CHARS_PER_DENTRY)
      let checksum := entrySetChecksum (fileDentry secondaryCount 0 attrs ++ secondaries)
      .ok (fileDentry secondaryCount checksum.toNat attrs ++ secondaries)

def buildFileDentries (name : List Char) (firstCluster size : Nat) : Except Int (List UInt8) :=
  v.buildDentries name firstCluster size size ATTR_ARCHIVE

def buildDirDentries (name : List Char) (firstCluster size : Nat) : Except Int (List UInt8) :=
  v.buildDentries name firstCluster size size (ATTR_DIRECTORY ||| ATTR_ARCHIVE)

/-! ### Entries in a directory -/

/-- A byte of a directory changed, if it is in its chain and in the image. -/
def modifyDirByte (dir off : Nat) (f : UInt8 → UInt8) : ExfatVol :=
  match v.dirEntryAbsOff dir off with
  | none => v
  | some x => if x < v.dataLen then { v with data := Function.update v.data x (f (v.data x)) } else v

def markDentryRangeDeleted (dirFirstCluster dirRelativeOff entryCount : Nat) : ExfatVol :=
  (List.range entryCount).foldl
    (fun v idx => v.modifyDirByte dirFirstCluster (dirRelativeOff + idx * DENTRY_SIZE) (· &&& 0x7F)) v

end ExfatVol

/-- The loop of `find_eod_offset` from `i` on. -/
def eodLoop (dirData : List UInt8) : Nat → Nat → Nat
  | 0, _ => dirData.length
  | n + 1, i =>
    if dirData.length < i + DENTRY_SIZE then dirData.length
    else if byteAt dirData i = DENTRY_EOD then i
    else eodLoop dirData n (i + DENTRY_SIZE)

def findEodOffset (dirData : List UInt8) : Nat := eodLoop dirData dirData.length 0

/-- The loop of `find_free_dentry_run` from `i` on, with the run of free entries before `i`. -/
def freeRunLoop (dirData : List UInt8) (neededLen : Nat) : Nat → Nat → Nat → Nat → Option Nat
  | 0, _, _, _ => none
  | n + 1, i, runStart, runLen =>
    if dirData.length < i + DENTRY_SIZE then none
    else
      let entryType := byteAt dirData i
      if entryType = DENTRY_EOD ∨ entryType &&& 0x80 = 0 then
        let runStart := if runLen = 0 then i else runStart
        let runLen := runLen + DENTRY_SIZE
        if neededLen ≤ runLen then some runStart
        else if entryType = DENTRY_EOD then
          if neededLen ≤ runLen + (dirData.length - (i + DENTRY_SIZE)) then some runStart else none
        else freeRunLoop dirData neededLen n (i + DENTRY_SIZE) runStart runLen
      else freeRunLoop dirData neededLen n (i + DENTRY_SIZE) runStart 0

def findFreeDentryRun (dirData : List UInt8) (neededEntries : Nat) : Option Nat :=
  if neededEntries = 0 then none else freeRunLoop dirData (neededEntries * DENTRY_SIZE) dirData.length 0 0 0

namespace ExfatVol

variable (v : ExfatVol)

def ensureDentryRun (dirFirstCluster : Nat) (dirData : List UInt8) (neededEntries : Nat) :
    ExfatVol × Except Int (Nat × Bool) :=
  match findFreeDentryRun dirData neededEntries with
  | some off => (v, .ok (off, false))
  | none =>
    let eodOff := findEodOffset dirData
    let neededEnd := eodOff + neededEntries * DENTRY_SIZE
    let additionalClusters :=
      if neededEnd ≤ dirData.length then 0
      else (neededEnd - dirData.length + v.bytesPerCluster - 1) / v.bytesPerCluster
    match v.appendClustersToChain dirFirstCluster additionalClusters with
    | (v, .error err) => (v, .error err)
    | (v, .ok ()) => (v, .ok (eodOff, decide (0 < additionalClusters)))

/-- The loop of `write_dentries_to_dir`, with the bytes still to write and the offset of the first of them. A round writes
    at least one byte, so as many rounds as there are bytes are enough. -/
def writeDentriesLoop (v : ExfatVol) (dirFirstCluster : Nat) : Nat → Nat → List UInt8 → ExfatVol × Except Int Unit
  | 0, _, _ => (v, .ok ())
  | n + 1, off, dentries =>
    if dentries.isEmpty then (v, .ok ())
    else
      match v.dirEntryAbsOff dirFirstCluster off with
      | none => (v, .error (-28))
      | some absOff =>
        let chunkLen := min (v.bytesPerCluster - off % v.bytesPerCluster) dentries.length
        if v.dataLen < absOff + chunkLen then (v, .error (-5))
        else
          writeDentriesLoop { v with data := v.data.write absOff (dentries.take chunkLen) } dirFirstCluster n
            (off + chunkLen) (dentries.drop chunkLen)

def writeDentriesToDir (dirFirstCluster dirRelativeOff : Nat) (dentries : List UInt8) : ExfatVol × Except Int Unit :=
  v.writeDentriesLoop dirFirstCluster dentries.length dirRelativeOff dentries

def readDentrySetBytes (dirFirstCluster primaryOff entryCount : Nat) : Option (List UInt8) :=
  (List.range' primaryOff (entryCount * DENTRY_SIZE)).mapM fun rel =>
    ((v.dirEntryAbsOff dirFirstCluster rel).filter (· < v.dataLen)).map v.data

def recomputeEntryChecksum (dirFirstCluster primaryOff entryCount : Nat) : ExfatVol :=
  match v.readDentrySetBytes dirFirstCluster primaryOff entryCount with
  | none => v
  | some bytes =>
    let checksum := (entrySetChecksum bytes).toNat
    (v.modifyDirByte dirFirstCluster (primaryOff + 2) fun _ => UInt8.ofNat checksum).modifyDirByte dirFirstCluster
      (primaryOff + 3) fun _ => UInt8.ofNat (checksum / 256)

def updateStreamLengths (entry : DirEntry) (validDataLen dataLen : Nat) : ExfatVol :=
  if entry.parentCluster < 2 ∨ entry.secondaryCount = 0 then v
  else
    match v.dirEntryAbsOff entry.parentCluster (entry.primaryOff + DENTRY_SIZE) with
    | none => v
    | some streamAbs =>
      if v.dataLen < streamAbs + DENTRY_SIZE ∨ v.data streamAbs ≠ DENTRY_STREAM_EXT then v
      else
        recomputeEntryChecksum
          { v with data := (v.data.store (streamAbs + 8) 8 validDataLen).store (streamAbs + 24) 8 dataLen }
          entry.parentCluster entry.primaryOff (1 + entry.secondaryCount)

def updateDirSizeAfterExpansion (dirEntry : DirEntry) : ExfatVol :=
  if dirEntry.parentCluster < 2 then v
  else
    let size := (v.clusterChain dirEntry.firstCluster).length * v.bytesPerCluster
    v.updateStreamLengths dirEntry size size

/-- The first bytes of the entries of `old` marked deleted in a copy of its directory. -/
def searchable (dirData : List UInt8) (old : DirEntry) : List UInt8 :=
  (List.range (1 + old.secondaryCount)).foldl (fun data idx => data.modify (old.primaryOff + idx * DENTRY_SIZE) (· &&& 0x7F))
    dirData

def chooseDentryOffset (parentCluster : Nat) (parentDirData : List UInt8) (existing : Option DirEntry)
    (newEntryCount : Nat) : ExfatVol × Except Int (Nat × Bool) :=
  match existing with
  | some old =>
    if newEntryCount * DENTRY_SIZE ≤ (1 + old.secondaryCount) * DENTRY_SIZE then (v, .ok (old.primaryOff, false))
    else v.ensureDentryRun parentCluster (searchable parentDirData old) newEntryCount
  | none => v.ensureDentryRun parentCluster parentDirData newEntryCount

/-- What happens to the entries and the data of a file after its new entries are written at `dentryOff`. -/
def retireOld (parentCluster dentryOff newEntryCount : Nat) (old : DirEntry) (oldDataFirstCluster : Option Nat) : ExfatVol :=
  let oldEntryCount := 1 + old.secondaryCount
  let v :=
    if dentryOff = old.primaryOff then
      if newEntryCount < oldEntryCount then
        v.markDentryRangeDeleted parentCluster (old.primaryOff + newEntryCount * DENTRY_SIZE) (oldEntryCount - newEntryCount)
      else v
    else v.markDentryRangeDeleted parentCluster old.primaryOff oldEntryCount
  match oldDataFirstCluster with
  | none => v
  | some oldFirstCluster => if 2 ≤ oldFirstCluster then v.freeChain oldFirstCluster else v

def insertOrReplaceDentries (parentEntry : DirEntry) (name : List Char) (dentries : List UInt8)
    (oldDataFirstCluster : Option Nat) : ExfatVol × Except Int Unit :=
  let parentCluster := parentEntry.firstCluster
  let parentDirData := v.readChain parentCluster
  let existing := v.findEntryByName (parseDirEntries parentDirData parentCluster) name
  if existing.any (·.isDir) && oldDataFirstCluster.isSome then (v, .error (-21))
  else
    let newEntryCount := dentries.length / DENTRY_SIZE
    match v.chooseDentryOffset parentCluster parentDirData existing newEntryCount with
    | (v, .error err) => (v, .error err)
    | (v, .ok (dentryOff, expanded)) =>
      match v.writeDentriesToDir parentCluster dentryOff dentries with
      | (v, .error err) => (v, .error err)
      | (v, .ok ()) =>
        let v := match existing with
          | none => v
          | some old => v.retireOld parentCluster dentryOff newEntryCount old oldDataFirstCluster
        (if expanded then v.updateDirSizeAfterExpansion parentEntry else v, .ok ())

def readFile (path : List Char) : Except Int (List UInt8) :=
  match v.resolvePath path with
  | none => .error (-2)
  | some entry => if entry.isDir then .error (-21) else .ok ((v.readChain entry.firstCluster).take entry.size)

/-- The loop that fills the clusters of a chain with the contents from `written` on. -/
def fillClusters (v : ExfatVol) (contents : List UInt8) : List Nat → Nat → ExfatVol
  | [], _ => v
  | cluster :: chain, written =>
    let chunkSize := min v.bytesPerCluster (contents.length - written)
    match v.clusterOffset cluster with
    | none => fillClusters v contents chain written
    | some off =>
      fillClusters { v with data := v.data.write off ((contents.drop written).take chunkSize) } contents chain
        (written + chunkSize)

def writeFile (path : List Char) (contents : List UInt8) : ExfatVol × Except Int Unit :=
  let (parent, name) := splitParentName path
  match utf16NameUnits name with
  | .error err => (v, .error err)
  | .ok _ =>
    match v.resolveParentDir parent with
    | none => (v, .error (-2))
    | some parentEntry =>
      let existing := v.findEntryByName (v.entries parentEntry.firstCluster) name
      if existing.any (·.isDir) then (v, .error (-21))
      else
        let neededClusters :=
          if contents.isEmpty then 0 else (contents.length + v.bytesPerCluster - 1) / v.bytesPerCluster
        match v.allocClusters [] neededClusters with
        | (v, .error err) => (v, .error err)
        | (v, .ok chain) =>
          let v := (v.linkClusters chain).fillClusters contents chain 0
          match v.buildFileDentries name (chain.headD 0) contents.length with
          | .error err => (v, .error err)
          | .ok dentries =>
            let oldFirstCluster := (existing.map (·.firstCluster)).filter (2 ≤ ·)
            match v.insertOrReplaceDentries parentEntry name dentries oldFirstCluster with
            | (v, .error err) => (v.freeAllocatedClusters chain, .error err)
            | (v, .ok ()) => (v, .ok ())

def createDir (path : List Char) : ExfatVol × Except Int Unit :=
  let (parent, name) := splitParentName path
  match utf16NameUnits name with
  | .error err => (v, .error err)
  | .ok _ =>
    match v.resolveParentDir parent with
    | none => (v, .error (-2))
    | some parentEntry =>
      if (v.findEntryByName (v.entries parentEntry.firstCluster) name).isSome then (v, .error (-17))
      else
        match v.allocCluster with
        | (v, none) => (v, .error (-28))
        | (v, some dirCluster) =>
          let v := (v.setFatEntry dirCluster FAT_EOC).zeroCluster dirCluster
          match v.buildDirDentries name dirCluster v.bytesPerCluster with
          | .error err => (v, .error err)
          | .ok dentries =>
            match v.insertOrReplaceDentries parentEntry name dentries none with
            | (v, .error err) => (v.freeChain dirCluster, .error err)
            | (v, .ok ()) => (v, .ok ())

def readDir (path : List Char) : Except Int (List (List Char × Bool)) :=
  match v.resolvePath path with
  | none => .error (-2)
  | some entry =>
    if !entry.isDir then .error (-20) else .ok ((v.entries entry.firstCluster).map fun e => (e.name, e.isDir))

end ExfatVol

end Moxide.Exfat

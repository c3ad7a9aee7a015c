import Moxide.Lib.Bytes
import Moxide.User

/-! `getdents64` (`fs/getdents.rs`). The other file systems and the process table are asked through `Env`; names are bytes,
    paths are characters. -/

namespace Moxide.Getdents
open Lib.LittleEndian
open User (Mem validateUserPtr copyFromUser copyToUser)

def DT_DIR : UInt8 := 4
def DT_REG : UInt8 := 8
def DT_LNK : UInt8 := 10
def MAX_NAME_LEN : Nat := 255
def INIT_NS : UInt64 := 0xF000000000000000

structure Dent where
  ino : UInt64
  name : List UInt8
  dtype : UInt8
  deriving DecidableEq, Repr

/-- An entry of `vfs_ops::readdir`. -/
structure DirEntry where
  ino : UInt64
  name : List UInt8
  isDir : Bool

structure Env where
  fdToPath : Nat → Option (List Char)
  nsIdOf : Nat → String → Option UInt64
  /-- `is_dir` of `vfs_ops::stat` -/
  statIsDir : List Char → Option Bool
  readdir : List Char → Option (List DirEntry)

def parseUsize (cs : List Char) : Option Nat :=
  let digits := match cs with
    | '+' :: rest => rest
    | _ => cs
  if digits ≠ [] ∧ digits.all Char.isDigit then
    let n := digits.foldl (fun n c => 10 * n + (c.toNat - '0'.toNat)) 0
    if n < 2 ^ 64 then some n else none
  else none

def stripProcPid (path : List Char) : Option (Nat × List Char) :=
  if "/proc/".toList.isPrefixOf path then
    let rest := path.drop 6
    (parseUsize (rest.takeWhile (· ≠ '/'))).map fun pid => (pid, rest.dropWhile (· ≠ '/'))
  else none

def NS_NAMES : List String := ["mnt", "pid", "net", "uts", "ipc", "user", "time"]

def PROC_PID_NAMES : List String := ["ns", "fd", "exe", "maps", "stat", "status", "limits", "cmdline"]

def bytesOf (s : String) : List UInt8 := s.toUTF8.toList

namespace Env

/-- The part of `gather_entries` for other file systems. -/
def listDir (env : Env) (path : List Char) : List Dent :=
  if env.statIsDir path = some true then
    ((env.readdir path).getD []).map fun e => ⟨e.ino, e.name, if e.isDir then DT_DIR else DT_REG⟩
  else []

/-- The entries of `/proc/<pid>/ns`, of `/proc/<pid>`, or of a directory. -/
def gatherEntries (env : Env) (path : List Char) : List Dent :=
  match stripProcPid path with
  | some (pid, rest) =>
    if rest = "/ns".toList ∨ rest = "/ns/".toList then
      NS_NAMES.map fun name => ⟨(env.nsIdOf pid name).getD INIT_NS, bytesOf name, DT_LNK⟩
    else if rest = [] then
      PROC_PID_NAMES.map fun name => ⟨0, bytesOf name, if name = "ns" ∨ name = "fd" then DT_DIR else DT_LNK⟩
    else env.listDir path
  | none => env.listDir path

end Env

/-- The header, the name and its NUL, up to a multiple of 8. -/
def reclen (e : Dent) : Nat := (19 + e.name.length + 1 + 7) / 8 * 8

/-- A `linux_dirent64`. -/
def record (e : Dent) (off : Nat) : List UInt8 :=
  toBytes 8 e.ino.toNat ++ toBytes 8 off ++ toBytes 2 (reclen e) ++ [e.dtype] ++ e.name ++
    List.replicate (reclen e - 19 - e.name.length) 0

/-- The loop over the entries, with the memory and `written`. -/
def writeDents (dirp count : Nat) : Mem → Nat → List Dent → Mem × Int
  | m, written, [] => (m, written)
  | m, written, e :: es =>
    if MAX_NAME_LEN < e.name.length then writeDents dirp count m written es
    else if count < written + reclen e then (m, written)
    else match copyToUser m (dirp + written) (record e (written + reclen e)) with
      | none => (m, -14)
      | some m => writeDents dirp count m (written + reclen e) es

def Env.entries (env : Env) (fdno : Nat) : List Dent := env.gatherEntries ((env.fdToPath fdno).getD ['/'])

def Env.sysGetdents64 (env : Env) (m : Mem) (fdno dirp count : Nat) : Mem × Int :=
  if dirp = 0 ∨ count < 24 then (m, -22)
  else if !validateUserPtr dirp count then (m, -14)
  else
    let entries := env.entries fdno
    if entries = [] then (m, 0) else writeDents dirp count m 0 entries

def parseDents : Nat → List UInt8 → Option (List Dent)
  | _, [] => some []
  | 0, _ :: _ => none
  | fuel + 1, b :: bs =>
    let bytes := b :: bs
    let len := ofBytes ((bytes.drop 16).take 2)
    if len < 20 ∨ bytes.length < len then none
    else (parseDents fuel (bytes.drop len)).map fun ds =>
      ⟨UInt64.ofNat (ofBytes (bytes.take 8)), ((bytes.take len).drop 19).takeWhile (· ≠ 0), bytes.getD 18 0⟩ :: ds

def records (m : Mem) (dirp : Nat) (ret : Int) : Option (List Dent) :=
  if ret < 0 then none else (copyFromUser m dirp ret.toNat).bind fun bytes => parseDents bytes.length bytes

/-- The records of one call after another, each with its buffer. -/
def Env.enumerate (env : Env) (fdno : Nat) : Mem → List (Nat × Nat) → List (Option (List Dent))
  | _, [] => []
  | m, (dirp, count) :: calls =>
    let r := env.sysGetdents64 m fdno dirp count
    records r.1 dirp r.2 :: env.enumerate fdno r.1 calls

end Moxide.Getdents

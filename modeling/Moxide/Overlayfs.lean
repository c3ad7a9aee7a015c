import Moxide.Lib.Keeps

/-! The overlay filesystem (`fs/overlayfs.rs`). Its operations are programs over the calls of a virtual filesystem, which
    is any that keeps to the node a call names. -/

namespace Moxide.Overlayfs
open Lib

abbrev Str := List Char

/-- A program of the kernel: a state that stays as it is at an error. -/
abbrev Prog (σ α : Type) := EStateM Int σ α

def ENOENT : Int := -2

def WH_PREFIX : Str := ".wh.".toList
def SYMLINK_SUFFIX : Str := ".ovl_symlink".toList

/-! ### Paths -/

def split : Str → List Str
  | [] => [[]]
  | c :: cs =>
    if c = '/' then [] :: split cs
    else
      match split cs with
      | [] => [[c]]
      | w :: ws => (c :: w) :: ws

def enter (dir : List Str) (part : Str) : List Str :=
  if part = [] ∨ part = ['.'] then dir else if part = ['.', '.'] then dir.dropLast else dir ++ [part]

def resolve (path : Str) : List Str := (split path).foldl enter []

def trimEnd (path : Str) : Str := path.rdropWhile (· = '/')

def trimStart (path : Str) : Str := path.dropWhile (· = '/')

def join (base rel : Str) : Str :=
  let base := trimEnd base
  let rel := trimStart rel
  if rel = [] then base else base ++ '/' :: rel

def splitLast (path : Str) : Str × Str :=
  let p := trimEnd path
  let dir := p.rdropWhile (· ≠ '/')
  (if dir.dropLast = [] then ['/'] else dir.dropLast, p.rtakeWhile (· ≠ '/'))

/-! ### The virtual filesystem -/

structure KStat where
  ino : Nat
  mode : Nat
  size : Nat
  isDir : Bool

structure DirEntry where
  name : Str
  ino : Nat
  isDir : Bool
  mode : Nat
  size : Nat

/-- The calls of `vfs_ops`. What a state has at a node is of any type `ν`, and a call changes at most the node it names. -/
structure Vfs (σ ν : Type) where
  node : σ → List Str → ν
  stat : σ → Str → Except Int KStat
  readAll : σ → Str → Except Int (List UInt8)
  readdir : σ → Str → Except Int (List Str)
  readlink : σ → Str → Except Int Str
  writeAll : Str → List UInt8 → Prog σ Unit
  create : Str → Prog σ Unit
  mkdir : Str → Prog σ Unit
  unlink : Str → Prog σ Unit
  truncate : Str → Nat → Prog σ Unit
  chmod : Str → Nat → Prog σ Unit
  chown : Str → Nat → Nat → Prog σ Unit
  framed : ∀ p q s, q ≠ resolve p → (∀ data, node (stateAfter (writeAll p data) s) q = node s q) ∧
    node (stateAfter (create p) s) q = node s q ∧ node (stateAfter (mkdir p) s) q = node s q ∧
    node (stateAfter (unlink p) s) q = node s q ∧ (∀ len, node (stateAfter (truncate p len) s) q = node s q) ∧
    (∀ mode, node (stateAfter (chmod p mode) s) q = node s q) ∧
    ∀ uid gid, node (stateAfter (chown p uid gid) s) q = node s q

structure OverlayMount where
  lower : Str
  upper : Str
  work : Str

namespace OverlayMount
variable (om : OverlayMount)

def upperPath (rel : Str) : Str := join om.upper rel

def lowerPath (rel : Str) : Str := join om.lower rel

def whiteoutPath (rel : Str) : Str :=
  let (dir, base) := splitLast rel
  join om.upper (join dir (WH_PREFIX ++ base))

def workPath (rel : Str) : Str := join om.work rel

def symlinkSidecarPath (rel : Str) : Str := om.upperPath rel ++ SYMLINK_SUFFIX

end OverlayMount

/-! ### Operations -/

section
variable {σ ν : Type} (v : Vfs σ ν) (om : OverlayMount)

def statOf (s : σ) (path : Str) : Option KStat := (v.stat s path).toOption

def pathExists (path : Str) : Prog σ Bool := ask fun s => .ok (statOf v s path).isSome

def pathIsDir (path : Str) : Prog σ Bool := ask fun s => .ok (((statOf v s path).map (·.isDir)).getD false)

def onlyIf (test : Prog σ Bool) (m : Prog σ Unit) : Prog σ Unit := do if ← test then m else pure ()

/-- `let _ = ..`: an error is dropped. -/
def ignore (m : Prog σ Unit) : Prog σ Unit := tryCatch m fun _ => pure ()

def lookup (rel : Str) : Prog σ Str := do
  if ← pathExists v (om.whiteoutPath rel) then throw ENOENT
  else if ← pathExists v (om.upperPath rel) then pure (om.upperPath rel)
  else if ← pathExists v (om.lowerPath rel) then pure (om.lowerPath rel)
  else throw ENOENT

/-- `ensure_upper_dir`, by the number of parents; a path has at most as many as it has characters. -/
def ensureUpperDirFrom : Nat → Str → Prog σ Unit
  | 0, _ => pure ()
  | n + 1, dir => do
    if dir = ['/'] ∨ dir = [] then pure ()
    else if ← pathIsDir v (om.upperPath dir) then pure ()
    else
      ensureUpperDirFrom n (splitLast dir).1
      v.mkdir (om.upperPath dir)

def ensureUpperDir (dir : Str) : Prog σ Unit := ensureUpperDirFrom v om (dir.length + 2) dir

def copyUp (rel lowerPath upperPath : Str) : Prog σ Unit := do
  let (dir, base) := splitLast rel
  ensureUpperDir v om dir
  let data ← ask (v.readAll · lowerPath)
  v.writeAll (om.workPath base) data
  v.writeAll upperPath data
  ignore (v.unlink (om.workPath base))

def openWrite (rel : Str) : Prog σ Str := do
  if ← pathExists v (om.upperPath rel) then pure (om.upperPath rel)
  else if ← pathExists v (om.lowerPath rel) then
    copyUp v om rel (om.lowerPath rel) (om.upperPath rel)
    pure (om.upperPath rel)
  else throw ENOENT

def clearWhiteout (rel : Str) : Prog σ Unit :=
  onlyIf (pathExists v (om.whiteoutPath rel)) (ignore (v.unlink (om.whiteoutPath rel)))

def create (rel : Str) : Prog σ Str := do
  clearWhiteout v om rel
  v.create (om.upperPath rel)
  pure (om.upperPath rel)

def read (rel : Str) : Prog σ (List UInt8) := do
  let path ← lookup v om rel
  ask (v.readAll · path)

def write (rel : Str) (data : List UInt8) : Prog σ Unit := do
  let path ← tryCatch (openWrite v om rel) fun _ => create v om rel
  v.writeAll path data

def truncate (rel : Str) (len : Nat) : Prog σ Unit := do
  let path ← openWrite v om rel
  v.truncate path len

def stat (rel : Str) : Prog σ KStat := do
  let path ← lookup v om rel
  ask (v.stat · path)

def unlink (rel : Str) : Prog σ Unit := do
  onlyIf (pathExists v (om.upperPath rel)) (v.unlink (om.upperPath rel))
  if ← pathExists v (om.lowerPath rel) then v.create (om.whiteoutPath rel)
  else if ← pathExists v (om.upperPath rel) then pure ()
  else throw ENOENT

def mkdir (rel : Str) : Prog σ Unit := do
  if ← pathExists v (om.upperPath rel) then throw (-17) else v.mkdir (om.upperPath rel)

def namesIn (path : Str) : Prog σ (List Str) := do
  if ← pathIsDir v path then ask (v.readdir · path) else pure []

def entriesOf (rel : Str) : List Str → Prog σ (List DirEntry)
  | [] => pure []
  | name :: names => do
    let entry ← tryCatch
      (do let ks ← stat v om (join rel name); pure [⟨name, ks.ino, ks.isDir, ks.mode, ks.size⟩]) fun _ => pure []
    let entries ← entriesOf rel names
    pure (entry ++ entries)

def readdir (rel : Str) : Prog σ (List DirEntry) := do
  let up ← namesIn v (om.upperPath rel)
  let lo ← namesIn v (om.lowerPath rel)
  let whiteouts := (up.filter (WH_PREFIX.isPrefixOf ·)).map (·.drop WH_PREFIX.length)
  let names := up.filter fun name => !WH_PREFIX.isPrefixOf name && !SYMLINK_SUFFIX.isSuffixOf name
  entriesOf v om rel (lo.foldl (fun names name => if name ∈ whiteouts ∨ name ∈ names then names else names ++ [name]) names)

def rmdir (rel : Str) : Prog σ Unit := do
  let entries ← readdir v om rel
  if entries.any fun e => e.name ≠ ['.'] && e.name ≠ ['.', '.'] then throw (-39)
  else
    onlyIf (pathIsDir v (om.upperPath rel)) (v.unlink (om.upperPath rel))
    onlyIf (pathIsDir v (om.lowerPath rel)) (v.create (om.whiteoutPath rel))

def link (oldRel newRel : Str) : Prog σ Unit := do
  let buf ← read v om oldRel
  write v om newRel buf

def rename (oldRel newRel : Str) : Prog σ Unit := do
  link v om oldRel newRel
  unlink v om oldRel

def symlink (target : List UInt8) (linkRel : Str) : Prog σ Unit := do
  clearWhiteout v om linkRel
  ensureUpperDir v om (splitLast linkRel).1
  v.writeAll (om.symlinkSidecarPath linkRel) target

/-- The bytes of a target, as the sidecar has them, or the answer of the lower layer. -/
def readlink (rel : Str) : Prog σ (List UInt8 ⊕ Str) := do
  if ← pathExists v (om.symlinkSidecarPath rel) then
    let bs ← ask (v.readAll · (om.symlinkSidecarPath rel))
    if ByteArray.validateUTF8 ⟨bs.toArray⟩ then pure (.inl bs) else throw (-5)
  else
    let target ← ask (v.readlink · (om.lowerPath rel))
    pure (.inr target)

def chmod (rel : Str) (mode : Nat) : Prog σ Unit := do
  if ← pathExists v (om.upperPath rel) then v.chmod (om.upperPath rel) mode else throw ENOENT

def chown (rel : Str) (uid gid : Nat) : Prog σ Unit := do
  if ← pathExists v (om.upperPath rel) then v.chown (om.upperPath rel) uid gid else throw ENOENT

def copyUpIfNeeded (rel : Str) : Prog σ Unit := do
  let _ ← openWrite v om rel
  pure ()

end

end Moxide.Overlayfs

import Mathlib

/-! Changes of credentials (`proc/creds.rs`). The ids of the user and those of the group follow the same rules. -/

namespace Moxide.Creds
open Function (update)

def NEG1 : UInt32 := 0xFFFFFFFF

/-- `uid`, `euid` and `suid`, or `gid`, `egid` and `sgid`. -/
structure Ids where
  real : UInt32
  effective : UInt32
  saved : UInt32

namespace Ids

def all (p : Ids) : List UInt32 := [p.real, p.effective, p.saved]

def set (privileged : Bool) (id : UInt32) (p : Ids) : Option Ids :=
  if privileged then some ⟨id, id, id⟩
  else if id ≠ p.real ∧ id ≠ p.saved then none
  else some { p with effective := id }

def setre (privileged : Bool) (r e : UInt32) (p : Ids) : Option Ids :=
  let newR := if r = NEG1 then p.real else r
  let newE := if e = NEG1 then p.effective else e
  if !privileged ∧ (newR ∉ p.all ∨ newE ∉ p.all) then none
  else some ⟨newR, newE, if r ≠ NEG1 ∨ e ≠ NEG1 ∧ newE ≠ p.real then newE else p.saved⟩

def setres (privileged : Bool) (r e s : UInt32) (p : Ids) : Option Ids :=
  let newR := if r = NEG1 then p.real else r
  let newE := if e = NEG1 then p.effective else e
  let newS := if s = NEG1 then p.saved else s
  if !privileged ∧ (newR ∉ p.all ∨ newE ∉ p.all ∨ newS ∉ p.all) then none else some ⟨newR, newE, newS⟩

end Ids

inductive Kind where
  | user
  | group
  deriving DecidableEq

structure Pcb where
  ids : Kind → Ids
  suppGroups : List UInt32

def Pcb.privileged (p : Pcb) : Bool := (p.ids .user).effective = 0

def Pcb.change (p : Pcb) (k : Kind) (f : Bool → Ids → Option Ids) : Pcb × Int :=
  match f p.privileged (p.ids k) with
  | none => (p, -1)
  | some ids => ({ p with ids := update p.ids k ids }, 0)

inductive Call where
  | sysSetuid (uid : UInt32)
  | sysSetgid (gid : UInt32)
  | sysSetreuid (ruid euid : UInt32)
  | sysSetregid (rgid egid : UInt32)
  | sysSetresuid (ruid euid suid : UInt32)
  | sysSetresgid (rgid egid sgid : UInt32)
  /-- `list i` is the word at `list_va + i * 4`, if it can be read. -/
  | sysSetgroups (size : Int) (list : Nat → Option UInt32)

def Pcb.call (p : Pcb) : Call → Pcb × Int
  | .sysSetuid uid => p.change .user (Ids.set · uid)
  | .sysSetgid gid => p.change .group (Ids.set · gid)
  | .sysSetreuid ruid euid => p.change .user (Ids.setre · ruid euid)
  | .sysSetregid rgid egid => p.change .group (Ids.setre · rgid egid)
  | .sysSetresuid ruid euid suid => p.change .user (Ids.setres · ruid euid suid)
  | .sysSetresgid rgid egid sgid => p.change .group (Ids.setres · rgid egid sgid)
  | .sysSetgroups size list =>
    if size < 0 ∨ 65536 < size then (p, -22)
    else if !p.privileged then (p, -1)
    else
      match (List.range size.toNat).mapM list with
      | none => (p, -14)
      | some groups => ({ p with suppGroups := groups }, 0)

def Pcb.calls (p : Pcb) (cs : List Call) : Pcb := cs.foldl (fun p c => (p.call c).1) p

end Moxide.Creds

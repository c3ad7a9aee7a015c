import Mathlib

/-! The memory of the process that makes a system call (`kernel/uaccess.rs`). A copy that meets an address that is not mapped
    fails as a whole; what it has copied before that is left out. -/

namespace Moxide.User

def USER_SPACE_END : Nat := 0x800000000000

abbrev Mem := Nat → Option UInt8

def userAccessOk (addr len : Nat) : Bool := addr + len ≤ USER_SPACE_END

def validateUserPtr (addr len : Nat) : Bool := addr ≠ 0 && userAccessOk addr len

def copyFromUser (m : Mem) (src len : Nat) : Option (List UInt8) :=
  if len = 0 then some []
  else if validateUserPtr src len then (List.range len).mapM fun i => m (src + i)
  else none

def overlay (m : Mem) (dst : Nat) (bytes : List UInt8) : Mem := fun a => if dst ≤ a then (bytes[a - dst]?).or (m a) else m a

def copyToUser (m : Mem) (dst : Nat) (bytes : List UInt8) : Option Mem :=
  if bytes.length = 0 then some m
  else if validateUserPtr dst bytes.length && (List.range bytes.length).all fun i => (m (dst + i)).isSome then
    some (overlay m dst bytes)
  else none

end Moxide.User

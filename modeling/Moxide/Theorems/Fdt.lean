import Moxide.Fdt

/-! Which regions the walk gives to the allocator. A tree is a stream of tokens in which nodes begin and end in pairs; the
    walk takes the `reg` of a memory node and of every node in it. -/

namespace Moxide.Fdt
open List Option

inductive Body : List Token → Prop
  | nil : Body []
  | prop {toks name data} : Body toks → Body (.prop name data :: toks)
  | nop {toks} : Body toks → Body (.nop :: toks)
  | node {toks body name} : Body body → Body toks → Body (.beginNode name :: (body ++ .endNode :: toks))

inductive Children : List Token → List (Bytes × List Token) → Prop
  | nil : Children [] []
  | prop {toks nodes name data} : Children toks nodes → Children (.prop name data :: toks) nodes
  | nop {toks nodes} : Children toks nodes → Children (.nop :: toks) nodes
  | node {toks nodes body name} : Body body → Children toks nodes →
      Children (.beginNode name :: (body ++ .endNode :: toks)) ((name, body) :: nodes)

def WellFormed (fdtPtr : Nat) (mem : Bytes) (total : Nat) (nodes : List (Bytes × List Token)) : Prop :=
  ∃ structs strings root content, openFdt fdtPtr mem = some (total, structs, strings) ∧
    tokensFrom structs strings structs.length 0 = .beginNode root :: (content ++ [.endNode]) ∧ Children content nodes

def Token.entries : Token → List (Nat × Nat)
  | .prop name data => if name = str "reg" then regEntries data else []
  | _ => []

variable {l : Layout} {body : List Token} {nodes : List (Bytes × List Token)} {fdtPtr a : Nat} {b : Nat × Nat}

def Walk.mem (w : Walk) : Nat × Bool × List (Nat × Nat) := (w.depth, w.inMemory, w.regions)

def In (a : Nat) (r : Nat × Nat) : Prop := r.1 ≤ a ∧ a < r.1 + r.2

def Apart (r s : Nat × Nat) : Prop := ∀ a, In a r → ¬ In a s

/-- The entry does not reach beyond the pages of the blob, and all of it that the kernel leaves is in them. -/
def Layout.Covers (l : Layout) (b : Nat × Nat) : Prop :=
  b.2 ≠ 0 → (b.1 + b.2) % 2 ^ 64 ≤ l.fdtEnd ∧ (l.freeStart b.1 < (b.1 + b.2) % 2 ^ 64 → l.fdtStart ≤ l.freeStart b.1)

/-- The address is above the pages of the kernel and outside of those of the blob. -/
def Layout.Free (l : Layout) (a : Nat) : Prop := l.kernelEndPa ≤ a ∧ ¬ (l.fdtStart ≤ a ∧ a < l.fdtEnd)

end Moxide.Fdt

import CurveArith.Logged
import CurveArith.Words

/-!
Multiples of a group element along the binary chain of the multiplier: by doubling and adding, one
bit after the other from the highest set bit down. Powers follow the same chain. What a group offers
is a record of operations, which may report what they do.
-/
namespace CurveArith

inductive ChainStep where
  | double | add
  deriving DecidableEq

namespace Chain

/-- The bits of a number, from the top bit of the highest word down. -/
def bitsDown (ws : List UInt64) : List Bool :=
  ws.reverse.flatMap fun w => (List.range 64).reverse.map (Word.bit w)

/-- The steps for the bits below the highest set bit. -/
def stepsBelow (bits : List Bool) : List ChainStep :=
  bits.flatMap fun b => if b then [.double, .add] else [.double]

/-- Zero needs no step, and the highest set bit needs one addition. -/
def steps (ws : List UInt64) : List ChainStep :=
  match (bitsDown ws).dropWhile (!·) with
  | [] => []
  | _ :: bits => .add :: stepsBelow bits

end Chain

structure GroupOps (m : Type → Type) (α : Type) where
  identity : α
  isIdentity : α → Bool
  double : α → m α
  add : α → α → m α

namespace GroupOps

variable {m : Type → Type} {α : Type}

def step (G : GroupOps m α) (base acc : α) : ChainStep → m α
  | .double => G.double acc
  | .add => G.add acc base

/-- The multiple of `base` by the number that the words write, least significant word first. The
identity needs no operation. -/
def multiple [Monad m] (G : GroupOps m α) (base : α) (k : List UInt64) : m α :=
  if G.isIdentity base then pure G.identity
  else (Chain.steps k).foldlM (G.step base) G.identity

/-- The group that an addition and a zero give. -/
def additive (α : Type) [Add α] [Zero α] [DecidableEq α] : GroupOps Id α where
  identity := 0
  isIdentity x := x = 0
  double x := x + x
  add x y := x + y

/-- The same group, reporting each operation. -/
def reporting (G : GroupOps Id α) : GroupOps (Logged ChainStep) α where
  identity := G.identity
  isIdentity := G.isIdentity
  double x := ⟨G.double x, [.double]⟩
  add x y := ⟨G.add x y, [.add]⟩

end GroupOps

end CurveArith

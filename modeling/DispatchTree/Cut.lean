/-! Cutting a column of values in two.
A column can be cut behind each of its distinct values but the largest.  The score of a cut depends
only on how many entries lie at or below the threshold, and the search keeps the first cut of the
highest score.  It takes the scale as a parameter, since all it ever does with scores is compare
them. -/
namespace DispatchTree

/-- A scale of scores for cutting a list of names in two. -/
structure Evenness (α : Type) where
  /-- The score of a list that is not cut. -/
  zero : α
  /-- The score of a cut with so many names on the left, out of so many in all. -/
  score : Nat → Nat → α
  lt : α → α → Bool
  le : α → α → Bool

namespace Evenness

def shareEntropy (share : Float) : Float := -share * share.log

/-- Binary entropy in natural units; largest where the two sides are equal. -/
def entropyOf (left total : Nat) : Float :=
  shareEntropy (Float.ofNat left / Float.ofNat total) +
    shareEntropy (Float.ofNat (total - left) / Float.ofNat total)

def entropy : Evenness Float where
  zero := 0
  score := entropyOf
  lt a b := a < b
  le a b := a ≤ b

/-- Scores by the size of the smaller side, which rank the cuts of a list as exact entropy does. -/
def smallerSide : Evenness Nat where
  zero := 0
  score left total := min left (total - left)
  lt a b := a < b
  le a b := a ≤ b

end Evenness

/-- A threshold with the score of cutting there. -/
structure Cut (α : Type) where
  threshold : Nat
  score : α

namespace Cut

/-- The cut puts something on both sides. -/
def divides {α : Type} (scale : Evenness α) (cut : Cut α) : Bool := scale.lt scale.zero cut.score

/-- The places where an ascending column can be cut: each value but the largest, with the number of
entries at or below it. `consumed` entries stand before the column. -/
def boundaries (consumed : Nat) : List Nat → List (Nat × Nat)
  | [] => []
  | [_] => []
  | a :: b :: rest =>
    if a = b then boundaries (consumed + 1) (b :: rest)
    else (a, consumed + 1) :: boundaries (consumed + 1) (b :: rest)

@[simp] theorem boundaries_nil (consumed : Nat) : boundaries consumed [] = [] := rfl
@[simp] theorem boundaries_singleton (consumed a : Nat) : boundaries consumed [a] = [] := rfl

/-- The better of a cut and the one at a boundary; the earlier one where the scores agree. -/
def improve {α : Type} (scale : Evenness α) (total : Nat) (best : Cut α) (boundary : Nat × Nat) :
    Cut α :=
  let score := scale.score boundary.2 total
  if scale.lt best.score score then ⟨boundary.1, score⟩ else best

def ofSorted {α : Type} (scale : Evenness α) (sorted : List Nat) : Cut α :=
  (boundaries 0 sorted).foldl (improve scale sorted.length) ⟨sorted.headD 0, scale.zero⟩

def best {α : Type} (scale : Evenness α) (values : List Nat) : Cut α :=
  ofSorted scale values.mergeSort

end Cut
end DispatchTree

import DispatchTree.Feature
/-! Dispatch trees.
A split sends the names whose probe exceeds its threshold to the right and all others to the left;
a leaf lists names that are compared one after the other. -/
namespace DispatchTree

inductive Tree where
  | leaf (names : List String)
  | split (feature : Feature) (threshold : Nat) (left right : Tree)
  deriving DecidableEq

namespace Tree

def isLeaf : Tree → Bool
  | leaf _ => true
  | split .. => false

/-- Number of leaves and splits together. -/
def size : Tree → Nat
  | leaf _ => 1
  | split _ _ left right => 1 + left.size + right.size

@[simp] theorem size_leaf (names : List String) : (leaf names).size = 1 := rfl
@[simp] theorem size_split (f : Feature) (t : Nat) (l r : Tree) :
    (split f t l r).size = 1 + l.size + r.size := rfl

theorem size_pos (tree : Tree) : 0 < tree.size := by
  cases tree <;> simp only [size_leaf, size_split] <;> omega

def numSplits : Tree → Nat
  | leaf _ => 0
  | split _ _ left right => 1 + left.numSplits + right.numSplits

@[simp] theorem numSplits_leaf (names : List String) : (leaf names).numSplits = 0 := rfl
@[simp] theorem numSplits_split (f : Feature) (t : Nat) (l r : Tree) :
    (split f t l r).numSplits = 1 + l.numSplits + r.numSplits := rfl

/-- Most splits on a way from the root to a leaf. -/
def height : Tree → Nat
  | leaf _ => 0
  | split _ _ left right => 1 + max left.height right.height

@[simp] theorem height_leaf (names : List String) : (leaf names).height = 0 := rfl
@[simp] theorem height_split (f : Feature) (t : Nat) (l r : Tree) :
    (split f t l r).height = 1 + max l.height r.height := rfl

/-- The name lists of the leaves, those of a left subtree first. -/
def leafLists : Tree → List (List String)
  | leaf names => [names]
  | split _ _ left right => left.leafLists ++ right.leafLists

@[simp] theorem leafLists_leaf (names : List String) : (leaf names).leafLists = [names] := rfl
@[simp] theorem leafLists_split (f : Feature) (t : Nat) (l r : Tree) :
    (split f t l r).leafLists = l.leafLists ++ r.leafLists := rfl

theorem length_leafLists (tree : Tree) : tree.leafLists.length = tree.numSplits + 1 := by
  induction tree with
  | leaf names => rfl
  | split f t left right ihl ihr =>
    simp only [leafLists_split, List.length_append, numSplits_split, ihl, ihr]
    omega

def names : Tree → List String
  | leaf names => names
  | split _ _ left right => left.names ++ right.names

@[simp] theorem names_leaf (names : List String) : (leaf names).names = names := rfl
@[simp] theorem names_split (f : Feature) (t : Nat) (l r : Tree) :
    (split f t l r).names = l.names ++ r.names := rfl

theorem flatten_leafLists (tree : Tree) : tree.leafLists.flatten = tree.names := by
  induction tree with
  | leaf names => simp
  | split f t left right ihl ihr => simp [ihl, ihr]

end Tree
end DispatchTree

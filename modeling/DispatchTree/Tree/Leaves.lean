import DispatchTree.Tree.Basic
/-! The leaves of a tree, and its shape in numbers.
A walk over the leaves keeps the subtrees that it still owes and takes one leaf at a time, so that
its use of the call stack does not grow with the depth of the tree. -/
namespace DispatchTree

/-- A walk in progress: the subtrees still to be visited, the next one first. -/
structure LeafWalk where
  pending : List Tree

namespace LeafWalk

/-- Leaves and splits that the walk has not passed. -/
def remaining (walk : LeafWalk) : Nat :=
  walk.pending.foldr (fun tree others => tree.size + others) 0

/-- The next leaf with the walk behind it, none when every leaf has been visited. -/
def next? : LeafWalk → Option (List String × LeafWalk)
  | ⟨[]⟩ => none
  | ⟨.leaf names :: rest⟩ => some (names, ⟨rest⟩)
  | ⟨.split _ _ left right :: rest⟩ => next? ⟨left :: right :: rest⟩
termination_by walk => walk.remaining
decreasing_by simp [remaining]; omega

@[simp] theorem next?_nil : next? ⟨[]⟩ = none := by rw [next?]
@[simp] theorem next?_leaf (names : List String) (rest : List Tree) :
    next? ⟨.leaf names :: rest⟩ = some (names, ⟨rest⟩) := by rw [next?]
@[simp] theorem next?_split (f : Feature) (t : Nat) (left right : Tree) (rest : List Tree) :
    next? ⟨.split f t left right :: rest⟩ = next? ⟨left :: right :: rest⟩ := by rw [next?]

theorem remaining_lt_of_next? {walk after : LeafWalk} {names : List String}
    (h : walk.next? = some (names, after)) : after.remaining < walk.remaining := by
  fun_induction next? walk with
  | case1 => simp at h
  | case2 leaf rest =>
    simp only [Option.some.injEq, Prod.mk.injEq] at h
    simp [remaining, ← h.2]
  | case3 f t left right rest ih =>
    have := ih h
    simp only [remaining, List.foldr_cons, Tree.size_split] at this ⊢
    omega

def toList (walk : LeafWalk) : List (List String) :=
  match h : walk.next? with
  | none => []
  | some (names, after) =>
    have := remaining_lt_of_next? h
    names :: after.toList
termination_by walk.remaining

theorem toList_of_next?_eq_none {walk : LeafWalk} (h : walk.next? = none) : walk.toList = [] := by
  rw [toList]
  split
  · rfl
  · rename_i heq
    rw [h] at heq
    cases heq

theorem toList_of_next?_eq_some {walk after : LeafWalk} {names : List String}
    (h : walk.next? = some (names, after)) : walk.toList = names :: after.toList := by
  rw [toList]
  split
  · rename_i heq
    rw [h] at heq
    cases heq
  · rename_i heq
    rw [h] at heq
    cases heq
    rfl

@[simp] theorem toList_nil : toList ⟨[]⟩ = [] := toList_of_next?_eq_none next?_nil

@[simp] theorem toList_leaf (names : List String) (rest : List Tree) :
    toList ⟨.leaf names :: rest⟩ = names :: toList ⟨rest⟩ :=
  toList_of_next?_eq_some (next?_leaf names rest)

@[simp] theorem toList_split (f : Feature) (t : Nat) (left right : Tree) (rest : List Tree) :
    toList ⟨.split f t left right :: rest⟩ = toList ⟨left :: right :: rest⟩ := by
  have same := next?_split f t left right rest
  cases h : next? ⟨left :: right :: rest⟩ with
  | none => rw [toList_of_next?_eq_none h, toList_of_next?_eq_none (same.trans h)]
  | some found => rw [toList_of_next?_eq_some h, toList_of_next?_eq_some (same.trans h)]

/-- The walk owes the leaves of its pending subtrees, one subtree after the other. -/
theorem toList_eq_flatMap (pending : List Tree) :
    toList ⟨pending⟩ = pending.flatMap Tree.leafLists := by
  have split_first (tree : Tree) (rest : List Tree) :
      toList ⟨tree :: rest⟩ = tree.leafLists ++ toList ⟨rest⟩ := by
    induction tree generalizing rest with
    | leaf names => simp
    | split f t left right ihl ihr => simp [ihl, ihr]
  induction pending with
  | nil => simp
  | cons tree rest ih => rw [split_first, ih, List.flatMap_cons]

end LeafWalk

namespace Tree

def leafWalk (tree : Tree) : LeafWalk := ⟨[tree]⟩

def leaves (tree : Tree) : List (List String) := tree.leafWalk.toList

theorem leaves_eq_leafLists (tree : Tree) : tree.leaves = tree.leafLists := by
  simp [leaves, leafWalk, LeafWalk.toList_eq_flatMap]

def numNames (tree : Tree) : Nat :=
  tree.leaves.foldr (fun names others => names.length + others) 0

theorem numNames_eq_length (tree : Tree) : tree.numNames = tree.names.length := by
  rw [numNames, leaves_eq_leafLists, ← flatten_leafLists]
  induction tree.leafLists with
  | nil => rfl
  | cons names rest ih => rw [List.foldr_cons, ih, List.flatten_cons, List.length_append]

end Tree

structure Shape where
  names : Nat
  leaves : Nat
  splits : Nat
  height : Nat
  largest : Nat
  deriving DecidableEq

namespace Shape

def ofTree (tree : Tree) : Shape where
  names := tree.numNames
  leaves := tree.leaves.length
  splits := tree.numSplits
  height := tree.height
  largest := (tree.leaves.map List.length).foldl max 0

def text (shape : Shape) : String :=
  s!"{shape.names} names, {shape.leaves} leaves, {shape.splits} splits, depth {shape.height}, " ++
    s!"largest leaf {shape.largest}"

end Shape
end DispatchTree

import Mathlib.Algebra.Group.Action.Defs
import Mathlib.Algebra.Order.BigOperators.Group.List
import Mathlib.Algebra.Order.Ring.Nat
import Mathlib.Order.Bounds.Basic
import DispatchTree.Proofs.LeafWalks
import DispatchTree.Tree.Leaves
/-! Shapes of trees.
The names, the leaves and the largest leaf of a shape are what a single walk over the leaves counts;
splits and height come from recursions of their own.  On every tree these numbers fit together:
there is one leaf more than splits, the height bounds the number of leaves, and the largest leaf the
number of names. -/
namespace DispatchTree

namespace Tree

theorem height_le_numSplits (tree : Tree) : tree.height ≤ tree.numSplits := by
  induction tree with
  | leaf names => exact Nat.le_refl 0
  | split f t left right ihl ihr =>
    simp only [height_split, numSplits_split]
    omega

theorem length_leafLists_le_two_pow (tree : Tree) : tree.leafLists.length ≤ 2 ^ tree.height := by
  induction tree with
  | leaf names => exact Nat.le_refl 1
  | split f t left right ihl ihr =>
    have hl : 2 ^ left.height ≤ 2 ^ max left.height right.height :=
      Nat.pow_le_pow_right (by decide) (Nat.le_max_left ..)
    have hr : 2 ^ right.height ≤ 2 ^ max left.height right.height :=
      Nat.pow_le_pow_right (by decide) (Nat.le_max_right ..)
    calc (left.leafLists ++ right.leafLists).length
        = left.leafLists.length + right.leafLists.length := List.length_append
      _ ≤ 2 ^ max left.height right.height + 2 ^ max left.height right.height :=
        Nat.add_le_add (ihl.trans hl) (ihr.trans hr)
      _ = 2 ^ (1 + max left.height right.height) := by rw [Nat.pow_add, Nat.pow_one, Nat.two_mul]

theorem numNames_eq_sum (tree : Tree) : tree.numNames = (tree.leafLists.map List.length).sum := by
  rw [numNames_eq_length, ← flatten_leafLists, List.length_flatten]

theorem size_eq_add_numSplits (tree : Tree) :
    tree.size = tree.leafLists.length + tree.numSplits := by
  induction tree with
  | leaf names => rfl
  | split f t left right ihl ihr =>
    simp only [size_split, leafLists_split, List.length_append, numSplits_split, ihl, ihr]
    omega

theorem remaining_leafWalk (tree : Tree) : tree.leafWalk.remaining = tree.size := Nat.add_zero _

theorem toList_leafWalk (tree : Tree) : tree.leafWalk.toList = tree.leafLists :=
  tree.leaves_eq_leafLists

end Tree

namespace Shape

def withLeaf (shape : Shape) (names : List String) : Shape :=
  { shape with
    names := shape.names + names.length
    leaves := shape.leaves + 1
    largest := max shape.largest names.length }

theorem foldl_withLeaf (leaves : List (List String)) (shape : Shape) :
    leaves.foldl withLeaf shape =
      { shape with
        names := shape.names + (leaves.map List.length).sum
        leaves := shape.leaves + leaves.length
        largest := (leaves.map List.length).foldl max shape.largest } := by
  induction leaves generalizing shape with
  | nil => rfl
  | cons names rest ih =>
    rw [List.foldl_cons, ih]
    simp [withLeaf, Nat.add_assoc, Nat.add_comm 1]

/-- A single walk over the leaves counts all but splits and height. -/
theorem ofTree_eq_foldl (tree : Tree) :
    ofTree tree = tree.leaves.foldl withLeaf ⟨0, 0, tree.numSplits, tree.height, 0⟩ := by
  rw [foldl_withLeaf, ofTree, Tree.numNames_eq_sum, Tree.leaves_eq_leafLists]
  simp

theorem max?_lengths (tree : Tree) :
    (tree.leafLists.map List.length).max? = some (ofTree tree).largest := by
  have hpos : 0 < (tree.leafLists.map List.length).length := by
    rw [List.length_map, tree.length_leafLists]
    exact Nat.succ_pos _
  obtain ⟨largest, hmax⟩ := Option.isSome_iff_exists.mp
    (List.isSome_max?_of_ne_nil (List.ne_nil_of_length_pos hpos))
  rw [ofTree, Tree.leaves_eq_leafLists, List.foldl_max, hmax, Option.getD_some, Nat.zero_max]

theorem isGreatest_largest (tree : Tree) :
    IsGreatest {n | ∃ leaf ∈ tree.leafLists, leaf.length = n} (ofTree tree).largest := by
  obtain ⟨hmem, hle⟩ := List.max?_eq_some_iff.mp (max?_lengths tree)
  refine ⟨List.mem_map.mp hmem, ?_⟩
  rintro n ⟨leaf, hleaf, rfl⟩
  exact hle _ (List.mem_map_of_mem hleaf)

theorem length_le_largest {tree : Tree} {leaf : List String} (h : leaf ∈ tree.leaves) :
    leaf.length ≤ (ofTree tree).largest := by
  rw [Tree.leaves_eq_leafLists] at h
  exact (isGreatest_largest tree).2 ⟨leaf, h, rfl⟩

theorem numNames_le_mul_largest (tree : Tree) :
    tree.numNames ≤ tree.leafLists.length * (ofTree tree).largest := by
  have hle : ∀ n ∈ tree.leafLists.map List.length, n ≤ (ofTree tree).largest :=
    (List.max?_eq_some_iff.mp (max?_lengths tree)).2
  have hsum := List.sum_le_card_nsmul _ _ hle
  rwa [← Tree.numNames_eq_sum, List.length_map, smul_eq_mul] at hsum

/-- The calls of a walk give the leaves of a tree from left to right, each one once, and then none:
the first calls make one round for each leaf and split that they pass, and the rounds end when they
have passed them all.  The numbers of the shape are those that the walk counts, and fit together. -/
theorem ofTree_counts_leafWalk (tree : Tree) :
    (∀ n, (tree.leafWalk.drop n).next?.map Prod.fst = tree.leafLists[n]?) ∧
    (∀ n, ∃ m, tree.leafWalk.rounds m = (tree.leafLists.take n, tree.leafWalk.drop n) ∧
      tree.size = (tree.leafWalk.drop n).remaining + m) ∧
    (∀ m, (tree.leafWalk.rounds m).2.pending = [] ↔ tree.size ≤ m) ∧
    tree.size = (ofTree tree).leaves + (ofTree tree).splits ∧
    tree.leaves = tree.leafLists ∧
    ofTree tree = tree.leaves.foldl withLeaf ⟨0, 0, tree.numSplits, tree.height, 0⟩ ∧
    (ofTree tree).names = tree.numNames ∧
    tree.numNames = (tree.leafLists.map List.length).sum ∧
    (ofTree tree).leaves = (ofTree tree).splits + 1 ∧
    (ofTree tree).height ≤ (ofTree tree).splits ∧
    (ofTree tree).leaves ≤ 2 ^ (ofTree tree).height ∧
    IsGreatest {n | ∃ leaf ∈ tree.leafLists, leaf.length = n} (ofTree tree).largest ∧
    (ofTree tree).names ≤ (ofTree tree).leaves * (ofTree tree).largest := by
  have hwalk := tree.toList_leafWalk
  have hsize := tree.remaining_leafWalk
  have hleaves : (ofTree tree).leaves = tree.leafLists.length :=
    congrArg List.length tree.leaves_eq_leafLists
  refine ⟨?_, ?_, ?_, ?_, tree.leaves_eq_leafLists, ofTree_eq_foldl tree, rfl,
    tree.numNames_eq_sum, ?_, tree.height_le_numSplits, ?_, isGreatest_largest tree, ?_⟩
  · intro n
    rw [LeafWalk.next?_drop, hwalk]
  · intro n
    obtain ⟨m, hrounds, hremaining⟩ := LeafWalk.exists_rounds_eq_drop n tree.leafWalk
    rw [hwalk] at hrounds
    rw [hsize] at hremaining
    exact ⟨m, hrounds, hremaining⟩
  · intro m
    rw [LeafWalk.pending_rounds_eq_nil_iff, hsize]
  · rw [hleaves]
    exact tree.size_eq_add_numSplits
  · rw [hleaves]
    exact tree.length_leafLists
  · rw [hleaves]
    exact tree.length_leafLists_le_two_pow
  · rw [hleaves]
    exact numNames_le_mul_largest tree

end Shape
end DispatchTree

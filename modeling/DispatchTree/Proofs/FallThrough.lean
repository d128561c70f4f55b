import DispatchTree.Proofs.Drafts
import DispatchTree.Proofs.Execution
import DispatchTree.Tree.Code
/-! Code without else.
The code of a tree is its fragment, written out: a guard around the right side of a split and the
left side behind it.  A candidate that matches nothing inside a guard falls through to the left
side, and as long as every name of the tree has the outcomes of the tests on the way to its leaf
that makes no difference to routing the candidate to a single leaf. -/
namespace DispatchTree

namespace Draft

/-- Adds a fragment; a block that does nothing but return is put under its condition. -/
def putFragment (d : Draft) : Fragment → Draft
  | .done => d
  | .ret expression rest => (d.put (returnStatement expression)).putFragment rest
  | .block condition (.ret expression .done) rest =>
    (d.putUnder condition.text (returnStatement expression)).putFragment rest
  | .block condition body rest =>
    ((d.enter condition.text).putFragment body).leave.putFragment rest

theorem putFragment_leafFragment (call : String → String) (d : Draft) (names : List String)
    (rest : Fragment) : d.putFragment (Tree.leafFragment call names rest) =
      (d.putNames call names).putFragment rest := by
  induction names generalizing d with
  | nil => rfl
  | cons name names ih => exact ih _

theorem fragmentBefore_done_ne_ret (call : String → String) (tree : Tree) (expression : String) :
    tree.fragmentBefore call .done ≠ .ret expression .done := by
  cases tree with
  | leaf names => cases names <;> simp [Tree.fragmentBefore, Tree.leafFragment]
  | split f t left right => simp [Tree.fragmentBefore]

theorem putFragment_fragmentBefore (call : String → String) (d : Draft) (tree : Tree)
    (rest : Fragment) :
    d.putFragment (tree.fragmentBefore call rest) = (d.putTree call tree).putFragment rest := by
  induction tree generalizing d rest with
  | leaf names => exact putFragment_leafFragment call d names rest
  | split f t left right ihl ihr =>
    rw [Tree.fragmentBefore, putFragment.eq_4 _ _ _ _ fun expression heq =>
      fragmentBefore_done_ne_ret call right expression heq, ihl, ihr]
    rfl

theorem putTree_eq_putFragment (call : String → String) (d : Draft) (tree : Tree) :
    d.putTree call tree = d.putFragment (tree.fragment call) :=
  (putFragment_fragmentBefore call d tree .done).symm

end Draft

/-- The way to a leaf: the tests on it with their outcomes, and the names of the leaf. -/
structure Way where
  tests : List (Condition × Bool)
  names : List String
  deriving DecidableEq

namespace Way

def behind (test : Condition × Bool) (way : Way) : Way := ⟨test :: way.tests, way.names⟩

/-- Every name of the leaf has the outcomes of the tests. -/
def Consistent (way : Way) : Prop :=
  ∀ name ∈ way.names, ∀ test ∈ way.tests, (Candidate.ofName name).satisfies test.1 = test.2

instance (way : Way) : Decidable way.Consistent :=
  inferInstanceAs (Decidable (∀ name ∈ way.names, ∀ test ∈ way.tests,
    (Candidate.ofName name).satisfies test.1 = test.2))

theorem consistent_behind {test : Condition × Bool} {way : Way} :
    (way.behind test).Consistent ↔
      (∀ name ∈ way.names, (Candidate.ofName name).satisfies test.1 = test.2) ∧
        way.Consistent := by
  simp only [Consistent, behind, List.forall_mem_cons, forall_and]

end Way

namespace Tree

def ways : Tree → List Way
  | leaf names => [⟨[], names⟩]
  | split feature threshold left right =>
    left.ways.map (Way.behind (.exceeds feature threshold, false)) ++
      right.ways.map (Way.behind (.exceeds feature threshold, true))

def Consistent (tree : Tree) : Prop := ∀ way ∈ tree.ways, way.Consistent

instance (tree : Tree) : Decidable tree.Consistent :=
  inferInstanceAs (Decidable (∀ way ∈ tree.ways, way.Consistent))

theorem map_names_ways (tree : Tree) : tree.ways.map Way.names = tree.leafLists := by
  induction tree with
  | leaf names => rfl
  | split f t left right ihl ihr =>
    rw [ways, List.map_append, List.map_map, List.map_map, leafLists_split, ← ihl, ← ihr]
    rfl

theorem forall_mem_names_iff {tree : Tree} {p : String → Prop} :
    (∀ name ∈ tree.names, p name) ↔ ∀ way ∈ tree.ways, ∀ name ∈ way.names, p name := by
  rw [← flatten_leafLists, ← map_names_ways]
  constructor
  · intro h way hw name hn
    exact h name (List.mem_flatten.mpr ⟨way.names, List.mem_map_of_mem hw, hn⟩)
  · intro h name hn
    obtain ⟨_, hl, hn⟩ := List.mem_flatten.mp hn
    obtain ⟨way, hw, rfl⟩ := List.mem_map.mp hl
    exact h way hw name hn

theorem forall_behind_consistent_iff {tree : Tree} {test : Condition × Bool} :
    (∀ way ∈ tree.ways.map (Way.behind test), way.Consistent) ↔
      (∀ name ∈ tree.names, (Candidate.ofName name).satisfies test.1 = test.2) ∧
        tree.Consistent := by
  rw [List.forall_mem_map, forall_mem_names_iff, Consistent]
  simp only [Way.consistent_behind, imp_and, forall_and]

theorem consistent_split {f : Feature} {t : Nat} {l r : Tree} :
    (split f t l r).Consistent ↔ (∀ name ∈ l.names, f.value name ≤ t) ∧
      (∀ name ∈ r.names, t < f.value name) ∧ l.Consistent ∧ r.Consistent := by
  rw [Consistent, ways, List.forall_mem_append, forall_behind_consistent_iff,
    forall_behind_consistent_iff]
  simp only [Candidate.satisfies_exceeds, Candidate.lt_value_ofName_iff, decide_eq_false_iff_not,
    decide_eq_true_eq, Nat.not_lt]
  constructor
  · rintro ⟨⟨hbelow, hleft⟩, habove, hright⟩
    exact ⟨hbelow, habove, hleft, hright⟩
  · rintro ⟨hbelow, habove, hleft, hright⟩
    exact ⟨⟨hbelow, hleft⟩, habove, hright⟩

/-- The ways are consistent where each split parts the names below it. -/
theorem ordered_iff_consistent {tree : Tree} : tree.Ordered ↔ tree.Consistent := by
  induction tree with
  | leaf names => simp [Consistent, Way.Consistent, ways]
  | split f t left right ihl ihr => rw [ordered_split, consistent_split, ihl, ihr]

/-- Two tests on the right, an empty leaf, and names that are listed twice. -/
def patchwork : Tree :=
  split .length 3 (split .lastChar 99 (leaf ["ab", "ab"]) (leaf []))
    (split .firstChar 109 (leaf ["json"]) (leaf ["zebra", "zebra"]))

end Tree
end DispatchTree

import DispatchTree.Proofs.Classes
import DispatchTree.Proofs.Execution
/-! What the splits of a grown tree separate.
Whatever the scores, a list is split only where names lie on both sides, and at a value that the
probe takes on the lower one.  A name that follows the tests of its tree therefore ends at a leaf
that holds it, and no threshold is as large as the values of its probe can be. -/
namespace DispatchTree
namespace Feature

/-- The largest value that the probe takes on an ASCII name. -/
def largest : Feature → Nat
  | length => maxLength
  | firstChar | lastChar => 127

theorem value_le_largest {name : String} (h : isAscii name = true) (f : Feature) :
    f.value name ≤ f.largest := by
  have hchars : ∀ c ∈ name.toList, c.toNat < 128 := by
    simpa [isAscii] using h
  have hcode : ∀ c : Option Char, (∀ d ∈ c, d ∈ name.toList) → codeOf c ≤ 127 := by
    intro c hc
    cases c with
    | none => exact Nat.zero_le _
    | some d => exact Nat.le_of_lt_succ (hchars d (hc d rfl))
  cases f with
  | length => exact Nat.min_le_right _ _
  | firstChar => exact hcode _ fun d hd => List.mem_of_head? hd
  | lastChar => exact hcode _ fun d hd => List.mem_of_getLast? hd

end Feature

namespace SplitChoice

/-- Names lie on both sides, the threshold is the largest value of those on the left, and those on
the right lie above it. -/
structure Separates (choice : SplitChoice) (left right : List String) : Prop where
  left_ne_nil : left ≠ []
  right_ne_nil : right ≠ []
  atMost : ∀ name ∈ left, choice.feature.value name ≤ choice.threshold
  above : ∀ name ∈ right, choice.threshold < choice.feature.value name
  attained : (choice.feature.values left).max? = some choice.threshold

variable {choice : SplitChoice} {left right : List String}

theorem Separates.congr (h : choice.Separates left right) {left' right' : List String}
    (hl : ∀ name, name ∈ left' ↔ name ∈ left) (hr : ∀ name, name ∈ right' ↔ name ∈ right) :
    choice.Separates left' right' := by
  obtain ⟨x, hx⟩ := List.exists_mem_of_ne_nil _ h.left_ne_nil
  obtain ⟨y, hy⟩ := List.exists_mem_of_ne_nil _ h.right_ne_nil
  obtain ⟨hmem, hle⟩ := List.max?_eq_some_iff.mp h.attained
  refine ⟨List.ne_nil_of_mem ((hl x).mpr hx), List.ne_nil_of_mem ((hr y).mpr hy),
    fun name hn => h.atMost name ((hl name).mp hn), fun name hn => h.above name ((hr name).mp hn),
    List.max?_eq_some_iff.mpr ⟨?_, ?_⟩⟩
  · simpa only [mem_values, hl] using hmem
  · simpa only [mem_values, hl] using hle

theorem Divides.separates {names : List String} (h : choice.Divides names) :
    choice.Separates (choice.lower names) (choice.upper names) := by
  have hlower : ∀ name ∈ choice.lower names, choice.feature.value name ≤ choice.threshold :=
    fun name hn => (mem_lower.mp hn).2
  obtain ⟨name, hn, hv⟩ := mem_values.mp h.1
  refine ⟨h.lower_ne_nil, h.upper_ne_nil, hlower, fun name hn => (mem_upper.mp hn).2,
    List.max?_eq_some_iff.mpr ⟨?_, ?_⟩⟩
  · exact mem_values.mpr ⟨name, mem_lower.mpr ⟨hn, Nat.le_of_eq hv⟩, hv⟩
  · intro v hmem
    obtain ⟨other, ho, rfl⟩ := mem_values.mp hmem
    exact hlower other ho

end SplitChoice

namespace Tree

theorem mem_route_ofName {tree : Tree} (ho : tree.Ordered) {name : String}
    (hn : name ∈ tree.names) : name ∈ tree.route (.ofName name) := by
  have hself : (Candidate.ofName name).isName name = true := beq_self_eq_true name
  exact mem_route ho (respects_ofName name tree) hn hself

section Grow

variable {α : Type} {scale : Evenness α} {names : List String}

theorem separates_of_mem_subtrees {f : Feature} {t : Nat} {l r : Tree}
    (h : split f t l r ∈ (grow scale names).subtrees) :
    SplitChoice.Separates ⟨f, t⟩ l.names r.names := by
  obtain ⟨part, _, _, hdivides, rfl, rfl⟩ := exists_divided_of_mem_subtrees h
  exact hdivides.separates.congr (fun _ => mem_names_grow) fun _ => mem_names_grow

theorem ne_nil_of_mem_leafLists_grow (hne : names ≠ []) {leaf : List String}
    (h : leaf ∈ (grow scale names).leafLists) : leaf ≠ [] := by
  induction names using grow_induction scale with
  | whole names hw =>
    rw [grow_leaf hw, leafLists_leaf, List.mem_singleton] at h
    rwa [h]
  | parts names hl hu ihl ihu =>
    rw [grow_split hl hu, leafLists_split, List.mem_append] at h
    rcases h with h | h
    · exact ihl hl h
    · exact ihu hu h

/-- Whatever the scores, a tree is a search tree for its names: each split separates the names below
it at a value of its left side, no leaf is empty, and every name is routed to a leaf that has
it. -/
theorem splits_separate (scale : Evenness α) (hne : names ≠ [])
    (hnames : ∀ name ∈ names, name ≠ "" ∧ isAscii name = true) :
    ∃ tree, buildWith scale names = .ok tree ∧
      (∀ f t l r, split f t l r ∈ tree.subtrees →
        SplitChoice.Separates ⟨f, t⟩ l.names r.names ∧ t < f.largest) ∧
      (∀ leaf ∈ tree.leaves, leaf ≠ []) ∧
      ∀ name ∈ names, tree.route (.ofName name) ∈ tree.leaves ∧
        name ∈ tree.route (.ofName name) := by
  refine ⟨grow scale names, buildWith_eq_ok scale hne hnames, ?_, ?_, ?_⟩
  · intro f t l r hsplit
    have hseparates := separates_of_mem_subtrees hsplit
    obtain ⟨name, hn⟩ := List.exists_mem_of_ne_nil _ hseparates.right_ne_nil
    have hmem : name ∈ names := mem_names_grow.mp
      ((sublist_names_of_mem_subtrees hsplit).subset (List.mem_append_right _ hn))
    have hlarge := Feature.value_le_largest (hnames name hmem).2 f
    exact ⟨hseparates, Nat.lt_of_lt_of_le (hseparates.above name hn) hlarge⟩
  · intro leaf hl
    rw [leaves_eq_leafLists] at hl
    exact ne_nil_of_mem_leafLists_grow hne hl
  · intro name hn
    rw [leaves_eq_leafLists]
    exact ⟨route_mem_leafLists _ _, mem_route_ofName (ordered_grow names) (mem_names_grow.mpr hn)⟩

end Grow
end Tree

/-- A scale on which the scores of cuts are no numbers and compare with nothing. -/
def Evenness.undefined : Evenness (Option Nat) where
  zero := some 0
  score _ _ := none
  lt
    | some a, some b => a < b
    | _, _ => false
  le
    | some a, some b => a ≤ b
    | _, _ => false

/-- Without any score each list is cut behind its shortest names. -/
theorem Tree.splits_separate_undefined :
    (∀ name ∈ ["a", "ab", "abc"], name ≠ "" ∧ isAscii name = true) ∧
      ∃ tree, buildWith .undefined ["a", "ab", "abc"] = .ok tree ∧
        tree = split .length 1 (leaf ["a"]) (split .length 2 (leaf ["ab"]) (leaf ["abc"])) ∧
        SplitChoice.Separates ⟨.length, 1⟩ ["a"] ["ab", "abc"] ∧
        "abc" ∈ tree.route (.ofName "abc") := by
  have hnames : ∀ name ∈ ["a", "ab", "abc"], name ≠ "" ∧ isAscii name = true := by decide
  have hall : SplitChoice.pick .undefined ["a", "ab", "abc"] = ⟨.length, 1⟩ := by
    simp (disch := decide) only [SplitChoice.pick, Cut.best_of_pairwise]
    decide
  have hlong : SplitChoice.pick .undefined ["ab", "abc"] = ⟨.length, 2⟩ := by
    simp (disch := decide) only [SplitChoice.pick, Cut.best_of_pairwise]
    decide
  have hright : grow .undefined ["ab", "abc"] = split .length 2 (leaf ["ab"]) (leaf ["abc"]) := by
    refine grow_eq_split_iff.mpr ⟨hlong, by decide, by decide, ?_, ?_⟩
    · exact (grow_singleton "ab").symm
    · exact (grow_singleton "abc").symm
  have hroot : grow .undefined ["a", "ab", "abc"] =
      split .length 1 (leaf ["a"]) (split .length 2 (leaf ["ab"]) (leaf ["abc"])) := by
    refine grow_eq_split_iff.mpr ⟨hall, by decide, by decide, ?_, hright.symm⟩
    exact (grow_singleton "a").symm
  obtain ⟨tree, hbuild, hsplits, _, hroute⟩ := splits_separate .undefined (by simp) hnames
  have htree : tree = split .length 1 (leaf ["a"])
      (split .length 2 (leaf ["ab"]) (leaf ["abc"])) := by
    rw [← hroot, eq_grow_of_buildWith hbuild]
  refine ⟨hnames, tree, hbuild, htree, ?_, (hroute "abc" (by simp)).2⟩
  exact (hsplits .length 1 (leaf ["a"]) (split .length 2 (leaf ["ab"]) (leaf ["abc"]))
    (by simp [htree])).1

end DispatchTree

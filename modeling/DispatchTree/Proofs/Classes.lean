import Mathlib.Algebra.GroupWithZero.Nat
import Mathlib.Data.List.Dedup
import Mathlib.Data.Nat.Basic
import DispatchTree.Proofs.Choices
import DispatchTree.Proofs.SearchOrder
import DispatchTree.Tree.Leaves
/-! Leaves as classes of names.
Names are alike when all three probes agree on them.  Where the scores of cuts are positive numbers
a grown tree parts names exactly when they are not alike: its leaves are the classes of alike names,
each one in the order of the input and with all repetitions. -/
namespace DispatchTree

/-- All that the tests of a tree can see of a name. -/
def probes (name : String) : Nat × Nat × Nat :=
  (Feature.length.value name, Feature.firstChar.value name, Feature.lastChar.value name)

theorem probes_eq_iff {x y : String} :
    probes x = probes y ↔ ∀ f : Feature, f.value x = f.value y := by
  constructor
  · intro h f
    simp only [probes, Prod.mk.injEq] at h
    cases f with
    | length => exact h.1
    | firstChar => exact h.2.1
    | lastChar => exact h.2.2
  · intro h
    simp only [probes, h]

/-- The names of a list that are alike to a name, in its order. -/
def alike (names : List String) (name : String) : List String :=
  names.filter fun other => probes other = probes name

theorem mem_alike {names : List String} {name other : String} :
    other ∈ alike names name ↔ other ∈ names ∧ probes other = probes name := by simp [alike]

theorem mem_alike_self {names : List String} {name : String} (h : name ∈ names) :
    name ∈ alike names name := mem_alike.mpr ⟨h, rfl⟩

namespace SplitChoice

variable {choice : SplitChoice} {names : List String} {name : String}

theorem alike_lower (h : name ∈ choice.lower names) :
    alike (choice.lower names) name = alike names name := by
  rw [alike, lower, List.filter_filter, alike]
  apply List.filter_congr
  intro other _
  by_cases hp : probes other = probes name
  · have hv := (probes_eq_iff.mp hp choice.feature).trans_le (mem_lower.mp h).2
    simp [hp, hv]
  · simp [hp]

theorem alike_upper (h : name ∈ choice.upper names) :
    alike (choice.upper names) name = alike names name := by
  rw [alike, upper, List.filter_filter, alike]
  apply List.filter_congr
  intro other _
  by_cases hp : probes other = probes name
  · have hv := (mem_upper.mp h).2.trans_eq (probes_eq_iff.mp hp choice.feature).symm
    simp [hp, hv]
  · simp [hp]

end SplitChoice

namespace Tree

theorem buildWith_eq_ok {α : Type} (scale : Evenness α) {names : List String} (hne : names ≠ [])
    (h : ∀ name ∈ names, name ≠ "" ∧ isAscii name = true) :
    buildWith scale names = .ok (grow scale names) := by
  have hempty : names.findIdx? (· = "") = none :=
    List.findIdx?_eq_none_iff.mpr fun name hn => by simp [(h name hn).1]
  have hascii : names.findIdx? (fun name => !isAscii name) = none :=
    List.findIdx?_eq_none_iff.mpr fun name hn => by simp [(h name hn).2]
  simp [buildWith, buildDefect, hne, hempty, hascii]

theorem eq_grow_of_buildWith {α : Type} {scale : Evenness α} {names : List String}
    {tree : Tree} (h : buildWith scale names = .ok tree) : tree = grow scale names := by
  unfold buildWith at h
  split at h
  · cases h
  · exact (Except.ok.inj h).symm

theorem exists_divided_of_mem_subtrees {α : Type} {scale : Evenness α} {names : List String}
    {f : Feature} {t : Nat} {l r : Tree} (h : split f t l r ∈ (grow scale names).subtrees) :
    ∃ part, part.length ≤ names.length ∧ SplitChoice.pick scale part = ⟨f, t⟩ ∧
      SplitChoice.Divides part ⟨f, t⟩ ∧
      l = grow scale (SplitChoice.lower ⟨f, t⟩ part) ∧
      r = grow scale (SplitChoice.upper ⟨f, t⟩ part) := by
  obtain ⟨part, hpart⟩ := eq_grow_of_mem_subtrees h
  have hlength := length_le_of_grow_mem_subtrees (hpart ▸ h)
  obtain ⟨hpick, _, hu, hl, hr⟩ := grow_eq_split_iff.mp hpart.symm
  rw [← hpick] at hu
  have hdivides := SplitChoice.divides_pick_of_upper_ne_nil hu
  rw [hpick] at hdivides
  exact ⟨part, hlength, hpick, hdivides, hl, hr⟩

theorem mem_names_of_mem_leafLists {tree : Tree} {leaf : List String} {name : String}
    (hl : leaf ∈ tree.leafLists) (hn : name ∈ leaf) : name ∈ tree.names := by
  rw [← flatten_leafLists]
  exact List.mem_flatten.mpr ⟨leaf, hl, hn⟩

section Leaves

variable {α β : Type} [LinearOrder β] [Zero β] {scale : Evenness α} {number : α → Option β}
  {names leaf : List String}

/-- Names of different leaves are told apart by the split above both. -/
theorem pairwise_leafLists_grow (names : List String) :
    (grow scale names).leafLists.Pairwise fun a b => ∀ x ∈ a, ∀ y ∈ b, probes x ≠ probes y := by
  induction names using grow_induction scale with
  | whole names hw =>
    rw [grow_leaf hw]
    exact List.pairwise_singleton _ _
  | parts names hl hu ihl ihu =>
    rw [grow_split hl hu, leafLists_split, List.pairwise_append]
    refine ⟨ihl, ihu, ?_⟩
    intro a ha b hb x hx y hy heq
    have hxl := mem_names_grow.mp (mem_names_of_mem_leafLists ha hx)
    have hyu := mem_names_grow.mp (mem_names_of_mem_leafLists hb hy)
    have hle := (SplitChoice.mem_lower.mp hxl).2
    have hlt := (SplitChoice.mem_upper.mp hyu).2
    have hv := probes_eq_iff.mp heq (SplitChoice.pick scale names).feature
    omega

variable (hc : scale.ComparesAs number) (hp : scale.IsPositive number names.length)

include hc hp

theorem alike_eq_self_of_whole (hw : (SplitChoice.pick scale names).lower names = [] ∨
      (SplitChoice.pick scale names).upper names = []) {name : String} (hn : name ∈ names) :
    alike names name = names := by
  have hno : ∀ choice, ¬ SplitChoice.Divides names choice := by
    intro choice hd
    have hpick := (SplitChoice.divides_pick hc hp ⟨choice, hd⟩).1
    rcases hw with hw | hw
    · exact hpick.lower_ne_nil hw
    · exact hpick.upper_ne_nil hw
  rw [alike, List.filter_eq_self]
  intro other ho
  have hall := fun f => SplitChoice.value_eq_of_forall_not_divides hno f ho hn
  simpa using probes_eq_iff.mpr hall

theorem leaf_eq_alike (hne : names ≠ []) (h : leaf ∈ (grow scale names).leafLists) :
    leaf ≠ [] ∧ ∀ name ∈ leaf, leaf = alike names name := by
  induction names using grow_induction scale with
  | whole names hw =>
    rw [grow_leaf hw, leafLists_leaf, List.mem_singleton] at h
    subst h
    exact ⟨hne, fun name hn => (alike_eq_self_of_whole hc hp hw hn).symm⟩
  | parts names hl hu ihl ihu =>
    rw [grow_split hl hu, leafLists_split, List.mem_append] at h
    rcases h with h | h
    · have hleaf := ihl (hp.mono (SplitChoice.length_lower_lt _ hu).le) hl h
      refine ⟨hleaf.1, fun name hn => ?_⟩
      have hmem := mem_names_grow.mp (mem_names_of_mem_leafLists h hn)
      rw [← SplitChoice.alike_lower hmem]
      exact hleaf.2 name hn
    · have hleaf := ihu (hp.mono (SplitChoice.length_upper_lt _ hl).le) hu h
      refine ⟨hleaf.1, fun name hn => ?_⟩
      have hmem := mem_names_grow.mp (mem_names_of_mem_leafLists h hn)
      rw [← SplitChoice.alike_upper hmem]
      exact hleaf.2 name hn

theorem mem_leafLists_grow_iff (hne : names ≠ []) :
    leaf ∈ (grow scale names).leafLists ↔ ∃ name ∈ names, leaf = alike names name := by
  constructor
  · intro h
    obtain ⟨hleaf, hclass⟩ := leaf_eq_alike hc hp hne h
    obtain ⟨name, hn⟩ := List.exists_mem_of_ne_nil _ hleaf
    exact ⟨name, mem_names_grow.mp (mem_names_of_mem_leafLists h hn), hclass name hn⟩
  · rintro ⟨name, hn, rfl⟩
    have hmem : name ∈ (grow scale names).leafLists.flatten := by
      rw [flatten_leafLists]
      exact mem_names_grow.mpr hn
    obtain ⟨leaf, hl, hname⟩ := List.mem_flatten.mp hmem
    rwa [← (leaf_eq_alike hc hp hne hl).2 name hname]

theorem headD_mem_leaf (hne : names ≠ []) (h : leaf ∈ (grow scale names).leafLists) :
    leaf.headD "" ∈ leaf := by
  obtain ⟨name, rest, rfl⟩ := List.exists_cons_of_ne_nil (leaf_eq_alike hc hp hne h).1
  exact List.mem_cons_self ..

theorem nodup_leafLists_grow (hne : names ≠ []) : (grow scale names).leafLists.Nodup := by
  refine (pairwise_leafLists_grow names).imp_of_mem ?_
  rintro a b ha _ hab rfl
  have hm := headD_mem_leaf hc hp hne ha
  exact hab _ hm _ hm rfl

theorem length_leafLists_grow (hne : names ≠ []) :
    (grow scale names).leafLists.length = (names.map probes).dedup.length := by
  let keys := (grow scale names).leafLists.map fun leaf => probes (leaf.headD "")
  have hnodup : keys.Nodup := by
    refine List.pairwise_map.mpr ((pairwise_leafLists_grow names).imp_of_mem ?_)
    intro a b ha hb hab
    exact hab _ (headD_mem_leaf hc hp hne ha) _ (headD_mem_leaf hc hp hne hb)
  have hmem : ∀ key, key ∈ keys ↔ key ∈ (names.map probes).dedup := by
    intro key
    rw [List.mem_dedup, List.mem_map, List.mem_map]
    constructor
    · rintro ⟨leaf, hl, rfl⟩
      have hm := mem_names_of_mem_leafLists hl (headD_mem_leaf hc hp hne hl)
      exact ⟨_, mem_names_grow.mp hm, rfl⟩
    · rintro ⟨name, hn, rfl⟩
      have hl := (mem_leafLists_grow_iff hc hp hne).mpr ⟨name, hn, rfl⟩
      exact ⟨_, hl, (mem_alike.mp (headD_mem_leaf hc hp hne hl)).2⟩
  have hperm := (List.perm_ext_iff_of_nodup hnodup (List.nodup_dedup _)).mpr hmem
  simpa [keys] using hperm.length_eq

theorem countP_mem_leafLists_grow {name : String} (hn : name ∈ names) :
    (grow scale names).leafLists.countP (name ∈ ·) = 1 := by
  have hne : names ≠ [] := List.ne_nil_of_mem hn
  have hclass : ∀ leaf ∈ (grow scale names).leafLists,
      decide (name ∈ leaf) = true ↔ (leaf == alike names name) = true := by
    intro leaf hl
    rw [decide_eq_true_eq, beq_iff_eq]
    constructor
    · exact (leaf_eq_alike hc hp hne hl).2 name
    · rintro rfl
      exact mem_alike_self hn
  rw [List.countP_congr hclass]
  exact List.count_eq_one_of_mem (nodup_leafLists_grow hc hp hne)
    ((mem_leafLists_grow_iff hc hp hne).mpr ⟨name, hn, rfl⟩)

end Leaves

/-- The leaves of a tree are the classes of alike names, each exactly once. -/
theorem leaves_are_classes {α β : Type} [LinearOrder β] [Zero β] {scale : Evenness α}
    {number : α → Option β} (hc : scale.ComparesAs number) {names : List String}
    (hp : scale.IsPositive number names.length) (hne : names ≠ [])
    (hnames : ∀ name ∈ names, name ≠ "" ∧ isAscii name = true) :
    ∃ tree, buildWith scale names = .ok tree ∧
      (∀ leaf, leaf ∈ tree.leaves ↔ ∃ name ∈ names, leaf = alike names name) ∧
      tree.leaves.Nodup ∧
      (tree.leaves.Pairwise fun a b => ∀ x ∈ a, ∀ y ∈ b, probes x ≠ probes y) ∧
      tree.leaves.flatten.Perm names ∧
      (∀ name ∈ names, tree.leaves.countP (name ∈ ·) = 1) ∧
      tree.numSplits + 1 = (names.map probes).dedup.length := by
  refine ⟨grow scale names, buildWith_eq_ok scale hne hnames, ?_⟩
  rw [leaves_eq_leafLists, ← length_leafLists]
  refine ⟨fun leaf => mem_leafLists_grow_iff hc hp hne, nodup_leafLists_grow hc hp hne,
    pairwise_leafLists_grow names, ?_, fun name hn => countP_mem_leafLists_grow hc hp hn,
    length_leafLists_grow hc hp hne⟩
  rw [flatten_leafLists]
  exact perm_names_grow names

end Tree

/-- Two names that no probe tells apart, one of them twice, around a third. -/
theorem Tree.leaves_are_classes_interleaved :
    Evenness.smallerSide.ComparesAs (some : Nat → Option Nat) ∧
      Evenness.smallerSide.IsPositive (some : Nat → Option Nat) 4 ∧
      (∀ name ∈ ["axb", "c", "ayb", "axb"], name ≠ "" ∧ isAscii name = true) ∧
      ∃ tree, buildWith .smallerSide ["axb", "c", "ayb", "axb"] = .ok tree ∧
        ["axb", "ayb", "axb"] ∈ tree.leaves ∧ tree.numSplits + 1 = 2 := by
  have hnames : ∀ name ∈ ["axb", "c", "ayb", "axb"], name ≠ "" ∧ isAscii name = true := by decide
  obtain ⟨tree, hbuild, hleaves, _, _, _, _, hsplits⟩ := leaves_are_classes
    Evenness.smallerSide_comparesAs (Evenness.smallerSide_isPositive _) (by simp) hnames
  exact ⟨Evenness.smallerSide_comparesAs, Evenness.smallerSide_isPositive 4, hnames, tree, hbuild,
    (hleaves _).mpr ⟨"ayb", by decide, by decide⟩, hsplits.trans (by decide)⟩

end DispatchTree

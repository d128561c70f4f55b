import DispatchTree.Tree.Build
/-! Grown trees as search trees.
Growing a tree only ever filters names, so whatever the scale says, the names of a grown tree are
those it was grown from, and every split keeps the names at or below its threshold apart from those
above it. -/
namespace DispatchTree
namespace Feature

theorem value_le_maxLength (f : Feature) (name : String) : f.value name ≤ maxLength := by
  have code : ∀ c : Option Char, codeOf c ≤ maxLength := by
    intro c
    cases c with
    | none => exact Nat.zero_le _
    | some c =>
      have hc : c.toNat < 4294967296 := c.val.toBitVec.isLt
      simp only [codeOf_some, maxLength]
      omega
  cases f with
  | length => exact Nat.min_le_right _ _
  | firstChar => exact code _
  | lastChar => exact code _

end Feature

namespace SplitChoice

theorem perm_lower_append_upper (choice : SplitChoice) (names : List String) :
    (choice.lower names ++ choice.upper names).Perm names := by
  have hupper : choice.upper names =
      names.filter fun name => !decide (choice.feature.value name ≤ choice.threshold) := by
    simp only [upper, decide_not, ← Nat.not_le]
  rw [hupper]
  exact List.filter_append_perm _ names

end SplitChoice

namespace Tree

def guards : Tree → List (Feature × Nat)
  | leaf _ => []
  | split feature threshold left right => (feature, threshold) :: (left.guards ++ right.guards)

@[simp] theorem guards_leaf (names : List String) : (leaf names).guards = [] := rfl
@[simp] theorem guards_split (f : Feature) (t : Nat) (l r : Tree) :
    (split f t l r).guards = (f, t) :: (l.guards ++ r.guards) := rfl

/-- A tree with all that hangs below it. -/
def subtrees : Tree → List Tree
  | leaf names => [leaf names]
  | split feature threshold left right =>
    split feature threshold left right :: (left.subtrees ++ right.subtrees)

@[simp] theorem subtrees_leaf (names : List String) : (leaf names).subtrees = [leaf names] := rfl
@[simp] theorem subtrees_split (f : Feature) (t : Nat) (l r : Tree) :
    (split f t l r).subtrees = split f t l r :: (l.subtrees ++ r.subtrees) := rfl

theorem sublist_names_of_mem_subtrees {tree sub : Tree} (h : sub ∈ tree.subtrees) :
    sub.names.Sublist tree.names := by
  induction tree with
  | leaf names =>
    obtain rfl := List.mem_singleton.mp h
    exact List.Sublist.refl _
  | split f t left right ihl ihr =>
    rw [subtrees_split, List.mem_cons, List.mem_append] at h
    rcases h with rfl | h | h
    · exact List.Sublist.refl _
    · exact (ihl h).trans (List.sublist_append_left _ _)
    · exact (ihr h).trans (List.sublist_append_right _ _)

/-- Every name passes the tests on the way from the root to its leaf. -/
def Ordered : Tree → Prop
  | leaf _ => True
  | split feature threshold left right =>
    (∀ name ∈ left.names, feature.value name ≤ threshold) ∧
      (∀ name ∈ right.names, threshold < feature.value name) ∧ left.Ordered ∧ right.Ordered

@[simp] theorem ordered_leaf (names : List String) : (leaf names).Ordered := trivial
theorem ordered_split {f : Feature} {t : Nat} {l r : Tree} : (split f t l r).Ordered ↔
    (∀ name ∈ l.names, f.value name ≤ t) ∧ (∀ name ∈ r.names, t < f.value name) ∧
      l.Ordered ∧ r.Ordered := Iff.rfl

section Grow

variable {α : Type} {scale : Evenness α}

@[simp] theorem grow_singleton (name : String) : grow scale [name] = leaf [name] := by
  rw [grow]

theorem grow_leaf {names : List String}
    (h : (SplitChoice.pick scale names).lower names = [] ∨
      (SplitChoice.pick scale names).upper names = []) : grow scale names = leaf names := by
  unfold grow
  split
  · rfl
  · exact if_pos h

theorem grow_split {names : List String}
    (hl : (SplitChoice.pick scale names).lower names ≠ [])
    (hu : (SplitChoice.pick scale names).upper names ≠ []) :
    grow scale names = split (SplitChoice.pick scale names).feature
      (SplitChoice.pick scale names).threshold
      (grow scale ((SplitChoice.pick scale names).lower names))
      (grow scale ((SplitChoice.pick scale names).upper names)) := by
  have hlen := (SplitChoice.pick scale names).length_lower_add_length_upper names
  have := List.length_pos_iff.mpr hl
  have := List.length_pos_iff.mpr hu
  rw [grow.eq_def]
  split
  · rw [List.length_singleton] at hlen
    omega
  · exact if_neg (not_or.mpr ⟨hl, hu⟩)

/-- All that a split can come from: both parts of the list hold names, and the picked choice parts
them. -/
theorem grow_eq_split_iff {names : List String} {f : Feature} {t : Nat} {l r : Tree} :
    grow scale names = split f t l r ↔ SplitChoice.pick scale names = ⟨f, t⟩ ∧
      SplitChoice.lower ⟨f, t⟩ names ≠ [] ∧ SplitChoice.upper ⟨f, t⟩ names ≠ [] ∧
      l = grow scale (SplitChoice.lower ⟨f, t⟩ names) ∧
      r = grow scale (SplitChoice.upper ⟨f, t⟩ names) := by
  constructor
  · intro h
    by_cases hw : (SplitChoice.pick scale names).lower names = [] ∨
        (SplitChoice.pick scale names).upper names = []
    · rw [grow_leaf hw] at h
      cases h
    · obtain ⟨hl, hu⟩ := not_or.mp hw
      rw [grow_split hl hu] at h
      cases h
      exact ⟨rfl, hl, hu, rfl, rfl⟩
  · rintro ⟨hpick, hl, hu, rfl, rfl⟩
    rw [← hpick] at hl hu
    rw [grow_split hl hu, hpick]

/-- Induction along the growth of a tree: over the lists that stay whole, and over the two parts of
a list that is split. -/
theorem grow_induction (scale : Evenness α) {motive : List String → Prop}
    (whole : ∀ names, (SplitChoice.pick scale names).lower names = [] ∨
      (SplitChoice.pick scale names).upper names = [] → motive names)
    (parts : ∀ names, (SplitChoice.pick scale names).lower names ≠ [] →
      (SplitChoice.pick scale names).upper names ≠ [] →
      motive ((SplitChoice.pick scale names).lower names) →
      motive ((SplitChoice.pick scale names).upper names) → motive names)
    (names : List String) : motive names := by
  induction h : names.length using Nat.strongRecOn generalizing names with
  | ind n ih =>
    subst h
    by_cases hw : (SplitChoice.pick scale names).lower names = [] ∨
        (SplitChoice.pick scale names).upper names = []
    · exact whole names hw
    · obtain ⟨hl, hu⟩ := not_or.mp hw
      have hlower := ih _ ((SplitChoice.pick scale names).length_lower_lt hu) _ rfl
      have hupper := ih _ ((SplitChoice.pick scale names).length_upper_lt hl) _ rfl
      exact parts names hl hu hlower hupper

theorem eq_grow_of_mem_subtrees {names : List String} {tree : Tree}
    (h : tree ∈ (grow scale names).subtrees) : ∃ part, tree = grow scale part := by
  induction names using grow_induction scale with
  | whole names hw =>
    refine ⟨names, ?_⟩
    rw [grow_leaf hw, subtrees_leaf, List.mem_singleton] at h
    rw [h, grow_leaf hw]
  | parts names hl hu ihl ihu =>
    rw [grow_split hl hu, subtrees_split, List.mem_cons, List.mem_append] at h
    rcases h with h | h | h
    · exact ⟨names, by rw [h, grow_split hl hu]⟩
    · exact ihl h
    · exact ihu h

theorem perm_names_grow (names : List String) : (grow scale names).names.Perm names := by
  induction names using grow_induction scale with
  | whole names hw => rw [grow_leaf hw, names_leaf]
  | parts names hl hu ihl ihu =>
    rw [grow_split hl hu, names_split]
    exact (ihl.append ihu).trans (SplitChoice.perm_lower_append_upper _ names)

theorem length_le_of_grow_mem_subtrees {names part : List String}
    (h : grow scale part ∈ (grow scale names).subtrees) : part.length ≤ names.length := by
  have hle := (sublist_names_of_mem_subtrees h).length_le
  rwa [(perm_names_grow part).length_eq, (perm_names_grow names).length_eq] at hle

theorem mem_names_grow {names : List String} {name : String} :
    name ∈ (grow scale names).names ↔ name ∈ names := (perm_names_grow names).mem_iff

theorem ordered_grow (names : List String) : (grow scale names).Ordered := by
  induction names using grow_induction scale with
  | whole names hw => rw [grow_leaf hw]; exact ordered_leaf names
  | parts names hl hu ihl ihu =>
    rw [grow_split hl hu, ordered_split]
    refine ⟨fun name hn => ?_, fun name hn => ?_, ihl, ihu⟩
    · exact (SplitChoice.mem_lower.mp (mem_names_grow.mp hn)).2
    · exact (SplitChoice.mem_upper.mp (mem_names_grow.mp hn)).2

/-- Some name lies above each threshold, which is therefore no largest value. -/
theorem threshold_lt_of_mem_guards_grow {names : List String} {guard : Feature × Nat}
    (h : guard ∈ (grow scale names).guards) : guard.2 < Feature.maxLength := by
  induction names using grow_induction scale with
  | whole names hw => simp [grow_leaf hw] at h
  | parts names hl hu ihl ihu =>
    rw [grow_split hl hu, guards_split, List.mem_cons, List.mem_append] at h
    rcases h with rfl | h | h
    · obtain ⟨name, hname⟩ := List.exists_mem_of_ne_nil _ hu
      have habove := (SplitChoice.mem_upper.mp hname).2
      exact Nat.lt_of_lt_of_le habove (Feature.value_le_maxLength _ name)
    · exact ihl h
    · exact ihu h

end Grow
end Tree
end DispatchTree

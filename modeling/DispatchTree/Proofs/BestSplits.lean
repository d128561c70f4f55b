import DispatchTree.Proofs.Classes
/-! The splits of a tree are the best ones.
Where scores are numbers and those of cuts are positive, every split of a grown tree divides the
names below it with the highest score that a division of them can have.  Of the divisions with that
score it is the first, by the order of the probes and then of the thresholds. -/
namespace DispatchTree

theorem Feature.idxOf_all (f : Feature) : all.idxOf f = f.rank := by
  cases f <;> rfl

theorem Feature.rank_inj {f g : Feature} : f.rank = g.rank ↔ f = g := by
  cases f <;> cases g <;> simp [rank]

namespace SplitChoice

/-- The order of equally good choices: by the place of the probe, then by the threshold. -/
def Precedes (choice other : SplitChoice) : Prop :=
  Feature.all.idxOf choice.feature < Feature.all.idxOf other.feature ∨
    choice.feature = other.feature ∧ choice.threshold < other.threshold

theorem precedes_iff {choice other : SplitChoice} : choice.Precedes other ↔
    choice.feature < other.feature ∨
      choice.feature = other.feature ∧ choice.threshold < other.threshold := by
  rw [Precedes, Feature.idxOf_all, Feature.idxOf_all, Feature.lt_iff]

theorem eq_or_precedes (choice other : SplitChoice) :
    choice = other ∨ choice.Precedes other ∨ other.Precedes choice := by
  obtain ⟨f, t⟩ := choice
  obtain ⟨g, u⟩ := other
  simp only [precedes_iff, Feature.lt_iff]
  rcases Nat.lt_trichotomy f.rank g.rank with hlt | heq | hgt
  · exact Or.inr (Or.inl (Or.inl hlt))
  · obtain rfl := Feature.rank_inj.mp heq
    rcases Nat.lt_trichotomy t u with hlt | rfl | hgt
    · exact Or.inr (Or.inl (Or.inr ⟨rfl, hlt⟩))
    · exact Or.inl rfl
    · exact Or.inr (Or.inr (Or.inr ⟨rfl, hgt⟩))
  · exact Or.inr (Or.inr (Or.inl hgt))

/-- The choice divides the names, no other does so with a higher score, and of those with the same
score it comes first. -/
structure IsBest {α : Type} (scale : Evenness α) (names : List String) (choice : SplitChoice) :
    Prop where
  divides : choice.Divides names
  highest : ∀ other : SplitChoice, other.Divides names →
    scale.le (cutScore scale names other) (cutScore scale names choice) = true
  first : ∀ other : SplitChoice, other.Divides names →
    scale.le (cutScore scale names choice) (cutScore scale names other) = true →
      choice = other ∨ choice.Precedes other

section Perm

variable {α : Type} {scale : Evenness α} {names others : List String} {choice : SplitChoice}
  (h : names.Perm others)

include h

theorem divides_perm : choice.Divides names ↔ choice.Divides others :=
  Cut.IsBoundary.perm (h.map choice.feature.value)

theorem cutScore_perm : cutScore scale names choice = cutScore scale others choice := by
  rw [cutScore, cutScore, h.length_eq, lower, lower, (h.filter _).length_eq]

theorem IsBest.perm (hbest : IsBest scale names choice) : IsBest scale others choice := by
  refine ⟨(divides_perm h).mp hbest.divides, fun other ho => ?_, fun other ho hle => ?_⟩
  · rw [← cutScore_perm h, ← cutScore_perm h]
    exact hbest.highest other ((divides_perm h).mpr ho)
  · rw [← cutScore_perm h, ← cutScore_perm h] at hle
    exact hbest.first other ((divides_perm h).mpr ho) hle

end Perm

section Scores

open Evenness

variable {α β : Type} [LinearOrder β] [Zero β] {scale : Evenness α} {number : α → Option β}
  {names : List String}

theorem isBest_pick (hc : scale.ComparesAs number) (hp : scale.IsPositive number names.length)
    (h : ∃ choice, Divides names choice) : IsBest scale names (pick scale names) := by
  have hdivides := (divides_pick hc hp h).1
  have hsome : ∀ choice : SplitChoice, choice.Divides names →
      (number (cutScore scale names choice)).isSome = true :=
    fun choice hd => hp.isSome hd.length_lower_pos hd.length_lower_lt
  refine ⟨hdivides, fun other ho => ?_, fun other ho hle => ?_⟩
  · exact (hc.le_iff_grade (hsome other ho) (hsome _ hdivides)).mpr
      (grade_cutScore_le_pick hc hp ho).1
  · rcases eq_or_precedes (pick scale names) other with heq | hfirst | hother
    · exact Or.inl heq
    · exact Or.inr hfirst
    · have hlt := (grade_cutScore_le_pick hc hp ho).2 (precedes_iff.mp hother)
      rw [hc.le_iff_grade (hsome _ hdivides) (hsome other ho)] at hle
      exact absurd hlt (not_lt.mpr hle)

end Scores
end SplitChoice

namespace Tree

theorem parts_names_of_ordered {f : Feature} {t : Nat} {l r : Tree}
    (h : (split f t l r).Ordered) : SplitChoice.lower ⟨f, t⟩ (l.names ++ r.names) = l.names ∧
      SplitChoice.upper ⟨f, t⟩ (l.names ++ r.names) = r.names := by
  obtain ⟨hbelow, habove, _, _⟩ := ordered_split.mp h
  have hleft : SplitChoice.lower ⟨f, t⟩ l.names = l.names ∧
      SplitChoice.upper ⟨f, t⟩ l.names = [] :=
    ⟨List.filter_eq_self.mpr (by simpa using hbelow), List.filter_eq_nil_iff.mpr
      (by simpa using hbelow)⟩
  have hright : SplitChoice.lower ⟨f, t⟩ r.names = [] ∧
      SplitChoice.upper ⟨f, t⟩ r.names = r.names :=
    ⟨List.filter_eq_nil_iff.mpr (by simpa using habove), List.filter_eq_self.mpr
      (by simpa using habove)⟩
  simp only [SplitChoice.lower, SplitChoice.upper] at hleft hright ⊢
  rw [List.filter_append, List.filter_append, hleft.1, hleft.2, hright.1, hright.2]
  simp

section Grow

variable {α β : Type} [LinearOrder β] [Zero β] {scale : Evenness α} {number : α → Option β}

theorem isBest_of_mem_subtrees (hc : scale.ComparesAs number) {names : List String}
    (hp : scale.IsPositive number names.length) {f : Feature} {t : Nat} {l r : Tree}
    (h : split f t l r ∈ (grow scale names).subtrees) :
    SplitChoice.IsBest scale (l.names ++ r.names) ⟨f, t⟩ := by
  obtain ⟨part, hlength, hpick, hdivides, rfl, rfl⟩ := exists_divided_of_mem_subtrees h
  have hbest := SplitChoice.isBest_pick hc (hp.mono hlength) ⟨_, hdivides⟩
  rw [hpick] at hbest
  refine hbest.perm (List.Perm.symm ?_)
  exact ((perm_names_grow _).append (perm_names_grow _)).trans
    (SplitChoice.perm_lower_append_upper _ part)

/-- Every split of a tree is the best one of the names below it, and its sides hold those at or
below the threshold and those above it. -/
theorem splits_are_best (hc : scale.ComparesAs number) {names : List String}
    (hp : scale.IsPositive number names.length) {tree : Tree}
    (h : buildWith scale names = .ok tree) :
    tree.names.Perm names ∧ ∀ f t l r, split f t l r ∈ tree.subtrees →
      SplitChoice.IsBest scale (split f t l r).names ⟨f, t⟩ ∧
      l.names = SplitChoice.lower ⟨f, t⟩ (split f t l r).names ∧
      r.names = SplitChoice.upper ⟨f, t⟩ (split f t l r).names := by
  rw [eq_grow_of_buildWith h]
  refine ⟨perm_names_grow names, fun f t l r hsplit => ?_⟩
  obtain ⟨part, hpart⟩ := eq_grow_of_mem_subtrees hsplit
  have hordered : (split f t l r).Ordered := hpart ▸ ordered_grow part
  obtain ⟨hlower, hupper⟩ := parts_names_of_ordered hordered
  exact ⟨isBest_of_mem_subtrees hc hp hsplit, hlower.symm, hupper.symm⟩

end Grow
end Tree

/-- All cuts of three names leave one of them alone, so that the first of them is taken. -/
theorem Tree.splits_are_best_tied :
    Evenness.smallerSide.ComparesAs (some : Nat → Option Nat) ∧
      Evenness.smallerSide.IsPositive (some : Nat → Option Nat) 3 ∧
      ∃ tree, buildWith .smallerSide ["a", "bb", "ccc"] = .ok tree ∧
        tree = split .length 1 (leaf ["a"]) (split .length 2 (leaf ["bb"]) (leaf ["ccc"])) ∧
        SplitChoice.IsBest .smallerSide ["a", "bb", "ccc"] ⟨.length, 1⟩ ∧
        SplitChoice.IsBest .smallerSide ["bb", "ccc"] ⟨.length, 2⟩ := by
  have hnames : ∀ name ∈ ["a", "bb", "ccc"], name ≠ "" ∧ isAscii name = true := by decide
  have hall : SplitChoice.pick .smallerSide ["a", "bb", "ccc"] = ⟨.length, 1⟩ := by
    simp (disch := decide) only [SplitChoice.pick, Cut.best_of_pairwise]
    decide
  have hlong : SplitChoice.pick .smallerSide ["bb", "ccc"] = ⟨.length, 2⟩ := by
    simp (disch := decide) only [SplitChoice.pick, Cut.best_of_pairwise]
    decide
  have hright : grow .smallerSide ["bb", "ccc"] =
      split .length 2 (leaf ["bb"]) (leaf ["ccc"]) := by
    refine grow_eq_split_iff.mpr ⟨hlong, by decide, by decide, ?_, ?_⟩
    · exact (grow_singleton "bb").symm
    · exact (grow_singleton "ccc").symm
  have hroot : grow .smallerSide ["a", "bb", "ccc"] =
      split .length 1 (leaf ["a"]) (split .length 2 (leaf ["bb"]) (leaf ["ccc"])) := by
    refine grow_eq_split_iff.mpr ⟨hall, by decide, by decide, ?_, hright.symm⟩
    exact (grow_singleton "a").symm
  have hbuild := buildWith_eq_ok .smallerSide (by simp) hnames
  rw [hroot] at hbuild
  obtain ⟨_, hsplits⟩ := splits_are_best Evenness.smallerSide_comparesAs
    (Evenness.smallerSide_isPositive _) hbuild
  exact ⟨Evenness.smallerSide_comparesAs, Evenness.smallerSide_isPositive 3, _, hbuild, rfl,
    (hsplits .length 1 (leaf ["a"]) (split .length 2 (leaf ["bb"]) (leaf ["ccc"])) (by simp)).1,
    (hsplits .length 2 (leaf ["bb"]) (leaf ["ccc"]) (by simp)).1⟩

end DispatchTree

import Mathlib.Order.Bounds.Basic
import DispatchTree.Proofs.Cuts
/-! The best cut without a search.
The search for the best cut sorts a column and walks over the runs of equal values in it.  What it
finds can be said without an order of the entries: where some entries differ, it is the least value
at which no cut has a higher score, the largest value left out, and a column of equal entries keeps
the score of a list that is not cut. -/
namespace DispatchTree.Cut

open Evenness

def scoreAt {α : Type} (scale : Evenness α) (column : List Nat) (v : Nat) : α :=
  scale.score (countUpTo column v) column.length

/-- The values at which a column can be cut and no cut of it has a higher score. -/
def maximisers {α : Type} (scale : Evenness α) (column : List Nat) : Set Nat :=
  {v | IsBoundary column v ∧ ∀ u, IsBoundary column u →
    scale.le (scoreAt scale column u) (scoreAt scale column v) = true}

theorem exists_isBoundary_iff {column : List Nat} :
    (∃ v, IsBoundary column v) ↔ ∃ a ∈ column, ∃ b ∈ column, a ≠ b := by
  constructor
  · rintro ⟨v, hv, w, hw, hlt⟩
    exact ⟨v, hv, w, hw, Nat.ne_of_lt hlt⟩
  · rintro ⟨a, ha, b, hb, hne⟩
    by_cases hlt : a < b
    · exact ⟨a, ha, b, hb, hlt⟩
    · exact ⟨b, hb, a, ha, by omega⟩

theorem best_nil {α : Type} (scale : Evenness α) : best scale [] = ⟨0, scale.zero⟩ := by
  simp [best, ofSorted]

theorem best_of_forall_eq {α : Type} (scale : Evenness α) {column : List Nat} {a : Nat}
    (ha : a ∈ column) (h : ∀ b ∈ column, b = a) : best scale column = ⟨a, scale.zero⟩ := by
  have hthreshold : (best scale column).threshold = a :=
    h _ (threshold_best_mem scale (List.ne_nil_of_mem ha))
  have hscore : (best scale column).score = scale.zero := by
    refine score_best_of_forall ?_
    rintro v ⟨hv, w, hw, hlt⟩
    rw [h v hv, h w hw] at hlt
    exact Nat.lt_irrefl a hlt
  show (⟨(best scale column).threshold, (best scale column).score⟩ : Cut α) = _
  rw [hthreshold, hscore]

section Scores

variable {α β : Type} [LinearOrder β] [Zero β] {scale : Evenness α} {number : α → Option β}
  {column : List Nat}

theorem isLeast_threshold_best (hc : scale.ComparesAs number)
    (hp : scale.IsPositive number column.length) (h : ∃ v, IsBoundary column v) :
    IsLeast (maximisers scale column) (best scale column).threshold ∧
      (best scale column).score = scoreAt scale column (best scale column).threshold := by
  obtain ⟨v, hv, hbest, hhighest, hearlier⟩ := best_of_isBoundary hc hp h
  have hle : ∀ u w, IsBoundary column u → IsBoundary column w →
      (scale.le (scoreAt scale column u) (scoreAt scale column w) = true ↔
        grade number (scoreAt scale column u) ≤ grade number (scoreAt scale column w)) :=
    fun u w hu hw => hc.le_iff_grade (hp.isSome hu.countUpTo_pos hu.countUpTo_lt)
      (hp.isSome hw.countUpTo_pos hw.countUpTo_lt)
  rw [hbest]
  refine ⟨⟨⟨hv, fun u hu => (hle u v hu hv).mpr (hhighest u hu)⟩, ?_⟩, rfl⟩
  rintro u ⟨hu, hmost⟩
  by_contra hlt
  have hlower := hearlier u hu (Nat.lt_of_not_le hlt)
  exact absurd ((hle v u hv hu).mp (hmost v hv)) (not_le.mpr hlower)

theorem divides_best_iff (hc : scale.ComparesAs number)
    (hp : scale.IsPositive number column.length) :
    (best scale column).divides scale = true ↔ ∃ v, IsBoundary column v := by
  by_cases h : ∃ v, IsBoundary column v
  · obtain ⟨⟨⟨hb, _⟩, _⟩, hscore⟩ := isLeast_threshold_best hc hp h
    have hsome := hp.isSome hb.countUpTo_pos hb.countUpTo_lt
    have hpos := hp.grade_pos hb.countUpTo_pos hb.countUpTo_lt
    simp only [h, iff_true]
    rw [divides, hscore, scoreAt, hc.lt_iff_grade hc.isSome_zero hsome, hc.grade_zero]
    exact hpos
  · have hscore : (best scale column).score = scale.zero :=
      score_best_of_forall (not_exists.mp h)
    simp only [h, iff_false]
    rw [divides, hscore, hc.lt_iff_grade hc.isSome_zero hc.isSome_zero]
    exact lt_irrefl _

/-- The best cut of a column, however the column is ordered: the least value of the highest score if
two entries differ, and otherwise the value of all entries with the score of no cut. -/
theorem best_is_least_maximiser (hc : scale.ComparesAs number) (column : List Nat)
    (hp : scale.IsPositive number column.length) :
    ((∃ a ∈ column, ∃ b ∈ column, a ≠ b) →
      IsLeast (maximisers scale column) (best scale column).threshold ∧
      (best scale column).score = scoreAt scale column (best scale column).threshold ∧
      (∃ a ∈ column, a ≤ (best scale column).threshold) ∧
      ∃ b ∈ column, (best scale column).threshold < b) ∧
    ((best scale column).divides scale = true ↔ ∃ a ∈ column, ∃ b ∈ column, a ≠ b) ∧
    (∀ a ∈ column, (∀ b ∈ column, b = a) → best scale column = ⟨a, scale.zero⟩) ∧
    best scale [] = ⟨0, scale.zero⟩ := by
  rw [← exists_isBoundary_iff]
  refine ⟨fun h => ?_, divides_best_iff hc hp, fun a ha => best_of_forall_eq scale ha,
    best_nil scale⟩
  obtain ⟨hleast, hscore⟩ := isLeast_threshold_best hc hp h
  obtain ⟨hmem, habove⟩ := hleast.1.1
  exact ⟨hleast, hscore, ⟨_, hmem, Nat.le_refl _⟩, habove⟩

end Scores

/-- An unordered column with a long run of one value, between two cuts that are as good as each
other. -/
theorem best_is_least_maximiser_mirrored :
    smallerSide.ComparesAs (some : Nat → Option Nat) ∧
      smallerSide.IsPositive (some : Nat → Option Nat) 7 ∧
      scoreAt smallerSide [5, 1, 5, 5, 9, 5, 5] 1 = scoreAt smallerSide [5, 1, 5, 5, 9, 5, 5] 5 ∧
      (best smallerSide [5, 1, 5, 5, 9, 5, 5]).threshold = 1 ∧
      (best smallerSide [5, 1, 5, 5, 9, 5, 5]).score = 1 := by
  obtain ⟨hdiffer, _⟩ := best_is_least_maximiser smallerSide_comparesAs [5, 1, 5, 5, 9, 5, 5]
    (smallerSide_isPositive 7)
  obtain ⟨hleast, hscore, _⟩ := hdiffer ⟨5, by decide, 1, by decide, by decide⟩
  have hone : IsLeast (maximisers smallerSide [5, 1, 5, 5, 9, 5, 5]) 1 := by
    have hall : ∀ u ∈ [5, 1, 5, 5, 9, 5, 5],
        smallerSide.le (scoreAt smallerSide [5, 1, 5, 5, 9, 5, 5] u)
          (scoreAt smallerSide [5, 1, 5, 5, 9, 5, 5] 1) = true := by decide
    have hsmallest : ∀ u ∈ [5, 1, 5, 5, 9, 5, 5], 1 ≤ u := by decide
    exact ⟨⟨⟨by decide, 9, by decide, by decide⟩, fun u hu => hall u hu.1⟩,
      fun u hu => hsmallest u hu.1.1⟩
  have hthreshold := hleast.unique hone
  refine ⟨smallerSide_comparesAs, smallerSide_isPositive 7, by decide, hthreshold, ?_⟩
  rw [hscore, hthreshold]
  decide

end DispatchTree.Cut

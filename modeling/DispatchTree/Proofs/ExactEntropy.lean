import Mathlib.Analysis.SpecialFunctions.BinaryEntropy
import DispatchTree.Proofs.Cuts
/-! Exact binary entropy as a scale.
Over the real numbers the entropy of a cut is positive, and a cut has the higher entropy the more it
leaves on its smaller side. -/
namespace DispatchTree
namespace Evenness

/-- Scores by binary entropy, without rounding. -/
noncomputable def exactEntropy : Evenness ℝ where
  zero := 0
  score left total := Real.binEntropy (left / total)
  lt a b := a < b
  le a b := a ≤ b

theorem exactEntropy_comparesAs : exactEntropy.ComparesAs (some : ℝ → Option ℝ) where
  lt_iff a b := by simp [exactEntropy]
  le_iff a b := by simp [exactEntropy]
  zero := rfl

theorem exactEntropy_isPositive (most : Nat) :
    exactEntropy.IsPositive (some : ℝ → Option ℝ) most := by
  intro left total hl ht _
  have hleft : (0 : ℝ) < left := Nat.cast_pos.mpr hl
  have hless : (left : ℝ) < total := Nat.cast_lt.mpr ht
  have htotal : (0 : ℝ) < total := hleft.trans hless
  exact ⟨_, rfl, Real.binEntropy_pos (div_pos hleft htotal) ((div_lt_one htotal).mpr hless)⟩

theorem score_exactEntropy {left total : Nat} (ht : left < total) :
    exactEntropy.score left total =
      Real.binEntropy ((min left (total - left) : Nat) / total) := by
  by_cases h : left ≤ total - left
  · rw [min_eq_left h]
    rfl
  · have htotal : (total : ℝ) ≠ 0 := Nat.cast_ne_zero.mpr (by omega)
    have hshare : ((total - left : Nat) : ℝ) / total = 1 - left / total := by
      rw [Nat.cast_sub ht.le, sub_div, div_self htotal]
    rw [min_eq_right (not_le.mp h).le, hshare, Real.binEntropy_one_sub]
    rfl

theorem share_mem_Icc {side total : Nat} (ht : 0 < total) (h : 2 * side ≤ total) :
    (side : ℝ) / total ∈ Set.Icc (0 : ℝ) 2⁻¹ := by
  have htotal : (0 : ℝ) < total := Nat.cast_pos.mpr ht
  have hside : (2 : ℝ) * side ≤ total := by exact_mod_cast h
  refine ⟨div_nonneg (Nat.cast_nonneg _) htotal.le, ?_⟩
  rw [div_le_iff₀ htotal]
  linarith

theorem exactEntropy_ranksBySmallerSide (most : Nat) :
    exactEntropy.RanksBySmallerSide most := by
  intro left other total hl ht ho hot _
  have htotal : (0 : ℝ) < total := Nat.cast_pos.mpr (hl.trans ht)
  have hhalf (side : Nat) : 2 * min side (total - side) ≤ total := by omega
  have hleft := share_mem_Icc (hl.trans ht) (hhalf left)
  have hother := share_mem_Icc (hl.trans ht) (hhalf other)
  rw [score_exactEntropy ht, score_exactEntropy hot]
  show decide (_ < _) = true ↔ _
  rw [decide_eq_true_eq, Real.binEntropy_strictMonoOn.lt_iff_lt hleft hother,
    div_lt_div_iff_of_pos_right htotal, Nat.cast_lt]

end Evenness
end DispatchTree

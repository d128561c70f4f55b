import DispatchTree.Proofs.Cuts
import DispatchTree.Tree.Build
/-! The choice of a split.
A choice divides a list where some of its names lie on either side.  Where scores are numbers and
those of cuts are positive, a list that can be divided is divided, and by a choice of the highest
score: of the equally good ones, that of the preferred probe and then of the smallest threshold. -/
namespace DispatchTree

namespace Feature

variable {β : Type} [LinearOrder β]

/-- The probe of the highest grade; of equal ones the preferred. -/
def leading (grade : Feature → β) : Feature :=
  if grade firstChar ≤ grade length ∧ grade lastChar ≤ grade length then length
  else if grade length ≤ grade firstChar ∧ grade lastChar ≤ grade firstChar then firstChar
  else lastChar

theorem grade_le_leading (grade : Feature → β) (f : Feature) : grade f ≤ grade (leading grade) := by
  by_cases hl : grade firstChar ≤ grade length ∧ grade lastChar ≤ grade length
  · rw [leading, if_pos hl]
    cases f with
    | length => exact le_refl _
    | firstChar => exact hl.1
    | lastChar => exact hl.2
  by_cases hf : grade length ≤ grade firstChar ∧ grade lastChar ≤ grade firstChar
  · rw [leading, if_neg hl, if_pos hf]
    cases f with
    | length => exact hf.1
    | firstChar => exact le_refl _
    | lastChar => exact hf.2
  rw [leading, if_neg hl, if_neg hf]
  have hthird : grade length ≤ grade lastChar ∧ grade firstChar ≤ grade lastChar := by
    rcases le_total (grade length) (grade firstChar) with h | h
    · have hlt : grade firstChar < grade lastChar := not_le.mp fun hle => hf ⟨h, hle⟩
      exact ⟨h.trans hlt.le, hlt.le⟩
    · have hlt : grade length < grade lastChar := not_le.mp fun hle => hl ⟨h, hle⟩
      exact ⟨hlt.le, h.trans hlt.le⟩
  cases f with
  | length => exact hthird.1
  | firstChar => exact hthird.2
  | lastChar => exact le_refl _

theorem grade_lt_leading (grade : Feature → β) {f : Feature} (h : f < leading grade) :
    grade f < grade (leading grade) := by
  apply lt_of_le_of_ne (grade_le_leading grade f)
  intro heq
  have hall : ∀ g, grade g ≤ grade f := fun g => heq ▸ grade_le_leading grade g
  rw [lt_iff] at h
  unfold leading at h
  cases f with
  | length => simp [hall, rank] at h
  | firstChar =>
    split at h
    · simp [rank] at h
    · rw [if_pos ⟨hall length, hall lastChar⟩] at h
      exact Nat.lt_irrefl _ h
  | lastChar =>
    split at h
    · simp [rank] at h
    · split at h <;> simp [rank] at h

end Feature

namespace SplitChoice

/-- The threshold is a value of the probe on the names, and not the largest one. -/
def Divides (names : List String) (choice : SplitChoice) : Prop :=
  Cut.IsBoundary (choice.feature.values names) choice.threshold

section Divides

variable {names : List String} {choice : SplitChoice}

theorem mem_values {f : Feature} {v : Nat} :
    v ∈ f.values names ↔ ∃ name ∈ names, f.value name = v := List.mem_map

theorem length_lower (choice : SplitChoice) (names : List String) : (choice.lower names).length =
    Cut.countUpTo (choice.feature.values names) choice.threshold := by
  rw [lower, Cut.countUpTo, Feature.values, List.countP_map, List.countP_eq_length_filter]
  rfl

theorem Divides.lower_ne_nil (h : choice.Divides names) : choice.lower names ≠ [] := by
  obtain ⟨name, hn, hv⟩ := mem_values.mp h.1
  exact List.ne_nil_of_mem (mem_lower.mpr ⟨hn, Nat.le_of_eq hv⟩)

theorem Divides.upper_ne_nil (h : choice.Divides names) : choice.upper names ≠ [] := by
  obtain ⟨_, w, hw, hlt⟩ := h
  obtain ⟨name, hn, rfl⟩ := mem_values.mp hw
  exact List.ne_nil_of_mem (mem_upper.mpr ⟨hn, hlt⟩)

theorem Divides.length_lower_pos (h : choice.Divides names) : 0 < (choice.lower names).length :=
  List.length_pos_iff.mpr h.lower_ne_nil

theorem Divides.length_lower_lt (h : choice.Divides names) :
    (choice.lower names).length < names.length := choice.length_lower_lt h.upper_ne_nil

theorem divides_of_value_lt {f : Feature} {x y : String} (hx : x ∈ names) (hy : y ∈ names)
    (h : f.value x < f.value y) : Divides names ⟨f, f.value x⟩ :=
  ⟨mem_values.mpr ⟨x, hx, rfl⟩, f.value y, mem_values.mpr ⟨y, hy, rfl⟩, h⟩

theorem value_eq_of_forall_not_divides (h : ∀ choice, ¬ Divides names choice) (f : Feature)
    {x y : String} (hx : x ∈ names) (hy : y ∈ names) : f.value x = f.value y := by
  rcases Nat.lt_trichotomy (f.value x) (f.value y) with hlt | heq | hgt
  · exact absurd (divides_of_value_lt hx hy hlt) (h _)
  · exact heq
  · exact absurd (divides_of_value_lt hy hx hgt) (h _)

end Divides

section Scores

open Evenness

variable {α β : Type} [LinearOrder β] [Zero β] {scale : Evenness α} {number : α → Option β}
  {names : List String}

theorem threshold_pick (scale : Evenness α) (names : List String) : (pick scale names).threshold =
    (Cut.best scale ((pick scale names).feature.values names)).threshold := by
  unfold pick
  dsimp only
  split
  · rfl
  · split
    · rfl
    · rfl

theorem threshold_pick_mem (scale : Evenness α) (h : names ≠ []) :
    (pick scale names).threshold ∈ (pick scale names).feature.values names := by
  have hcolumn : (pick scale names).feature.values names ≠ [] := mt List.map_eq_nil_iff.mp h
  rw [threshold_pick]
  exact Cut.threshold_best_mem scale hcolumn

/-- Whatever the scores, the picked choice divides the names if some of them lie above it. -/
theorem divides_pick_of_upper_ne_nil (hu : (pick scale names).upper names ≠ []) :
    (pick scale names).Divides names := by
  obtain ⟨name, hn⟩ := List.exists_mem_of_ne_nil _ hu
  obtain ⟨hmem, hlt⟩ := mem_upper.mp hn
  exact ⟨threshold_pick_mem scale (List.ne_nil_of_mem hmem), _, mem_values.mpr ⟨name, hmem, rfl⟩,
    hlt⟩

def cutScore (scale : Evenness α) (names : List String) (choice : SplitChoice) : α :=
  scale.score (choice.lower names).length names.length

theorem Divides.grade_cutScore_pos (hp : scale.IsPositive number names.length)
    {choice : SplitChoice} (h : choice.Divides names) :
    0 < grade number (cutScore scale names choice) :=
  hp.grade_pos h.length_lower_pos h.length_lower_lt

variable (hc : scale.ComparesAs number) (hp : scale.IsPositive number names.length)

include hc hp

theorem best_of_divides {f : Feature} {v : Nat} (h : Divides names ⟨f, v⟩) :
    ∃ t, Divides names ⟨f, t⟩ ∧
      Cut.best scale (f.values names) = ⟨t, cutScore scale names ⟨f, t⟩⟩ ∧
      grade number (cutScore scale names ⟨f, v⟩) ≤ grade number (cutScore scale names ⟨f, t⟩) ∧
      (v < t → grade number (cutScore scale names ⟨f, v⟩) <
        grade number (cutScore scale names ⟨f, t⟩)) := by
  rw [← Feature.length_values f] at hp
  obtain ⟨t, ht, hbest, hle, hlt⟩ := Cut.best_of_isBoundary hc hp ⟨v, h⟩
  simp only [cutScore, length_lower]
  rw [Feature.length_values] at hbest hle hlt
  exact ⟨t, ht, hbest, hle _ h, hlt _ h⟩

theorem isSome_score_best (f : Feature) :
    (number (Cut.best scale (f.values names)).score).isSome = true := by
  by_cases h : ∃ v, Cut.IsBoundary (f.values names) v
  · obtain ⟨v, hv⟩ := h
    obtain ⟨t, ht, hbest, _⟩ := best_of_divides hc hp hv
    rw [hbest]
    exact hp.isSome ht.length_lower_pos ht.length_lower_lt
  · rw [Cut.score_best_of_forall (not_exists.mp h)]
    exact hc.isSome_zero

theorem feature_pick : (pick scale names).feature =
    Feature.leading fun f => grade number (Cut.best scale (f.values names)).score := by
  have hle : ∀ f g : Feature,
      scale.le (Cut.best scale (f.values names)).score (Cut.best scale (g.values names)).score =
        true ↔ grade number (Cut.best scale (f.values names)).score ≤
          grade number (Cut.best scale (g.values names)).score :=
    fun f g => hc.le_iff_grade (isSome_score_best hc hp f) (isSome_score_best hc hp g)
  unfold pick Feature.leading
  simp only [Bool.and_eq_true, hle]
  split
  · rfl
  · split
    · rfl
    · rfl

theorem divides_pick (h : ∃ choice, Divides names choice) : (pick scale names).Divides names ∧
    Cut.best scale ((pick scale names).feature.values names) =
      ⟨(pick scale names).threshold, cutScore scale names (pick scale names)⟩ := by
  obtain ⟨choice, hd⟩ := h
  obtain ⟨t, ht, hbest, _⟩ := best_of_divides hc hp hd
  have hfeature := feature_pick hc hp
  have hlead := Feature.grade_le_leading
    (fun f => grade number (Cut.best scale (f.values names)).score) choice.feature
  rw [← hfeature, hbest] at hlead
  have hpos := lt_of_lt_of_le (ht.grade_cutScore_pos hp) hlead
  by_cases hb : ∃ v, Cut.IsBoundary ((pick scale names).feature.values names) v
  · obtain ⟨v, hv⟩ := hb
    obtain ⟨u, hu, hbestu, _⟩ := best_of_divides hc hp hv
    have hthreshold : (pick scale names).threshold = u := by rw [threshold_pick, hbestu]
    have hpick : pick scale names = ⟨(pick scale names).feature, u⟩ := by rw [← hthreshold]
    rw [← hpick] at hu hbestu
    exact ⟨hu, hthreshold ▸ hbestu⟩
  · rw [Cut.score_best_of_forall (not_exists.mp hb), hc.grade_zero] at hpos
    exact absurd hpos (lt_irrefl _)

/-- No choice divides the names with a higher score than the one that is picked, and a preferred
one does so with a lower score. -/
theorem grade_cutScore_le_pick {choice : SplitChoice} (h : choice.Divides names) :
    grade number (cutScore scale names choice) ≤
        grade number (cutScore scale names (pick scale names)) ∧
      (choice.feature < (pick scale names).feature ∨
          choice.feature = (pick scale names).feature ∧
            choice.threshold < (pick scale names).threshold →
        grade number (cutScore scale names choice) <
          grade number (cutScore scale names (pick scale names))) := by
  obtain ⟨t, ht, hbest, hle, hlt⟩ := best_of_divides hc hp h
  obtain ⟨_, hpick⟩ := divides_pick hc hp ⟨choice, h⟩
  have hfeature := feature_pick hc hp
  have hlead := Feature.grade_le_leading
    (fun f => grade number (Cut.best scale (f.values names)).score) choice.feature
  have hstrict := Feature.grade_lt_leading (f := choice.feature)
    (fun f => grade number (Cut.best scale (f.values names)).score)
  rw [← hfeature, hbest, hpick] at hlead hstrict
  refine ⟨hle.trans hlead, ?_⟩
  rintro (hpreferred | ⟨hsame, hsmaller⟩)
  · exact lt_of_le_of_lt hle (hstrict hpreferred)
  · rw [hsame, hpick] at hbest
    have hthreshold : (pick scale names).threshold = t := congrArg Cut.threshold hbest
    exact lt_of_lt_of_le (hlt (hthreshold ▸ hsmaller)) hlead

end Scores

end SplitChoice
end DispatchTree

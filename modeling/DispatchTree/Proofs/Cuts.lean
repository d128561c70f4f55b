import Mathlib.Algebra.GroupWithZero.Nat
import Mathlib.Order.Lattice
import DispatchTree.Cut
/-! The best cut of a column.
A boundary of a column is a value that some other value exceeds, and the search visits every
boundary once, in ascending order, with the number of entries at or below it.  Where scores are
numbers it stops at the first boundary of the highest score. -/
namespace DispatchTree

namespace Evenness

variable {α β : Type}

/-- The number that a score stands for. -/
def grade [Zero β] (number : α → Option β) (score : α) : β := (number score).getD 0

theorem number_eq_grade [Zero β] {number : α → Option β} {score : α}
    (h : (number score).isSome = true) : number score = some (grade number score) := by
  obtain ⟨x, hx⟩ := Option.isSome_iff_exists.mp h
  simp [grade, hx]

variable [LinearOrder β] [Zero β]

/-- Scores compare as the numbers that they stand for, and a score that stands for no number is
neither below nor above any other; the score of a list that is not cut stands for zero. -/
structure ComparesAs (scale : Evenness α) (number : α → Option β) : Prop where
  lt_iff : ∀ a b, scale.lt a b = true ↔ ∃ x ∈ number a, ∃ y ∈ number b, x < y
  le_iff : ∀ a b, scale.le a b = true ↔ ∃ x ∈ number a, ∃ y ∈ number b, x ≤ y
  zero : number scale.zero = some 0

/-- The score of every cut of at most so many names, with some on both sides, is a positive
number. -/
def IsPositive (scale : Evenness α) (number : α → Option β) (most : Nat) : Prop :=
  ∀ left total, 0 < left → left < total → total ≤ most →
    ∃ x ∈ number (scale.score left total), 0 < x

/-- The cuts of a list of at most so many names are ranked by what they leave on the smaller
side. -/
def RanksBySmallerSide {α : Type} (scale : Evenness α) (most : Nat) : Prop :=
  ∀ left other total, 0 < left → left < total → 0 < other → other < total → total ≤ most →
    (scale.lt (scale.score left total) (scale.score other total) = true ↔
      min left (total - left) < min other (total - other))

section Grade

variable {scale : Evenness α} {number : α → Option β} {a b : α}

theorem ComparesAs.lt_iff_grade (hc : scale.ComparesAs number) (ha : (number a).isSome = true)
    (hb : (number b).isSome = true) :
    scale.lt a b = true ↔ grade number a < grade number b := by
  rw [hc.lt_iff, number_eq_grade ha, number_eq_grade hb]
  simp

theorem ComparesAs.le_iff_grade (hc : scale.ComparesAs number) (ha : (number a).isSome = true)
    (hb : (number b).isSome = true) :
    scale.le a b = true ↔ grade number a ≤ grade number b := by
  rw [hc.le_iff, number_eq_grade ha, number_eq_grade hb]
  simp

theorem ComparesAs.isSome_zero (hc : scale.ComparesAs number) :
    (number scale.zero).isSome = true := by simp [hc.zero]

theorem ComparesAs.grade_zero (hc : scale.ComparesAs number) : grade number scale.zero = 0 := by
  simp [grade, hc.zero]

theorem IsPositive.mono {most fewer : Nat} (hp : scale.IsPositive number most)
    (h : fewer ≤ most) : scale.IsPositive number fewer :=
  fun left total hl ht hle => hp left total hl ht (hle.trans h)

theorem RanksBySmallerSide.mono {most fewer : Nat} (hr : scale.RanksBySmallerSide most)
    (h : fewer ≤ most) : scale.RanksBySmallerSide fewer :=
  fun left other total hl ht ho hot hle => hr left other total hl ht ho hot (hle.trans h)

theorem IsPositive.isSome {left total : Nat} (hp : scale.IsPositive number total)
    (hl : 0 < left) (ht : left < total) :
    (number (scale.score left total)).isSome = true := by
  obtain ⟨x, hx, _⟩ := hp left total hl ht (le_refl total)
  exact Option.isSome_iff_exists.mpr ⟨x, hx⟩

theorem IsPositive.grade_pos {left total : Nat} (hp : scale.IsPositive number total)
    (hl : 0 < left) (ht : left < total) : 0 < grade number (scale.score left total) := by
  obtain ⟨x, hx, hpos⟩ := hp left total hl ht (le_refl total)
  simpa [grade, Option.mem_def.mp hx] using hpos

end Grade

theorem smallerSide_comparesAs : smallerSide.ComparesAs (some : Nat → Option Nat) where
  lt_iff a b := by simp [smallerSide]
  le_iff a b := by simp [smallerSide]
  zero := rfl

theorem smallerSide_isPositive (most : Nat) :
    smallerSide.IsPositive (some : Nat → Option Nat) most := by
  intro left total hl ht _
  exact ⟨_, rfl, lt_min hl (Nat.sub_pos_of_lt ht)⟩

end Evenness

namespace Cut

/-- A value of the column that some other value exceeds. -/
def IsBoundary (column : List Nat) (v : Nat) : Prop := v ∈ column ∧ ∃ w ∈ column, v < w

def countUpTo (column : List Nat) (v : Nat) : Nat := column.countP (· ≤ v)

theorem IsBoundary.perm {column other : List Nat} (h : column.Perm other) {v : Nat} :
    IsBoundary column v ↔ IsBoundary other v := by
  simp only [IsBoundary, h.mem_iff]

theorem countUpTo_perm {column other : List Nat} (h : column.Perm other) (v : Nat) :
    countUpTo column v = countUpTo other v := h.countP_eq _

theorem IsBoundary.countUpTo_pos {column : List Nat} {v : Nat} (h : IsBoundary column v) :
    0 < countUpTo column v :=
  List.countP_pos_iff.mpr ⟨v, h.1, by simp⟩

theorem IsBoundary.countUpTo_lt {column : List Nat} {v : Nat} (h : IsBoundary column v) :
    countUpTo column v < column.length := by
  obtain ⟨_, w, hw, hlt⟩ := h
  have hle : countUpTo column v ≤ column.length := List.countP_le_length
  apply Nat.lt_of_le_of_ne hle
  intro heq
  have hall := List.countP_eq_length.mp heq w hw
  simp at hall
  omega

section Ascending

variable {a v : Nat} {column : List Nat}

theorem isBoundary_cons (h : ∀ w ∈ column, a ≤ w) : IsBoundary (a :: column) v ↔
    (v = a ∧ ∃ w ∈ column, a < w) ∨ IsBoundary column v := by
  constructor
  · rintro ⟨hv, w, hw, hlt⟩
    have hav : a ≤ v := by
      rcases List.mem_cons.mp hv with rfl | hmem
      · exact Nat.le_refl v
      · exact h v hmem
    have hwmem : w ∈ column := by
      rcases List.mem_cons.mp hw with rfl | hmem
      · omega
      · exact hmem
    rcases List.mem_cons.mp hv with rfl | hmem
    · exact Or.inl ⟨rfl, w, hwmem, hlt⟩
    · exact Or.inr ⟨hmem, w, hwmem, hlt⟩
  · rintro (⟨rfl, w, hw, hlt⟩ | ⟨hv, w, hw, hlt⟩)
    · exact ⟨List.mem_cons_self .., w, List.mem_cons_of_mem _ hw, hlt⟩
    · exact ⟨List.mem_cons_of_mem _ hv, w, List.mem_cons_of_mem _ hw, hlt⟩

theorem countUpTo_cons (h : a ≤ v) : countUpTo (a :: column) v = countUpTo column v + 1 := by
  simp [countUpTo, h]

theorem countUpTo_eq_zero (h : ∀ w ∈ column, v < w) : countUpTo column v = 0 := by
  refine List.countP_eq_zero.mpr fun w hw => ?_
  have := h w hw
  simpa using this

end Ascending

/-- The walk over an ascending column meets its boundaries, each with the entries up to it. -/
theorem mem_boundaries {column : List Nat} (h : column.Pairwise (· ≤ ·)) {consumed v k : Nat} :
    (v, k) ∈ boundaries consumed column ↔
      IsBoundary column v ∧ k = consumed + countUpTo column v := by
  fun_induction boundaries consumed column with
  | case1 => simp [IsBoundary]
  | case2 consumed a =>
    simp only [List.not_mem_nil, false_iff, not_and]
    rintro ⟨hv, w, hw, hlt⟩
    rw [List.mem_singleton.mp hv, List.mem_singleton.mp hw] at hlt
    omega
  | case3 consumed a rest ih =>
    obtain ⟨hle, htail⟩ := List.pairwise_cons.mp h
    have hcount : ∀ v, a ≤ v → countUpTo (a :: a :: rest) v = countUpTo (a :: rest) v + 1 :=
      fun v hv => countUpTo_cons hv
    rw [ih htail, isBoundary_cons hle]
    constructor
    · rintro ⟨hb, rfl⟩
      exact ⟨Or.inr hb, by rw [hcount v (hle v hb.1)]; omega⟩
    · rintro ⟨⟨rfl, w, hw, hlt⟩ | hb, rfl⟩
      · exact ⟨⟨List.mem_cons_self .., w, hw, hlt⟩, by rw [hcount v (Nat.le_refl v)]; omega⟩
      · exact ⟨hb, by rw [hcount v (hle v hb.1)]; omega⟩
  | case4 consumed a b rest hne ih =>
    obtain ⟨hle, htail⟩ := List.pairwise_cons.mp h
    have hab : a < b := Nat.lt_of_le_of_ne (hle b (List.mem_cons_self ..)) hne
    have hlt : ∀ w ∈ b :: rest, a < w := by
      intro w hw
      rcases List.mem_cons.mp hw with rfl | hw
      · exact hab
      · exact Nat.lt_of_lt_of_le hab ((List.pairwise_cons.mp htail).1 w hw)
    have hcount : ∀ v, a ≤ v → countUpTo (a :: b :: rest) v = countUpTo (b :: rest) v + 1 :=
      fun v hv => countUpTo_cons hv
    have hfirst : countUpTo (a :: b :: rest) a = 1 := by
      rw [hcount a (Nat.le_refl a), countUpTo_eq_zero hlt]
    rw [List.mem_cons, ih htail, isBoundary_cons hle, Prod.mk.injEq]
    constructor
    · rintro (⟨rfl, rfl⟩ | ⟨hb, rfl⟩)
      · exact ⟨Or.inl ⟨rfl, b, List.mem_cons_self .., hab⟩, by rw [hfirst]⟩
      · exact ⟨Or.inr hb, by rw [hcount v (hle v hb.1)]; omega⟩
    · rintro ⟨⟨rfl, _⟩ | hb, rfl⟩
      · exact Or.inl ⟨rfl, by rw [hfirst]⟩
      · exact Or.inr ⟨hb, by rw [hcount v (hle v hb.1)]; omega⟩

theorem pairwise_boundaries {column : List Nat} (h : column.Pairwise (· ≤ ·)) (consumed : Nat) :
    (boundaries consumed column).Pairwise fun a b => a.1 < b.1 := by
  fun_induction boundaries consumed column with
  | case1 => exact .nil
  | case2 => exact .nil
  | case3 consumed a rest ih => exact ih (List.pairwise_cons.mp h).2
  | case4 consumed a b rest hne ih =>
    obtain ⟨hle, htail⟩ := List.pairwise_cons.mp h
    have hab : a < b := Nat.lt_of_le_of_ne (hle b (List.mem_cons_self ..)) hne
    refine List.pairwise_cons.mpr ⟨?_, ih htail⟩
    rintro ⟨v, k⟩ hv
    have hmem := ((mem_boundaries htail).mp hv).1.1
    rcases List.mem_cons.mp hmem with rfl | hmem
    · exact hab
    · exact Nat.lt_of_lt_of_le hab ((List.pairwise_cons.mp htail).1 v hmem)

section Search

variable {α β : Type} [LinearOrder β] [Zero β] {scale : Evenness α} {number : α → Option β}

open Evenness

/-- The search over a list of places keeps what it started with where no place is better, and stops
at the first of the best places otherwise. -/
theorem foldl_improve_cases (hc : scale.ComparesAs number) {total : Nat}
    {places : List (Nat × Nat)}
    (hp : ∀ p ∈ places, (number (scale.score p.2 total)).isSome = true) (start : Cut α)
    (hs : (number start.score).isSome = true) :
    (places.foldl (improve scale total) start = start ∧
      ∀ p ∈ places, grade number (scale.score p.2 total) ≤ grade number start.score) ∨
    ∃ front p back, places = front ++ p :: back ∧
      places.foldl (improve scale total) start = ⟨p.1, scale.score p.2 total⟩ ∧
      grade number start.score < grade number (scale.score p.2 total) ∧
      (∀ q ∈ front, grade number (scale.score q.2 total) < grade number (scale.score p.2 total)) ∧
      ∀ q ∈ back, grade number (scale.score q.2 total) ≤ grade number (scale.score p.2 total) := by
  induction places generalizing start with
  | nil => exact Or.inl ⟨rfl, by simp⟩
  | cons first rest ih =>
    have hfirst := hp first (List.mem_cons_self ..)
    have hrest := fun p hm => hp p (List.mem_cons_of_mem first hm)
    have hlt := hc.lt_iff_grade hs hfirst
    rw [List.foldl_cons]
    by_cases hbetter : scale.lt start.score (scale.score first.2 total) = true
    · have hi : improve scale total start first = ⟨first.1, scale.score first.2 total⟩ :=
        if_pos hbetter
      rw [hi]
      right
      rcases ih hrest ⟨first.1, scale.score first.2 total⟩ hfirst with
        ⟨hfold, hle⟩ | ⟨front, p, back, rfl, hfold, hgt, hfront, hback⟩
      · exact ⟨[], first, rest, rfl, hfold, hlt.mp hbetter, by simp, hle⟩
      · refine ⟨first :: front, p, back, rfl, hfold, (hlt.mp hbetter).trans hgt, ?_, hback⟩
        intro q hq
        rcases List.mem_cons.mp hq with rfl | hq
        · exact hgt
        · exact hfront q hq
    · have hi : improve scale total start first = start := if_neg hbetter
      have hno := not_lt.mp (mt hlt.mpr hbetter)
      rw [hi]
      rcases ih hrest start hs with ⟨hfold, hle⟩ | ⟨front, p, back, rfl, hfold, hgt, hfront, hback⟩
      · refine Or.inl ⟨hfold, ?_⟩
        intro q hq
        rcases List.mem_cons.mp hq with rfl | hq
        · exact hno
        · exact hle q hq
      · refine Or.inr ⟨first :: front, p, back, rfl, hfold, hgt, ?_, hback⟩
        intro q hq
        rcases List.mem_cons.mp hq with rfl | hq
        · exact lt_of_le_of_lt hno hgt
        · exact hfront q hq

theorem pairwise_mergeSort_le (column : List Nat) : column.mergeSort.Pairwise (· ≤ ·) := by
  have h : column.mergeSort.Pairwise fun a b => decide (a ≤ b) = true :=
    List.pairwise_mergeSort (fun a b c hab hbc => by simp at hab hbc ⊢; omega)
      (fun a b => by simp; omega) column
  simpa using h

theorem best_of_pairwise (scale : Evenness α) {column : List Nat}
    (h : column.Pairwise (· ≤ ·)) : best scale column = ofSorted scale column := by
  rw [best, List.mergeSort_of_pairwise (by simpa using h)]

theorem threshold_foldl_improve (scale : Evenness α) (total : Nat) (places : List (Nat × Nat))
    (start : Cut α) :
    (places.foldl (improve scale total) start).threshold = start.threshold ∨
      ∃ p ∈ places, (places.foldl (improve scale total) start).threshold = p.1 := by
  induction places generalizing start with
  | nil => exact Or.inl rfl
  | cons first rest ih =>
    rw [List.foldl_cons]
    have hstep : (improve scale total start first).threshold = start.threshold ∨
        (improve scale total start first).threshold = first.1 := by
      by_cases h : scale.lt start.score (scale.score first.2 total) = true
      · exact Or.inr (congrArg threshold (if_pos h))
      · exact Or.inl (congrArg threshold (if_neg h))
    rcases ih (improve scale total start first) with hend | ⟨p, hp, hend⟩
    · rcases hstep with hstep | hstep
      · exact Or.inl (hend.trans hstep)
      · exact Or.inr ⟨first, List.mem_cons_self .., hend.trans hstep⟩
    · exact Or.inr ⟨p, List.mem_cons_of_mem _ hp, hend⟩

theorem threshold_best_mem (scale : Evenness α) {column : List Nat} (h : column ≠ []) :
    (best scale column).threshold ∈ column := by
  have hperm : column.mergeSort.Perm column := List.mergeSort_perm column _
  have hne : column.mergeSort ≠ [] := fun hnil => h (hnil ▸ hperm).nil_eq.symm
  rw [best, ofSorted, ← hperm.mem_iff]
  rcases threshold_foldl_improve scale column.mergeSort.length (boundaries 0 column.mergeSort)
    ⟨column.mergeSort.headD 0, scale.zero⟩ with hend | ⟨⟨v, k⟩, hv, hend⟩
  · obtain ⟨a, rest, hsorted⟩ := List.exists_cons_of_ne_nil hne
    rw [hend, hsorted]
    exact List.mem_cons_self ..
  · rw [hend]
    exact ((mem_boundaries (pairwise_mergeSort_le column)).mp hv).1.1

theorem score_best_of_forall {column : List Nat} (h : ∀ v, ¬ IsBoundary column v) :
    (best scale column).score = scale.zero := by
  have hnil : boundaries 0 column.mergeSort = [] := by
    refine List.eq_nil_iff_forall_not_mem.mpr ?_
    rintro ⟨v, k⟩ hv
    have hb := ((mem_boundaries (pairwise_mergeSort_le column)).mp hv).1
    exact h v ((IsBoundary.perm (List.mergeSort_perm column _)).mp hb)
  simp [best, ofSorted, hnil]

/-- The best cut of a column with boundaries is at one of them, no other has a higher score, and
every smaller one has a lower score. -/
theorem best_of_isBoundary (hc : scale.ComparesAs number) {column : List Nat}
    (hp : scale.IsPositive number column.length) (h : ∃ v, IsBoundary column v) :
    ∃ v, IsBoundary column v ∧
      best scale column = ⟨v, scale.score (countUpTo column v) column.length⟩ ∧
      (∀ u, IsBoundary column u → grade number (scale.score (countUpTo column u) column.length) ≤
        grade number (scale.score (countUpTo column v) column.length)) ∧
      ∀ u, IsBoundary column u → u < v →
        grade number (scale.score (countUpTo column u) column.length) <
          grade number (scale.score (countUpTo column v) column.length) := by
  have hperm : column.mergeSort.Perm column := List.mergeSort_perm column _
  have hsorted := pairwise_mergeSort_le column
  have hmem : ∀ {v k}, (v, k) ∈ boundaries 0 column.mergeSort ↔
      IsBoundary column v ∧ k = countUpTo column v := by
    intro v k
    rw [mem_boundaries hsorted, IsBoundary.perm hperm, countUpTo_perm hperm, Nat.zero_add]
  have hplaces : ∀ p ∈ boundaries 0 column.mergeSort,
      (number (scale.score p.2 column.mergeSort.length)).isSome = true := by
    rintro ⟨v, k⟩ hv
    obtain ⟨hb, rfl⟩ := hmem.mp hv
    rw [hperm.length_eq]
    exact hp.isSome hb.countUpTo_pos hb.countUpTo_lt
  rcases foldl_improve_cases hc hplaces ⟨column.mergeSort.headD 0, scale.zero⟩
    hc.isSome_zero with ⟨_, hle⟩ | ⟨front, ⟨v, k⟩, back, hsplit, hfold, _, hfront, hback⟩
  · obtain ⟨u, hu⟩ := h
    have hle := hle (u, countUpTo column u) (hmem.mpr ⟨hu, rfl⟩)
    have hpos := hp.grade_pos hu.countUpTo_pos hu.countUpTo_lt
    rw [hc.grade_zero, hperm.length_eq] at hle
    exact absurd hpos (not_lt.mpr hle)
  · have hv : (v, k) ∈ boundaries 0 column.mergeSort := by simp [hsplit]
    obtain ⟨hb, rfl⟩ := hmem.mp hv
    have hascending := pairwise_boundaries hsorted 0
    rw [hsplit] at hascending
    have hafter := (List.pairwise_cons.mp (List.pairwise_append.mp hascending).2.1).1
    rw [hperm.length_eq] at hfold hfront hback
    have hplace : ∀ u, IsBoundary column u → (u, countUpTo column u) ∈ front ∨ u = v ∨
        (u, countUpTo column u) ∈ back := by
      intro u hu
      have hm := hmem.mpr ⟨hu, rfl⟩
      rw [hsplit, List.mem_append, List.mem_cons, Prod.mk.injEq] at hm
      rcases hm with hm | ⟨rfl, _⟩ | hm
      · exact Or.inl hm
      · exact Or.inr (Or.inl rfl)
      · exact Or.inr (Or.inr hm)
    refine ⟨v, hb, ?_, ?_, ?_⟩
    · rw [best, ofSorted, hperm.length_eq, hfold]
    · intro u hu
      rcases hplace u hu with hm | rfl | hm
      · exact (hfront _ hm).le
      · exact le_refl _
      · exact hback _ hm
    · intro u hu hlt
      rcases hplace u hu with hm | rfl | hm
      · exact hfront _ hm
      · exact absurd hlt (Nat.lt_irrefl u)
      · exact absurd (hafter _ hm) (Nat.lt_asymm hlt)

end Search

end Cut
end DispatchTree

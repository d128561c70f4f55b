import Mathlib.Data.Finset.Lattice.Fold
import Mathlib.Order.Directed
import DispatchTree.Proofs.Classes
import DispatchTree.Proofs.ExactEntropy
/-! Balance of a grown tree.
Where scores rank the cuts of a list by the smaller side, a split leaves few names on one side only
if most of the names are alike.  Names that are no two alike are therefore split into parts of about
a sixth at least, and the height of their tree is logarithmic. -/
namespace DispatchTree

theorem countP_le_countP_add_countP {α : Type} {p q r : α → Bool} {l : List α}
    (h : ∀ x ∈ l, p x = true → q x = true ∨ r x = true) : l.countP p ≤ l.countP q + l.countP r := by
  induction l with
  | nil => simp
  | cons x rest ih =>
    have hrest := ih fun y hy => h y (List.mem_cons_of_mem x hy)
    have hx := h x (List.mem_cons_self ..)
    simp only [List.countP_cons]
    cases hp : p x with
    | false =>
      rw [if_neg Bool.false_ne_true]
      omega
    | true =>
      rcases hx hp with hq | hr
      · rw [if_pos rfl, if_pos hq]
        omega
      · rw [if_pos rfl, if_pos hr]
        omega

namespace Cut

theorem countUpTo_add_countP_lt (column : List Nat) (v : Nat) :
    countUpTo column v + column.countP (v < ·) = column.length := by
  rw [List.length_eq_countP_add_countP (fun w => decide (w ≤ v)), countUpTo]
  simp

theorem exists_crossing {column : List Nat} {k : Nat} (h : k < column.length) :
    ∃ v ∈ column, k < countUpTo column v ∧ column.countP (· < v) ≤ k := by
  obtain ⟨top, htop⟩ := column.toFinset.exists_le
  have hreach : ∃ v, k < countUpTo column v := by
    refine ⟨top, ?_⟩
    have hall : countUpTo column top = column.length :=
      List.countP_eq_length.mpr fun w hw => by simpa using htop w (List.mem_toFinset.mpr hw)
    omega
  obtain ⟨v, hv, hfirst⟩ : ∃ v, k < countUpTo column v ∧ ∀ u < v, countUpTo column u ≤ k :=
    ⟨Nat.find hreach, Nat.find_spec hreach, fun u hu => not_lt.mp (Nat.find_min hreach hu)⟩
  have hbelow : column.countP (· < v) ≤ k := by
    cases v with
    | zero => simp
    | succ u =>
      have hu := hfirst u (Nat.lt_succ_self u)
      simpa only [countUpTo, Nat.lt_succ_iff] using hu
  refine ⟨v, ?_, hv, hbelow⟩
  by_contra hno
  have hle : countUpTo column v ≤ column.countP (· < v) := by
    refine List.countP_mono_left fun w hw hwv => ?_
    have hne : w ≠ v := fun heq => hno (heq ▸ hw)
    have hle : w ≤ v := by simpa using hwv
    simpa using lt_of_le_of_ne hle hne
  omega

/-- Where every cut leaves at most so many entries on one side, all but twice as many are equal. -/
theorem exists_countP_ne_le {column : List Nat} {k : Nat} (h : ∀ v, IsBoundary column v →
    min (countUpTo column v) (column.length - countUpTo column v) ≤ k) :
    ∃ v, column.countP (· ≠ v) ≤ 2 * k := by
  by_cases hsmall : column.length ≤ k
  · have hle : column.countP (· ≠ 0) ≤ column.length := List.countP_le_length
    exact ⟨0, by omega⟩
  obtain ⟨v, hmem, hv, hbelow⟩ := exists_crossing (not_le.mp hsmall)
  have hsplit := countUpTo_add_countP_lt column v
  have habove : column.countP (v < ·) ≤ k := by
    by_cases hlast : ∃ w ∈ column, v < w
    · have hmin := h v ⟨hmem, hlast⟩
      omega
    · have hzero : column.countP (v < ·) = 0 :=
        List.countP_eq_zero.mpr fun w hw hvw => hlast ⟨w, hw, by simpa using hvw⟩
      omega
  have hsides : column.countP (· ≠ v) ≤ column.countP (· < v) + column.countP (v < ·) :=
    countP_le_countP_add_countP fun w _ hw => by simpa using lt_or_gt_of_ne (by simpa using hw)
  exact ⟨v, by omega⟩

end Cut

/-- The size of a largest class of alike names. -/
def mostAlike (names : List String) : Nat :=
  names.toFinset.sup fun name => (alike names name).length

theorem length_alike_le_mostAlike {names : List String} {name : String} (h : name ∈ names) :
    (alike names name).length ≤ mostAlike names :=
  Finset.le_sup (f := fun name => (alike names name).length) (List.mem_toFinset.mpr h)

theorem mostAlike_perm {names others : List String} (h : names.Perm others) :
    mostAlike names = mostAlike others := by
  rw [mostAlike, mostAlike, List.toFinset_eq_of_perm _ _ h]
  refine Finset.sup_congr rfl fun name _ => ?_
  exact (h.filter _).length_eq

theorem mostAlike_le_one {names : List String} (h : (names.map probes).Nodup) :
    mostAlike names ≤ 1 := by
  refine Finset.sup_le fun name _ => ?_
  have hcount := List.nodup_iff_count_le_one.mp h (probes name)
  rw [List.count, List.countP_map, List.countP_eq_length_filter] at hcount
  refine le_of_eq_of_le (congrArg List.length (List.filter_congr fun other _ => ?_)) hcount
  simp [Bool.beq_eq_decide_eq]

theorem countP_probes_ne_le {names : List String} {k : Nat} {usual : Feature → Nat}
    (h : ∀ f : Feature, names.countP (f.value · ≠ usual f) ≤ k) :
    names.countP (probes · ≠ (usual .length, usual .firstChar, usual .lastChar)) ≤ 3 * k := by
  have hchars : names.countP (fun name => Feature.firstChar.value name ≠ usual .firstChar ∨
      Feature.lastChar.value name ≠ usual .lastChar) ≤ k + k :=
    (countP_le_countP_add_countP fun name _ hname => by simpa using hname).trans
      (Nat.add_le_add (h .firstChar) (h .lastChar))
  have hall : names.countP (probes · ≠ (usual .length, usual .firstChar, usual .lastChar)) ≤
      k + (k + k) := by
    refine (countP_le_countP_add_countP fun name _ hname => ?_).trans
      (Nat.add_le_add (h .length) hchars)
    rw [decide_eq_true_eq, probes, ne_eq, Prod.mk.injEq, Prod.mk.injEq] at hname
    rw [decide_eq_true_eq, decide_eq_true_eq]
    tauto
  omega

/-- Where every probe shows one value on all but a few names, all but three times as many names are
alike. -/
theorem length_le_mostAlike_add {names : List String} {k : Nat}
    (h : ∀ f : Feature, ∃ v, names.countP (f.value · ≠ v) ≤ k) :
    names.length ≤ mostAlike names + 3 * k := by
  choose usual husual using h
  let key := (usual .length, usual .firstChar, usual .lastChar)
  have hodd : names.countP (probes · ≠ key) ≤ 3 * k := countP_probes_ne_le husual
  have hsplit : names.length = names.countP (probes · = key) + names.countP (probes · ≠ key) := by
    rw [List.length_eq_countP_add_countP (fun name => decide (probes name = key))]
    simp
  have hclass : names.countP (probes · = key) ≤ mostAlike names := by
    by_cases hsome : ∃ name ∈ names, probes name = key
    · obtain ⟨name, hn, hname⟩ := hsome
      have hlarge := length_alike_le_mostAlike hn
      rwa [alike, hname, ← List.countP_eq_length_filter] at hlarge
    · have hzero : names.countP (probes · = key) = 0 :=
        List.countP_eq_zero.mpr fun name hn hname => hsome ⟨name, hn, by simpa using hname⟩
      omega
  omega

namespace SplitChoice

variable {α β : Type} [LinearOrder β] [Zero β] {scale : Evenness α} {number : α → Option β}
  {names : List String}

def smallerSide (choice : SplitChoice) (names : List String) : Nat :=
  min (choice.lower names).length (choice.upper names).length

theorem smallerSide_eq_min_sub (choice : SplitChoice) (names : List String) :
    choice.smallerSide names =
      min (choice.lower names).length (names.length - (choice.lower names).length) := by
  rw [smallerSide, ← choice.length_lower_add_length_upper names, Nat.add_sub_cancel_left]

variable (hc : scale.ComparesAs number) (hp : scale.IsPositive number names.length)
  (hr : scale.RanksBySmallerSide names.length)

include hc hp hr

theorem smallerSide_le_pick {choice : SplitChoice} (h : choice.Divides names) :
    choice.smallerSide names ≤ (pick scale names).smallerSide names := by
  have hpick := (divides_pick hc hp ⟨choice, h⟩).1
  have hle := (grade_cutScore_le_pick hc hp h).1
  rw [smallerSide_eq_min_sub, smallerSide_eq_min_sub]
  by_contra hgt
  have hlt := (hr _ _ _ hpick.length_lower_pos hpick.length_lower_lt h.length_lower_pos
    h.length_lower_lt (le_refl _)).mpr (not_le.mp hgt)
  rw [hc.lt_iff_grade (hp.isSome hpick.length_lower_pos hpick.length_lower_lt)
    (hp.isSome h.length_lower_pos h.length_lower_lt)] at hlt
  exact absurd hlt (not_lt.mpr hle)

theorem length_le_mostAlike_add_pick :
    names.length ≤ mostAlike names + 6 * (pick scale names).smallerSide names := by
  have husual : ∀ f : Feature, ∃ v,
      names.countP (f.value · ≠ v) ≤ 2 * (pick scale names).smallerSide names := by
    intro f
    have hcuts : ∀ v, Cut.IsBoundary (f.values names) v →
        min (Cut.countUpTo (f.values names) v)
          ((f.values names).length - Cut.countUpTo (f.values names) v) ≤
        (pick scale names).smallerSide names := by
      intro v hv
      have hside := smallerSide_le_pick hc hp hr (show Divides names ⟨f, v⟩ from hv)
      rwa [smallerSide_eq_min_sub, length_lower, ← Feature.length_values f names] at hside
    obtain ⟨v, hv⟩ := Cut.exists_countP_ne_le hcuts
    refine ⟨v, ?_⟩
    rwa [Feature.values, List.countP_map] at hv
  have hall := length_le_mostAlike_add husual
  omega

theorem length_le_one_add_pick (hd : (names.map probes).Nodup) :
    names.length ≤ 1 + 6 * (pick scale names).smallerSide names := by
  have hall := length_le_mostAlike_add_pick hc hp hr
  have hone := mostAlike_le_one hd
  omega

end SplitChoice

namespace Tree

section Grow

variable {α β : Type} {scale : Evenness α}

theorem numNames_grow (names : List String) : (grow scale names).numNames = names.length := by
  rw [numNames_eq_length, (perm_names_grow names).length_eq]

/-- One more level above a part that holds at most five sixths of the other names. -/
theorem pow_le_of_part {h part whole : Nat} (hpart : 6 * (part - 1) ≤ 5 * (whole - 1))
    (hwhole : 2 ≤ whole) (ih : h ≠ 0 → 6 ^ (h - 1) ≤ 5 ^ (h - 1) * (part - 1)) :
    6 ^ h ≤ 5 ^ h * (whole - 1) := by
  cases h with
  | zero =>
    rw [pow_zero, pow_zero]
    omega
  | succ h =>
    have ih := ih (Nat.succ_ne_zero h)
    rw [Nat.add_sub_cancel] at ih
    calc 6 ^ (h + 1) = 6 * 6 ^ h := Nat.pow_succ'
      _ ≤ 6 * (5 ^ h * (part - 1)) := Nat.mul_le_mul_left 6 ih
      _ = 5 ^ h * (6 * (part - 1)) := by ring
      _ ≤ 5 ^ h * (5 * (whole - 1)) := Nat.mul_le_mul_left _ hpart
      _ = 5 ^ (h + 1) * (whole - 1) := by ring

variable [LinearOrder β] [Zero β] {number : α → Option β} {names : List String}
  (hc : scale.ComparesAs number) (hp : scale.IsPositive number names.length)
  (hr : scale.RanksBySmallerSide names.length)

include hc hp hr

theorem numNames_le_of_mem_subtrees {f : Feature} {t : Nat} {l r : Tree}
    (h : split f t l r ∈ (grow scale names).subtrees) : (split f t l r).numNames ≤
      mostAlike (split f t l r).names + 6 * min l.numNames r.numNames := by
  obtain ⟨part, hpart⟩ := eq_grow_of_mem_subtrees h
  have hlength := length_le_of_grow_mem_subtrees (hpart ▸ h)
  obtain ⟨hpick, _, _, rfl, rfl⟩ := grow_eq_split_iff.mp hpart.symm
  rw [hpart, mostAlike_perm (perm_names_grow part)]
  simp only [numNames_grow, ← hpick]
  exact SplitChoice.length_le_mostAlike_add_pick hc (hp.mono hlength) (hr.mono hlength)

theorem pow_height_le (hd : (names.map probes).Nodup) (h : (grow scale names).height ≠ 0) :
    6 ^ ((grow scale names).height - 1) ≤
      5 ^ ((grow scale names).height - 1) * (names.length - 1) := by
  induction names using grow_induction scale with
  | whole names hw =>
    rw [grow_leaf hw] at h
    exact absurd rfl h
  | parts names hl hu ihl ihu =>
    have hside := SplitChoice.length_le_one_add_pick hc hp hr hd
    rw [SplitChoice.smallerSide] at hside
    have hsum := (SplitChoice.pick scale names).length_lower_add_length_upper names
    have hlower := List.length_pos_iff.mpr hl
    have hupper := List.length_pos_iff.mpr hu
    have hsub (p : String → Bool) : ((names.filter p).map probes).Nodup :=
      hd.sublist (List.filter_sublist.map probes)
    rw [grow_split hl hu, height_split, Nat.add_sub_cancel_left]
    rcases max_choice (grow scale ((SplitChoice.pick scale names).lower names)).height
        (grow scale ((SplitChoice.pick scale names).upper names)).height with hmax | hmax
    · have hle := (SplitChoice.length_lower_lt _ hu).le
      rw [hmax]
      exact pow_le_of_part (by omega) (by omega) (ihl (hp.mono hle) (hr.mono hle) (hsub _))
    · have hle := (SplitChoice.length_upper_lt _ hl).le
      rw [hmax]
      exact pow_le_of_part (by omega) (by omega) (ihu (hp.mono hle) (hr.mono hle) (hsub _))

theorem height_grow_pos (hd : (names.map probes).Nodup) (hlen : 2 ≤ names.length) :
    (grow scale names).height ≠ 0 := by
  have hside := SplitChoice.length_le_one_add_pick hc hp hr hd
  rw [SplitChoice.smallerSide] at hside
  have hl : (SplitChoice.pick scale names).lower names ≠ [] := by
    rw [← List.length_pos_iff]
    omega
  have hu : (SplitChoice.pick scale names).upper names ≠ [] := by
    rw [← List.length_pos_iff]
    omega
  rw [grow_split hl hu, height_split]
  omega

end Grow

/-- Every split is balanced but for the names that no probe tells apart, and the tree of names that
are all told apart is shallow. -/
theorem balanced_and_shallow {α β : Type} [LinearOrder β] [Zero β] {scale : Evenness α}
    {number : α → Option β} (hc : scale.ComparesAs number) {names : List String}
    (hp : scale.IsPositive number names.length) (hr : scale.RanksBySmallerSide names.length)
    (hne : names ≠ [])
    (hnames : ∀ name ∈ names, name ≠ "" ∧ isAscii name = true) :
    ∃ tree, buildWith scale names = .ok tree ∧
      (∀ f t l r, split f t l r ∈ tree.subtrees →
        (split f t l r).numNames - mostAlike (split f t l r).names ≤
          6 * min l.numNames r.numNames) ∧
      (2 ≤ names.length → (names.map probes).Nodup → 0 < tree.height ∧
        6 ^ (tree.height - 1) ≤ 5 ^ (tree.height - 1) * (names.length - 1)) := by
  refine ⟨grow scale names, buildWith_eq_ok scale hne hnames, fun f t l r hsplit => ?_,
    fun hlen hd => ?_⟩
  · have hsides := numNames_le_of_mem_subtrees hc hp hr hsplit
    omega
  · have hheight := height_grow_pos hc hp hr hd hlen
    exact ⟨Nat.pos_of_ne_zero hheight, pow_height_le hc hp hr hd hheight⟩

end Tree

/-- Six names under exact entropy, two of each length. -/
theorem Tree.balanced_and_shallow_six :
    Evenness.exactEntropy.ComparesAs (some : ℝ → Option ℝ) ∧
      Evenness.exactEntropy.IsPositive (some : ℝ → Option ℝ) 6 ∧
      Evenness.exactEntropy.RanksBySmallerSide 6 ∧
      (∀ name ∈ ["a", "b", "ab", "cd", "abc", "xyz"], name ≠ "" ∧ isAscii name = true) ∧
      (["a", "b", "ab", "cd", "abc", "xyz"].map probes).Nodup ∧
      ∃ tree, buildWith .exactEntropy ["a", "b", "ab", "cd", "abc", "xyz"] = .ok tree ∧
        (∀ f t l r, split f t l r ∈ tree.subtrees →
          (split f t l r).numNames - mostAlike (split f t l r).names ≤
            6 * min l.numNames r.numNames) ∧
        0 < tree.height ∧ 6 ^ (tree.height - 1) ≤ 5 ^ (tree.height - 1) * 5 := by
  have hnames : ∀ name ∈ ["a", "b", "ab", "cd", "abc", "xyz"],
      name ≠ "" ∧ isAscii name = true := by decide
  have hprobes : (["a", "b", "ab", "cd", "abc", "xyz"].map probes).Nodup := by decide
  obtain ⟨tree, hbuild, hsides, hheight⟩ := balanced_and_shallow Evenness.exactEntropy_comparesAs
    (Evenness.exactEntropy_isPositive _) (Evenness.exactEntropy_ranksBySmallerSide _) (by simp)
    hnames
  exact ⟨Evenness.exactEntropy_comparesAs, Evenness.exactEntropy_isPositive 6,
    Evenness.exactEntropy_ranksBySmallerSide 6, hnames, hprobes, tree, hbuild, hsides,
    hheight (by decide) hprobes⟩

end DispatchTree

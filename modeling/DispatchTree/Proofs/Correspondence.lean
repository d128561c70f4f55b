import DispatchTree.Proofs.Classes
/-! Trees of lists that look the same.
A tree is grown from what the probes see of the names, and the order of the names does not matter:
columns are sorted before they are cut, and a choice depends on the columns alone.  So two lists
that show the same triples of probes equally often grow trees with the same splits, and the names
of corresponding leaves are selected from the two lists by the same triples. -/
namespace DispatchTree

def Feature.entry : Feature → Nat × Nat × Nat → Nat
  | length, triple => triple.1
  | firstChar, triple => triple.2.1
  | lastChar, triple => triple.2.2

theorem Feature.entry_probes (f : Feature) (name : String) :
    f.entry (probes name) = f.value name := by
  cases f <;> rfl

theorem Feature.values_eq_map_entry (f : Feature) (names : List String) :
    f.values names = (names.map probes).map f.entry := by
  rw [List.map_map, values]
  exact List.map_congr_left fun name _ => (f.entry_probes name).symm

def selected (names : List String) (triples : Nat × Nat × Nat → Bool) : List String :=
  names.filter fun name => triples (probes name)

theorem map_probes_selected (names : List String) (triples : Nat × Nat × Nat → Bool) :
    (selected names triples).map probes = (names.map probes).filter triples := by
  rw [List.filter_map]
  rfl

theorem selected_all (names : List String) : selected names (fun _ => true) = names :=
  List.filter_eq_self.mpr fun _ _ => rfl

theorem selected_selected (names : List String) (outer inner : Nat × Nat × Nat → Bool) :
    selected (selected names outer) inner =
      selected names fun triple => inner triple && outer triple :=
  List.filter_filter

namespace Cut

variable {α : Type} {scale : Evenness α}

theorem best_perm {column other : List Nat} (h : column.Perm other) :
    best scale column = best scale other := by
  have hperm : column.mergeSort.Perm other.mergeSort :=
    (List.mergeSort_perm column _).trans (h.trans (List.mergeSort_perm other _).symm)
  have hsort : column.mergeSort = other.mergeSort :=
    hperm.eq_of_pairwise (fun a b _ _ => Nat.le_antisymm) (pairwise_mergeSort_le column)
      (pairwise_mergeSort_le other)
  rw [best, best, hsort]

end Cut

namespace SplitChoice

variable {α : Type} {scale : Evenness α}

theorem lower_eq_selected (choice : SplitChoice) (names : List String) : choice.lower names =
    selected names fun triple => choice.feature.entry triple ≤ choice.threshold := by
  simp only [lower, selected, Feature.entry_probes]

theorem upper_eq_selected (choice : SplitChoice) (names : List String) : choice.upper names =
    selected names fun triple => choice.threshold < choice.feature.entry triple := by
  simp only [upper, selected, Feature.entry_probes]

section Perm

variable {names other : List String} (h : (names.map probes).Perm (other.map probes))

include h

theorem pick_perm : pick scale names = pick scale other := by
  have hbest : ∀ f : Feature,
      Cut.best scale (f.values names) = Cut.best scale (f.values other) := by
    intro f
    rw [f.values_eq_map_entry, f.values_eq_map_entry]
    exact Cut.best_perm (h.map f.entry)
  simp only [pick, hbest]

theorem map_probes_selected_perm (triples : Nat × Nat × Nat → Bool) :
    ((selected names triples).map probes).Perm ((selected other triples).map probes) := by
  rw [map_probes_selected, map_probes_selected]
  exact h.filter triples

theorem map_probes_lower_perm (choice : SplitChoice) :
    ((choice.lower names).map probes).Perm ((choice.lower other).map probes) := by
  rw [lower_eq_selected, lower_eq_selected]
  exact map_probes_selected_perm h _

theorem map_probes_upper_perm (choice : SplitChoice) :
    ((choice.upper names).map probes).Perm ((choice.upper other).map probes) := by
  rw [upper_eq_selected, upper_eq_selected]
  exact map_probes_selected_perm h _

theorem eq_nil_iff_of_perm : names = [] ↔ other = [] := by
  have hlength := h.length_eq
  rw [List.length_map, List.length_map] at hlength
  rw [← List.length_eq_zero_iff, hlength, List.length_eq_zero_iff]

theorem lower_pick_eq_nil_iff :
    (pick scale names).lower names = [] ↔ (pick scale other).lower other = [] := by
  rw [pick_perm h]
  exact eq_nil_iff_of_perm (map_probes_lower_perm h _)

theorem upper_pick_eq_nil_iff :
    (pick scale names).upper names = [] ↔ (pick scale other).upper other = [] := by
  rw [pick_perm h]
  exact eq_nil_iff_of_perm (map_probes_upper_perm h _)

end Perm
end SplitChoice

namespace Tree

/-- Two trees have the same splits, and their corresponding leaves are related. -/
inductive Corresponds (related : List String → List String → Prop) : Tree → Tree → Prop
  | leaf {names other : List String} (h : related names other) :
    Corresponds related (.leaf names) (.leaf other)
  | split {f : Feature} {t : Nat} {left left' right right' : Tree}
    (hleft : Corresponds related left left') (hright : Corresponds related right right') :
    Corresponds related (.split f t left right) (.split f t left' right')

theorem Corresponds.imp {related weaker : List String → List String → Prop}
    (himp : ∀ names other, related names other → weaker names other) {tree twin : Tree}
    (h : Corresponds related tree twin) : Corresponds weaker tree twin := by
  induction h with
  | leaf h => exact .leaf (himp _ _ h)
  | split _ _ ihl ihr => exact .split ihl ihr

section Grow

variable {α : Type} {scale : Evenness α}

theorem corresponds_grow {names other : List String}
    (h : (names.map probes).Perm (other.map probes)) :
    Corresponds (fun leaf partner => ∃ triples, leaf = selected names triples ∧
      partner = selected other triples) (grow scale names) (grow scale other) := by
  -- The second list is cut wherever the first is, since the choices agree; so the growth of the
  -- first tree is followed and the second list goes along.
  induction names using grow_induction scale generalizing other with
  | whole names hw =>
    have hw' := hw.imp (SplitChoice.lower_pick_eq_nil_iff h).mp
      (SplitChoice.upper_pick_eq_nil_iff h).mp
    rw [grow_leaf hw, grow_leaf hw']
    exact .leaf ⟨fun _ => true, (selected_all names).symm, (selected_all other).symm⟩
  | parts names hl hu ihl ihu =>
    have hl' := mt (SplitChoice.lower_pick_eq_nil_iff h).mpr hl
    have hu' := mt (SplitChoice.upper_pick_eq_nil_iff h).mpr hu
    rw [grow_split hl hu, grow_split hl' hu', ← SplitChoice.pick_perm h]
    refine .split ?_ ?_
    · refine (ihl (SplitChoice.map_probes_lower_perm h _)).imp ?_
      rintro _ _ ⟨triples, rfl, rfl⟩
      simp only [SplitChoice.lower_eq_selected, selected_selected]
      exact ⟨_, rfl, rfl⟩
    · refine (ihu (SplitChoice.map_probes_upper_perm h _)).imp ?_
      rintro _ _ ⟨triples, rfl, rfl⟩
      simp only [SplitChoice.upper_eq_selected, selected_selected]
      exact ⟨_, rfl, rfl⟩

/-- Whatever the scale, the trees of two lists that show the same triples of probes equally often
have the same splits, and corresponding leaves show the same triples equally often.  If one list is
a rearrangement of the other, corresponding leaves hold the same names, each in the order of its
list. -/
theorem shape_depends_on_probes {names other : List String} {tree twin : Tree}
    (htree : buildWith scale names = .ok tree) (htwin : buildWith scale other = .ok twin)
    (h : (names.map probes).Perm (other.map probes)) :
    tree.Corresponds (fun leaf partner => leaf.length = partner.length ∧
      (leaf.map probes).Perm (partner.map probes)) twin ∧
    (names.Perm other → tree.Corresponds (fun leaf partner => leaf.Perm partner ∧
      leaf.Sublist names ∧ partner.Sublist other) twin) := by
  rw [eq_grow_of_buildWith htree, eq_grow_of_buildWith htwin]
  refine ⟨(corresponds_grow h).imp ?_, fun hperm => (corresponds_grow h).imp ?_⟩
  · rintro _ _ ⟨triples, rfl, rfl⟩
    have hprobes := SplitChoice.map_probes_selected_perm h triples
    have hlength := hprobes.length_eq
    rw [List.length_map, List.length_map] at hlength
    exact ⟨hlength, hprobes⟩
  · rintro _ _ ⟨triples, rfl, rfl⟩
    exact ⟨hperm.filter _, List.filter_sublist, List.filter_sublist⟩

end Grow

/-- A list, a second one that shows the same triples with other letters inside the names, and a
rearrangement of the first. -/
theorem shape_depends_on_probes_renamed : ∃ tree twin rearranged,
    build ["axb", "c", "ayb", "dd"] = .ok tree ∧ build ["dd", "azb", "c", "aqb"] = .ok twin ∧
    build ["ayb", "dd", "c", "axb"] = .ok rearranged ∧
    tree.Corresponds (fun leaf partner => leaf.length = partner.length ∧
      (leaf.map probes).Perm (partner.map probes)) twin ∧
    tree.Corresponds (fun leaf partner => leaf.Perm partner ∧
      leaf.Sublist ["axb", "c", "ayb", "dd"] ∧
      partner.Sublist ["ayb", "dd", "c", "axb"]) rearranged := by
  have htree : build ["axb", "c", "ayb", "dd"] = .ok (grow .entropy ["axb", "c", "ayb", "dd"]) :=
    buildWith_eq_ok .entropy (by decide) (by decide)
  have htwin : build ["dd", "azb", "c", "aqb"] = .ok (grow .entropy ["dd", "azb", "c", "aqb"]) :=
    buildWith_eq_ok .entropy (by decide) (by decide)
  have hrearranged : build ["ayb", "dd", "c", "axb"] =
      .ok (grow .entropy ["ayb", "dd", "c", "axb"]) :=
    buildWith_eq_ok .entropy (by decide) (by decide)
  have hperm : ["axb", "c", "ayb", "dd"].Perm ["ayb", "dd", "c", "axb"] := by decide
  have hprobes : (["axb", "c", "ayb", "dd"].map probes).Perm
      (["dd", "azb", "c", "aqb"].map probes) := by decide
  exact ⟨_, _, _, htree, htwin, hrearranged,
    (shape_depends_on_probes htree htwin hprobes).1,
    (shape_depends_on_probes htree hrearranged (hperm.map probes)).2 hperm⟩

end Tree
end DispatchTree

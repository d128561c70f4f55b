import DispatchTree.Catalog.Basic
/-! Which lists are catalogs.
The check of a list walks along its names with the earlier ones at hand.  So it stops at the first
name at fault, and an error says how many names stand in front of that one. -/
namespace DispatchTree

def AreDistinctIdentifiers (names : List String) : Prop :=
  (∀ name ∈ names, isIdentifier name = true) ∧ names.Nodup

/-- The error is about the first name of the list that is at fault, and its position is the number
of names in front of it. -/
inductive CatalogError.Locates (label : String) (names : List String) : CatalogError → Prop where
  | empty (h : names = []) : Locates label names (.empty label)
  | emptyName {front back : List String} (h : names = front ++ "" :: back)
    (hf : AreDistinctIdentifiers front) : Locates label names (.emptyName label front.length)
  | notIdentifier {front back : List String} {name : String} (h : names = front ++ name :: back)
    (hf : AreDistinctIdentifiers front) (hne : name ≠ "") (hn : isIdentifier name = false) :
    Locates label names (.notIdentifier label front.length name)
  | repeated {front back : List String} {name : String} {first : Nat}
    (h : names = front ++ name :: back) (hf : AreDistinctIdentifiers front)
    (hn : isIdentifier name = true) (hfirst : front[first]? = some name) :
    Locates label names (.repeated label name first front.length)

namespace Catalog

variable {label : String}

theorem ofNames_eq_ok_iff {names : List String} {catalog : Catalog} :
    ofNames label names = .ok catalog ↔ catalog.label = label ∧ catalog.names = names := by
  unfold ofNames
  constructor
  · intro h
    split at h
    · cases h
    · split at h
      · cases h
      · cases h
        exact ⟨rfl, rfl⟩
  · rintro ⟨rfl, rfl⟩
    have hnone : firstDefect catalog.label [] catalog.names = none :=
      firstDefect_eq_none_iff.mpr ⟨catalog.identifiers, catalog.nodup, by simp⟩
    rw [dif_neg catalog.names_ne_nil]
    split
    · rename_i defect h
      cases hnone.symm.trans h
    · rfl

theorem exists_of_firstDefect_eq_some {earlier names : List String} {defect : CatalogError}
    (h : firstDefect label earlier names = some defect) :
    ∃ front name back, names = front ++ name :: back ∧ firstDefect label earlier front = none ∧
      defectOf label (earlier ++ front) name = some defect := by
  induction names generalizing earlier with
  | nil => cases h
  | cons name rest ih =>
    unfold firstDefect at h
    split at h
    · rename_i found hd
      cases h
      exact ⟨[], name, rest, rfl, rfl, by rwa [List.append_nil]⟩
    · rename_i hd
      obtain ⟨front, other, back, rfl, hfront, hother⟩ := ih h
      refine ⟨name :: front, other, back, rfl, ?_, ?_⟩
      · exact firstDefect_cons_eq_none_iff.mpr ⟨hd, hfront⟩
      · rwa [List.append_assoc, List.singleton_append] at hother

theorem locates_of_defectOf {front : List String} (hf : AreDistinctIdentifiers front)
    {name : String} {e : CatalogError} (h : defectOf label front name = some e)
    (back : List String) : e.Locates label (front ++ name :: back) := by
  unfold defectOf at h
  split at h
  · rename_i hempty
    cases h
    rw [hempty]
    exact .emptyName rfl hf
  rename_i hne
  split at h
  · rename_i hn
    cases h
    exact .notIdentifier rfl hf hne hn
  rename_i hn
  split at h
  · rename_i first hfirst
    cases h
    obtain ⟨hlt, hget, -⟩ := List.idxOf?_eq_some_iff.mp hfirst
    refine .repeated rfl hf (eq_true_of_ne_false hn) ?_
    rw [List.getElem?_eq_getElem hlt, hget]
  · cases h

theorem locates_of_ofNames {names : List String} {e : CatalogError}
    (h : ofNames label names = .error e) : e.Locates label names := by
  unfold ofNames at h
  split at h
  · rename_i hnil
    cases h
    exact .empty hnil
  split at h
  · rename_i hdefect
    cases h
    obtain ⟨front, name, back, rfl, hfront, hd⟩ := exists_of_firstDefect_eq_some hdefect
    have hvalid := firstDefect_eq_none_iff.mp hfront
    exact locates_of_defectOf ⟨hvalid.1, hvalid.2.1⟩ hd back
  · cases h

end Catalog
end DispatchTree

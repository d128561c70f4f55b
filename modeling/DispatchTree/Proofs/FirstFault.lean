import Mathlib.Order.Bounds.Defs
import DispatchTree.Proofs.Catalogs
import DispatchTree.Proofs.Identifiers
/-! Where a list of names stops being a catalog.
A list is refused at the shortest of its beginnings that is no catalog, so a fault is ranked by its
place before its kind.  Everything in front of that place is in order; so the fault is that of a
single name, and a repeated one has stood at one earlier place only. -/
namespace DispatchTree

structure MakesCatalog (names : List String) : Prop where
  ne_nil : names ≠ []
  identifiers : ∀ name ∈ names, IsIdentifierText name.toList
  nodup : names.Nodup

theorem makesCatalog_iff {names : List String} :
    MakesCatalog names ↔ names ≠ [] ∧ AreDistinctIdentifiers names := by
  constructor
  · intro h
    exact ⟨h.ne_nil, fun name hn => isIdentifier_iff.mpr (h.identifiers name hn), h.nodup⟩
  · rintro ⟨hne, hid, hnodup⟩
    exact ⟨hne, fun name hn => isIdentifier_iff.mp (hid name hn), hnodup⟩

theorem AreDistinctIdentifiers.take {names : List String} (h : AreDistinctIdentifiers names)
    (n : Nat) : AreDistinctIdentifiers (names.take n) :=
  ⟨fun name hn => h.1 name (List.mem_of_mem_take hn), h.2.sublist (List.take_sublist n names)⟩

theorem AreDistinctIdentifiers.getElem?_inj {names : List String} {name : String} {i j : Nat}
    (h : AreDistinctIdentifiers names) (hi : names[i]? = some name) (hj : names[j]? = some name) :
    i = j := by
  obtain ⟨hlt, _⟩ := List.getElem?_eq_some_iff.mp hi
  exact (List.getElem?_inj hlt h.2).mp (hi.trans hj.symm)

/-- Behind names in order, a name that spoils the list ends its shortest beginning at fault. -/
theorem isLeast_length_of_append {front back : List String} {name : String}
    (hf : AreDistinctIdentifiers front) (h : ¬ AreDistinctIdentifiers (front ++ [name])) :
    IsLeast {i | ¬ MakesCatalog ((front ++ name :: back).take (i + 1))} front.length := by
  constructor
  · have htake : (front ++ name :: back).take (front.length + 1) = front ++ [name] := by
      rw [List.take_length_add_append, List.take_succ_cons, List.take_zero]
    show ¬ MakesCatalog _
    rw [htake, makesCatalog_iff]
    exact fun hmakes => h hmakes.2
  · intro i hi
    refine Nat.le_of_not_lt fun hlt => ?_
    have htake : (front ++ name :: back).take (i + 1) = front.take (i + 1) :=
      List.take_append_of_le_length hlt
    have hne : front.take (i + 1) ≠ [] := by
      have hlen : (front.take (i + 1)).length = i + 1 := List.length_take_of_le hlt
      exact List.ne_nil_of_length_pos (by omega)
    refine hi ?_
    rw [htake, makesCatalog_iff]
    exact ⟨hne, hf.take (i + 1)⟩

/-- What an error says of the name at some place behind names in order. -/
inductive CatalogError.Describes (label : String) (names : List String) (i : Nat)
    (name : String) : CatalogError → Prop where
  | emptyName (h : name = "") : Describes label names i name (.emptyName label i)
  | notIdentifier (hne : name ≠ "") (h : ¬ IsIdentifierText name.toList) :
    Describes label names i name (.notIdentifier label i name)
  | repeated {first : Nat} (h : IsIdentifierText name.toList) (hlt : first < i)
    (hfirst : names[first]? = some name) (honly : ∀ j < i, names[j]? = some name → j = first) :
    Describes label names i name (.repeated label name first i)

namespace Catalog

variable {label : String} {names : List String}

theorem exists_ofNames_eq_ok_iff :
    (∃ catalog, ofNames label names = .ok catalog) ↔ MakesCatalog names := by
  constructor
  · rintro ⟨catalog, h⟩
    obtain ⟨_, rfl⟩ := ofNames_eq_ok_iff.mp h
    exact makesCatalog_iff.mpr
      ⟨catalog.names_ne_nil, catalog.identifiers, catalog.nodup⟩
  · intro h
    obtain ⟨hne, hid, hnodup⟩ := makesCatalog_iff.mp h
    exact ⟨⟨label, names, hne, hid, hnodup⟩, ofNames_eq_ok_iff.mpr ⟨rfl, rfl⟩⟩

theorem isLeast_of_locates (hne : names ≠ []) {e : CatalogError} (h : e.Locates label names) :
    ∃ i name, IsLeast {i | ¬ MakesCatalog (names.take (i + 1))} i ∧ names[i]? = some name ∧
      e.Describes label names i name := by
  have hlast {front back : List String} {name : String} :
      (front ++ name :: back)[front.length]? = some name := by simp
  cases h with
  | empty h => exact absurd h hne
  | @emptyName front back h hf =>
    subst h
    refine ⟨_, _, isLeast_length_of_append hf fun hall => ?_, hlast, .emptyName rfl⟩
    have hid := hall.1 "" (List.mem_append_right _ (List.mem_singleton.mpr rfl))
    rw [isIdentifier_empty] at hid
    cases hid
  | @notIdentifier front back name h hf hempty hn =>
    subst h
    have htext : ¬ IsIdentifierText name.toList := by
      rw [← isIdentifier_iff, hn]
      exact Bool.false_ne_true
    refine ⟨_, _, isLeast_length_of_append hf fun hall => ?_, hlast, .notIdentifier hempty htext⟩
    exact htext (isIdentifier_iff.mp
      (hall.1 name (List.mem_append_right _ (List.mem_singleton.mpr rfl))))
  | @repeated front back name first h hf hn hfirst =>
    subst h
    obtain ⟨hlt, _⟩ := List.getElem?_eq_some_iff.mp hfirst
    refine ⟨_, _, isLeast_length_of_append hf fun hall => ?_, hlast,
      .repeated (isIdentifier_iff.mp hn) hlt ?_ ?_⟩
    · have hmem : name ∈ front := List.mem_of_getElem? hfirst
      exact (List.nodup_append.mp hall.2).2.2 name hmem name (List.mem_singleton.mpr rfl) rfl
    · rw [List.getElem?_append_left hlt, hfirst]
    · intro j hj hname
      rw [List.getElem?_append_left hj] at hname
      exact hf.getElem?_inj hname hfirst

/-- A list is a catalog or not by its names alone, and then holds the label and the names as given.
A list that is none is refused for being empty, or else for the name that ends its shortest
beginning that is no catalog, whatever is wrong with later names. -/
theorem ofNames_first_fault (label : String) (names : List String) :
    ((∃ catalog, ofNames label names = .ok catalog) ↔ MakesCatalog names) ∧
    (∀ catalog, ofNames label names = .ok catalog →
      catalog.label = label ∧ catalog.names = names) ∧
    (names = [] → ofNames label names = .error (.empty label)) ∧
    (names ≠ [] → ¬ MakesCatalog names → ∃ i name e,
      IsLeast {i | ¬ MakesCatalog (names.take (i + 1))} i ∧ names[i]? = some name ∧
        e.Describes label names i name ∧ ofNames label names = .error e) := by
  refine ⟨exists_ofNames_eq_ok_iff, fun catalog h => ofNames_eq_ok_iff.mp h, ?_, ?_⟩
  · intro h
    exact dif_pos h
  · intro hne hnot
    cases h : ofNames label names with
    | ok catalog => exact absurd (exists_ofNames_eq_ok_iff.mp ⟨catalog, h⟩) hnot
    | error e =>
      obtain ⟨i, name, hleast, hname, he⟩ := isLeast_of_locates hne (locates_of_ofNames h)
      exact ⟨i, name, e, hleast, hname, he, rfl⟩

/-- A repeated name in front of one outside ASCII and an empty one. -/
theorem ofNames_first_fault_crowded :
    ¬ MakesCatalog ["ab", "x", "ab", "é", ""] ∧
      IsLeast {i | ¬ MakesCatalog (["ab", "x", "ab", "é", ""].take (i + 1))} 2 ∧
      ofNames "list" ["ab", "x", "ab", "é", ""] = .error (.repeated "list" "ab" 0 2) := by
  have hnot : ¬ MakesCatalog ["ab", "x", "ab", "é", ""] := fun h => by simpa using h.nodup
  have herror : ofNames "list" ["ab", "x", "ab", "é", ""] =
      .error (.repeated "list" "ab" 0 2) := rfl
  obtain ⟨i, name, e, hleast, _, hdescribes, he⟩ :=
    (ofNames_first_fault "list" ["ab", "x", "ab", "é", ""]).2.2.2 (by simp) hnot
  rw [herror] at he
  cases he
  cases hdescribes
  exact ⟨hnot, hleast, herror⟩

end Catalog
end DispatchTree

/-! Catalogs.
A catalog is a label with a non-empty list of distinct ASCII identifiers, the words that a dispatch
fragment recognises.  A list that is none is refused at the first name at fault. -/
namespace DispatchTree

def isIdentifierStart (c : Char) : Bool := c.isAlpha || c == '_'

def isIdentifierRest (c : Char) : Bool := c.isAlphanum || c == '_'

/-- An ASCII letter or underscore, then ASCII letters, digits and underscores. -/
def isIdentifier (name : String) : Bool :=
  match name.toList with
  | [] => false
  | c :: rest => isIdentifierStart c && rest.all isIdentifierRest

@[simp] theorem isIdentifier_empty : isIdentifier "" = false := by simp [isIdentifier]

structure Catalog where
  label : String
  names : List String
  names_ne_nil : names ≠ []
  identifiers : ∀ name ∈ names, isIdentifier name = true
  nodup : names.Nodup

/-- Why a list of names is no catalog; positions count from zero. -/
inductive CatalogError where
  | empty (label : String)
  | emptyName (label : String) (position : Nat)
  | notIdentifier (label : String) (position : Nat) (name : String)
  | repeated (label : String) (name : String) (first second : Nat)
  deriving DecidableEq

def CatalogError.message : CatalogError → String
  | empty label => s!"catalog `{label}` is empty"
  | emptyName label position => s!"catalog `{label}` has an empty name at position {position}"
  | notIdentifier label position name =>
    s!"catalog `{label}` has invalid name `{name}` at position {position}: " ++
      "expected an ASCII identifier"
  | repeated label name first second =>
    s!"catalog `{label}` lists `{name}` twice (positions {first} and {second})"

namespace Catalog

/-- What is wrong with a name that follows the `earlier` ones. -/
def defectOf (label : String) (earlier : List String) (name : String) : Option CatalogError :=
  if name = "" then some (.emptyName label earlier.length)
  else if isIdentifier name = false then some (.notIdentifier label earlier.length name)
  else match earlier.idxOf? name with
    | some first => some (.repeated label name first earlier.length)
    | none => none

theorem defectOf_eq_none_iff {label : String} {earlier : List String} {name : String} :
    defectOf label earlier name = none ↔ isIdentifier name = true ∧ name ∉ earlier := by
  by_cases h : name = ""
  · subst h; simp [defectOf]
  · cases hi : isIdentifier name with
    | false => simp [defectOf, h, hi]
    | true =>
      cases hf : earlier.idxOf? name with
      | some first =>
        have : name ∈ earlier := Decidable.not_not.mp fun hm => by
          simp [List.idxOf?_eq_none_iff.mpr hm] at hf
        simp [defectOf, h, hi, hf, this]
      | none => simp [defectOf, h, hi, hf, List.idxOf?_eq_none_iff.mp hf]

def firstDefect (label : String) (earlier : List String) : List String → Option CatalogError
  | [] => none
  | name :: rest =>
    match defectOf label earlier name with
    | some defect => some defect
    | none => firstDefect label (earlier ++ [name]) rest

@[simp] theorem firstDefect_nil (label : String) (earlier : List String) :
    firstDefect label earlier [] = none := rfl

theorem firstDefect_cons_eq_none_iff {label : String} {earlier rest : List String} {name : String} :
    firstDefect label earlier (name :: rest) = none ↔
      defectOf label earlier name = none ∧ firstDefect label (earlier ++ [name]) rest = none := by
  cases h : defectOf label earlier name <;> simp [firstDefect, h]

theorem firstDefect_eq_none_iff {label : String} {earlier names : List String} :
    firstDefect label earlier names = none ↔
      (∀ name ∈ names, isIdentifier name = true) ∧ names.Nodup ∧
        ∀ name ∈ names, name ∉ earlier := by
  induction names generalizing earlier with
  | nil => simp
  | cons name rest ih =>
    rw [firstDefect_cons_eq_none_iff, defectOf_eq_none_iff, ih]
    simp only [List.mem_cons, forall_eq_or_imp, List.nodup_cons, List.mem_append,
      List.not_mem_nil, or_false, not_or]
    constructor
    · rintro ⟨⟨hn, hm⟩, hr, hd, hall⟩
      exact ⟨⟨hn, hr⟩, ⟨fun h => (hall name h).2 rfl, hd⟩, hm, fun x hx => (hall x hx).1⟩
    · rintro ⟨⟨hn, hr⟩, ⟨hnot, hd⟩, hm, hall⟩
      exact ⟨⟨hn, hm⟩, hr, hd, fun x hx => ⟨hall x hx, fun h => hnot (h ▸ hx)⟩⟩

def ofNames (label : String) (names : List String) : Except CatalogError Catalog :=
  if hn : names = [] then .error (.empty label)
  else match h : firstDefect label [] names with
    | some defect => .error defect
    | none => .ok
      { label, names
        names_ne_nil := hn
        identifiers := (firstDefect_eq_none_iff.mp h).1
        nodup := (firstDefect_eq_none_iff.mp h).2.1 }

def size (catalog : Catalog) : Nat := catalog.names.length

def isEmpty (catalog : Catalog) : Bool := catalog.names.isEmpty

@[simp] theorem isEmpty_eq_false (catalog : Catalog) : catalog.isEmpty = false := by
  simp [isEmpty, catalog.names_ne_nil]

end Catalog
end DispatchTree

import DispatchTree.Catalog.Basic
import DispatchTree.Cut
import DispatchTree.Tree.Basic
/-! Building a dispatch tree.
A list of names is split by the probe whose best cut is the most even, and so are its two parts,
until a single name is left or no probe tells the names apart. -/
namespace DispatchTree

/-- A probe with the threshold to split at. -/
structure SplitChoice where
  feature : Feature
  threshold : Nat
  deriving DecidableEq

namespace SplitChoice

/-- The names that stay at or below the threshold, in their order. -/
def lower (choice : SplitChoice) (names : List String) : List String :=
  names.filter fun name => choice.feature.value name ≤ choice.threshold

def upper (choice : SplitChoice) (names : List String) : List String :=
  names.filter fun name => choice.threshold < choice.feature.value name

theorem mem_lower {choice : SplitChoice} {names : List String} {name : String} :
    name ∈ choice.lower names ↔
      name ∈ names ∧ choice.feature.value name ≤ choice.threshold := by simp [lower]

theorem mem_upper {choice : SplitChoice} {names : List String} {name : String} :
    name ∈ choice.upper names ↔
      name ∈ names ∧ choice.threshold < choice.feature.value name := by simp [upper]

theorem length_lower_add_length_upper (choice : SplitChoice) (names : List String) :
    (choice.lower names).length + (choice.upper names).length = names.length := by
  induction names with
  | nil => rfl
  | cons name rest ih =>
    by_cases h : choice.feature.value name ≤ choice.threshold
    · simp [lower, upper, h, Nat.not_lt.mpr h] at ih ⊢
      omega
    · simp [lower, upper, h, Nat.not_le.mp h] at ih ⊢
      omega

theorem length_lower_lt (choice : SplitChoice) {names : List String}
    (h : choice.upper names ≠ []) : (choice.lower names).length < names.length := by
  have := choice.length_lower_add_length_upper names
  have := List.length_pos_iff.mpr h
  omega

theorem length_upper_lt (choice : SplitChoice) {names : List String}
    (h : choice.lower names ≠ []) : (choice.upper names).length < names.length := by
  have := choice.length_lower_add_length_upper names
  have := List.length_pos_iff.mpr h
  omega

/-- The probe of the highest score; of equal ones the preferred. -/
def pick {α : Type} (scale : Evenness α) (names : List String) : SplitChoice :=
  let length := Cut.best scale (Feature.length.values names)
  let first := Cut.best scale (Feature.firstChar.values names)
  let last := Cut.best scale (Feature.lastChar.values names)
  if scale.le first.score length.score && scale.le last.score length.score then
    ⟨.length, length.threshold⟩
  else if scale.le length.score first.score && scale.le last.score first.score then
    ⟨.firstChar, first.threshold⟩
  else
    ⟨.lastChar, last.threshold⟩

end SplitChoice

/-- Why no tree is built for a list of names; positions count from zero. -/
inductive BuildError where
  | noNames
  | emptyName (position : Nat)
  | notAscii (position : Nat) (name : String)
  deriving DecidableEq

def BuildError.message : BuildError → String
  | noNames => "cannot build a dispatch tree from an empty catalog"
  | emptyName position => s!"name at position {position} is empty"
  | notAscii position name => s!"name `{name}` at position {position} is not ASCII"

def isAscii (name : String) : Bool := name.toList.all fun c => c.toNat < 128

namespace Tree

def grow {α : Type} (scale : Evenness α) : List String → Tree
  | [name] => .leaf [name]
  | names =>
    let choice := SplitChoice.pick scale names
    let lower := choice.lower names
    let upper := choice.upper names
    if lower = [] ∨ upper = [] then .leaf names
    else .split choice.feature choice.threshold (grow scale lower) (grow scale upper)
termination_by names => names.length
decreasing_by
  · exact choice.length_lower_lt (not_or.mp ‹_›).2
  · exact choice.length_upper_lt (not_or.mp ‹_›).1

/-- The first empty name, or else the first name that is not ASCII. -/
def buildDefect (names : List String) : Option BuildError :=
  if names = [] then some .noNames
  else match names.findIdx? (· = "") with
    | some position => some (.emptyName position)
    | none =>
      (names.findIdx? fun name => !isAscii name).map fun position =>
        .notAscii position (names.getD position "")

/-- The tree of any list of non-empty ASCII names, repeated ones included. -/
def buildWith {α : Type} (scale : Evenness α) (names : List String) : Except BuildError Tree :=
  match buildDefect names with
  | some defect => .error defect
  | none => .ok (grow scale names)

def build (names : List String) : Except BuildError Tree := buildWith .entropy names

/-- The tree of a catalog; a catalog holds no name that a build could refuse. -/
def ofCatalogWith {α : Type} (scale : Evenness α) (catalog : Catalog) : Tree :=
  grow scale catalog.names

def ofCatalog (catalog : Catalog) : Tree := ofCatalogWith .entropy catalog

end Tree
end DispatchTree

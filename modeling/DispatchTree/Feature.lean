/-! Structural probes of a name.
A probe sees the byte length, the first character or the last character and nothing else, so two
names that agree on all three look the same to every test of a dispatch tree. -/
namespace DispatchTree

/-- A probe; the constructors stand in order of preference. -/
inductive Feature where
  | length
  | firstChar
  | lastChar
  deriving DecidableEq

namespace Feature

def all : List Feature := [length, firstChar, lastChar]

def rank : Feature → Nat
  | length => 0
  | firstChar => 1
  | lastChar => 2

instance : LT Feature := ⟨fun f g => f.rank < g.rank⟩

instance (f g : Feature) : Decidable (f < g) := inferInstanceAs (Decidable (f.rank < g.rank))

theorem lt_iff (f g : Feature) : f < g ↔ f.rank < g.rank := Iff.rfl

/-- The largest value of a length probe; a longer name counts as this long. -/
def maxLength : Nat := 4294967295

/-- Code point of a character, zero where there is none. -/
def codeOf : Option Char → Nat
  | some c => c.toNat
  | none => 0

@[simp] theorem codeOf_some (c : Char) : codeOf (some c) = c.toNat := rfl

def value : Feature → String → Nat
  | length, name => min name.utf8ByteSize maxLength
  | firstChar, name => codeOf name.toList.head?
  | lastChar, name => codeOf name.toList.getLast?

def values (f : Feature) (names : List String) : List Nat := names.map f.value

@[simp] theorem length_values (f : Feature) (names : List String) :
    (f.values names).length = names.length := by simp [values]

/-- A probe of a character; the other one measures a length. -/
def readsChar : Feature → Bool
  | length => false
  | firstChar | lastChar => true

def symbol : Feature → String
  | length => "length"
  | firstChar => "first_char"
  | lastChar => "last_char"

end Feature
end DispatchTree

import DispatchTree.Text
import DispatchTree.Tree.Build
/-! Characters of identifiers.
An identifier is a non-empty run of letters, digits and underscores, so it holds no blank, no quote
and no character outside ASCII. -/
namespace DispatchTree
open Text

def IsAsciiLetter (c : Char) : Prop := ('A' ≤ c ∧ c ≤ 'Z') ∨ ('a' ≤ c ∧ c ≤ 'z')

def IsAsciiDigit (c : Char) : Prop := '0' ≤ c ∧ c ≤ '9'

/-- The pattern of identifiers: a letter or an underscore, then letters, digits and underscores. -/
def IsIdentifierText (text : List Char) : Prop :=
  ∃ first rest, text = first :: rest ∧ (IsAsciiLetter first ∨ first = '_') ∧
    ∀ c ∈ rest, IsAsciiLetter c ∨ IsAsciiDigit c ∨ c = '_'

theorem isIdentifierStart_iff {c : Char} :
    isIdentifierStart c = true ↔ IsAsciiLetter c ∨ c = '_' := by
  have hupper : c.isUpper = true ↔ 'A' ≤ c ∧ c ≤ 'Z' :=
    decide_eq_true_iff (p := 'A'.val ≤ c.val ∧ c.val ≤ 'Z'.val)
  have hlower : c.isLower = true ↔ 'a' ≤ c ∧ c ≤ 'z' := by
    show (decide ('a'.val ≤ c.val) && decide (c.val ≤ 'z'.val)) = true ↔ _
    rw [Bool.and_eq_true, decide_eq_true_iff, decide_eq_true_iff]
    rfl
  have hsplit : isIdentifierStart c = (c.isUpper || c.isLower || c == '_') := rfl
  rw [hsplit, Bool.or_eq_true, Bool.or_eq_true, hupper, hlower, beq_iff_eq]
  rfl

theorem isDigit_iff {c : Char} : c.isDigit = true ↔ IsAsciiDigit c := by
  show (decide ('0'.val ≤ c.val) && decide (c.val ≤ '9'.val)) = true ↔ _
  rw [Bool.and_eq_true, decide_eq_true_iff, decide_eq_true_iff]
  rfl

theorem isIdentifierRest_iff {c : Char} :
    isIdentifierRest c = true ↔ IsAsciiLetter c ∨ IsAsciiDigit c ∨ c = '_' := by
  have hsplit : isIdentifierRest c = (isIdentifierStart c || c.isDigit) := by
    rw [isIdentifierRest, isIdentifierStart, Char.isAlphanum, Bool.or_right_comm]
  rw [hsplit, Bool.or_eq_true, isIdentifierStart_iff, isDigit_iff, or_assoc,
    or_comm (b := IsAsciiDigit c)]

theorem isIdentifier_iff {name : String} :
    isIdentifier name = true ↔ IsIdentifierText name.toList := by
  unfold isIdentifier
  cases name.toList with
  | nil => simp [IsIdentifierText]
  | cons first rest =>
    simp only [Bool.and_eq_true, List.all_eq_true, isIdentifierStart_iff, isIdentifierRest_iff]
    constructor
    · rintro ⟨hfirst, hrest⟩
      exact ⟨first, rest, rfl, hfirst, hrest⟩
    · rintro ⟨_, _, heq, hfirst, hrest⟩
      cases heq
      exact ⟨hfirst, hrest⟩

theorem code_of_isIdentifierRest {c : Char} (h : isIdentifierRest c = true) :
    (48 ≤ c.toNat ∧ c.toNat ≤ 57) ∨ (65 ≤ c.toNat ∧ c.toNat ≤ 90) ∨ c.toNat = 95 ∨
      (97 ≤ c.toNat ∧ c.toNat ≤ 122) := by
  rcases isIdentifierRest_iff.mp h with (hupper | hlower) | hdigit | rfl
  · exact Or.inr (Or.inl hupper)
  · exact Or.inr (Or.inr (Or.inr hlower))
  · exact Or.inl hdigit
  · decide

theorem isBlank_eq_false_of_isIdentifierRest {c : Char} (h : isIdentifierRest c = true) :
    isBlank c = false := by
  have hc := code_of_isIdentifierRest h
  apply Bool.eq_false_iff.mpr
  intro hb
  obtain ⟨r, hr, hlo, hhi⟩ := (isBlank_iff c).mp hb
  simp only [blankRanges, List.mem_cons, List.not_mem_nil, or_false] at hr
  rcases hr with rfl | rfl | rfl | rfl | rfl | rfl | rfl | rfl | rfl | rfl <;>
    simp only at hlo hhi <;> omega

theorem isIdentifierRest_of_mem {name : String} (h : isIdentifier name = true) :
    ∀ c ∈ name.toList, isIdentifierRest c = true := by
  obtain ⟨first, rest, heq, hfirst, hrest⟩ := isIdentifier_iff.mp h
  rw [heq]
  intro c hc
  rcases List.mem_cons.mp hc with rfl | hc
  · exact isIdentifierRest_iff.mpr (hfirst.imp_right Or.inr)
  · exact isIdentifierRest_iff.mpr (hrest c hc)

theorem isAscii_of_isIdentifier {name : String} (h : isIdentifier name = true) :
    isAscii name = true := by
  simp only [isAscii, List.all_eq_true, decide_eq_true_eq]
  intro c hc
  have := code_of_isIdentifierRest (isIdentifierRest_of_mem h c hc)
  omega

end DispatchTree

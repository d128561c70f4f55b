import DispatchTree.Feature
import DispatchTree.Text
/-! The spelling of thresholds and calls in generated code.
A length is written as a decimal numeral.  A character is written between single quotes, as itself
where it is printable ASCII, behind a backslash where it is a quote or a backslash, and by its
hexadecimal code otherwise.  A call form says how the function that a name stands for is called. -/
namespace DispatchTree
open Text

def charLiteral (code : Nat) : String :=
  if code = 39 then "'\\''"
  else if code = 92 then "'\\\\'"
  else if 32 ≤ code ∧ code ≤ 126 then String.ofList ['\'', Char.ofNat code, '\'']
  else "'\\x" ++ hex code ++ "'"

/-- The code of the character that stands between the quotes of a literal. -/
def readCharContent : List Char → Option Nat
  | [] => none
  | [c] => if c = '\'' ∨ c = '\\' then none else some c.toNat
  | [slash, c] => if slash = '\\' ∧ (c = '\'' ∨ c = '\\') then some c.toNat else none
  | slash :: x :: digits => if slash = '\\' ∧ x = 'x' then readHex digits else none

namespace Feature

def bound (f : Feature) (threshold : Nat) : String :=
  if f.readsChar then charLiteral threshold else decimal threshold

/-- The condition under which a name belongs to the right of a threshold. -/
def above (f : Feature) (threshold : Nat) : String :=
  f.symbol ++ " > " ++ f.bound threshold

end Feature

inductive CallForm where
  | direct
  | factory
  deriving DecidableEq

structure UnknownCallForm where
  text : String
  deriving DecidableEq

def UnknownCallForm.message (e : UnknownCallForm) : String :=
  "unknown call form `" ++ e.text ++ "` (expected `direct` or `factory`)"

namespace CallForm

def ofFlag (flag : Bool) : CallForm := if flag then direct else factory

def text : CallForm → String
  | direct => "direct"
  | factory => "factory"

def ofText (text : String) : Except UnknownCallForm CallForm :=
  if text = "direct" then .ok direct
  else if text = "factory" then .ok factory
  else .error ⟨text⟩

@[simp] theorem ofText_text (form : CallForm) : ofText form.text = .ok form := by
  cases form <;> rfl

def call : CallForm → String → String
  | direct, name => "builtins::" ++ name ++ "(name)"
  | factory, name => name ++ "_factory()"

end CallForm
end DispatchTree

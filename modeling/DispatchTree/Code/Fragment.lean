import DispatchTree.Code.Spelling
import DispatchTree.Code.Token
/-! Fragments as programs.
A candidate is the word that a fragment is run on; the fragment sees its probes, and can compare it
with a name.  A fragment is a sequence of guarded blocks and return statements.  It is read back
from generated text, and the first return that a run reaches ends it. -/
namespace DispatchTree

/-- A test that generated code makes on the candidate. -/
inductive Condition where
  | exceeds (feature : Feature) (threshold : Nat)
  | equals (name : String)
  deriving DecidableEq

namespace Condition

/-- The test reads a probe; the other one compares with a name. -/
def isProbe : Condition → Bool
  | exceeds .. => true
  | equals _ => false

end Condition

structure Candidate where
  value : Feature → Int
  isName : String → Bool

namespace Candidate

def ofName (name : String) : Candidate where
  value f := f.value name
  isName other := other == name

def byteValue (signed : Bool) (byte : UInt8) : Int :=
  if signed then byte.toInt8.toInt else byte.toNat

/-- Any bytes as candidate, with characters that are signed or not; an empty candidate has no
characters, and their probes give zero. -/
def ofBytes (signed : Bool) (bytes : List UInt8) : Candidate where
  value
    | .length => bytes.length
    | .firstChar => (bytes.head?.map (byteValue signed)).getD 0
    | .lastChar => (bytes.getLast?.map (byteValue signed)).getD 0
  isName name := name.toByteArray.data.toList == bytes

def satisfies (c : Candidate) : Condition → Bool
  | .exceeds feature threshold => (threshold : Int) < c.value feature
  | .equals name => c.isName name

@[simp] theorem satisfies_exceeds (c : Candidate) (f : Feature) (t : Nat) :
    c.satisfies (.exceeds f t) = decide ((t : Int) < c.value f) := rfl
@[simp] theorem satisfies_equals (c : Candidate) (name : String) :
    c.satisfies (.equals name) = c.isName name := rfl

end Candidate

inductive Fragment where
  | done
  | block (condition : Condition) (body rest : Fragment)
  | ret (expression : String) (rest : Fragment)
  deriving DecidableEq

namespace Fragment

/-- The tests that a run makes, in order, and the expression that it returns; none where it reaches
the end. -/
def exec (c : Candidate) : Fragment → List Condition × Option String
  | done => ([], none)
  | ret expression _ => ([], some expression)
  | block condition body rest =>
    if c.satisfies condition then
      match body.exec c with
      | (tests, some expression) => (condition :: tests, some expression)
      | (tests, none) => (condition :: tests ++ (rest.exec c).1, (rest.exec c).2)
    else (condition :: (rest.exec c).1, (rest.exec c).2)

def tests (c : Candidate) (fragment : Fragment) : List Condition := (fragment.exec c).1

def run (c : Candidate) (fragment : Fragment) : Option String := (fragment.exec c).2

@[simp] theorem run_done (c : Candidate) : done.run c = none := rfl
@[simp] theorem run_ret (c : Candidate) (expression : String) (rest : Fragment) :
    (ret expression rest).run c = some expression := rfl
@[simp] theorem run_block (c : Candidate) (condition : Condition) (body rest : Fragment) :
    (block condition body rest).run c =
      if c.satisfies condition then (body.run c).or (rest.run c) else rest.run c := by
  unfold run
  cases h : c.satisfies condition with
  | false => simp [exec, h]
  | true =>
    rcases hb : body.exec c with ⟨tests, result⟩
    cases result <;> simp [exec, h, hb]

/-- A clause of generated code. -/
inductive Item where
  | opening (condition : Condition)
  | ret (expression : String)
  | closing
  deriving DecidableEq

def probeOf? (word : List Char) : Option Feature :=
  Feature.all.find? fun f => f.symbol.toList == word

def thresholdOf? (f : Feature) : Token → Option Nat
  | .lexeme digits => if f.readsChar then none else Text.readDecimal digits
  | .char content => if f.readsChar then readCharContent content else none
  | .string _ => none

def conditionOf? (subject operator : List Char) (bound : Token) : Option Condition :=
  if operator = ['>'] then
    (probeOf? subject).bind fun f => (thresholdOf? f bound).map (.exceeds f)
  else if operator = ['=', '='] ∧ subject = ['v', 'i', 'e', 'w'] then
    match bound with
    | .string content => some (.equals (String.ofList content))
    | _ => none
  else none

def expressionOf? (tokens : List Token) : Option String :=
  (tokens.mapM Token.lexeme?).map fun texts => String.ofList texts.flatten

namespace Item

def ofClause? : List Token → Option Item
  | [.lexeme ['}']] => some closing
  | [.lexeme ['i', 'f'], .lexeme ['('], .lexeme subject, .lexeme operator, bound, .lexeme [')'],
      .lexeme ['{']] => (conditionOf? subject operator bound).map opening
  | .lexeme ['r', 'e', 't', 'u', 'r', 'n'] :: rest =>
    if rest.getLast? = some (.lexeme [';']) then (expressionOf? rest.dropLast).map ret else none
  | _ => none

/-- Puts a clause in front of the fragment on top of a stack.  Behind the end of a block an empty
fragment is laid on the stack, which the head of the block takes as its body. -/
def prepend : Item → List Fragment → Option (List Fragment)
  | closing, stack => some (.done :: stack)
  | opening condition, body :: rest :: stack => some (.block condition body rest :: stack)
  | ret expression, rest :: stack => some (.ret expression rest :: stack)
  | _, _ => none

/-- Puts clauses in front of a stack, the last one first. -/
def nest (items : List Item) (stack : Option (List Fragment)) : Option (List Fragment) :=
  items.foldr (fun item stack => stack.bind item.prepend) stack

@[simp] theorem nest_nil (stack : Option (List Fragment)) : nest [] stack = stack := rfl
@[simp] theorem nest_cons (item : Item) (items : List Item) (stack : Option (List Fragment)) :
    nest (item :: items) stack = (nest items stack).bind item.prepend := rfl
@[simp] theorem nest_append (front items : List Item) (stack : Option (List Fragment)) :
    nest (front ++ items) stack = nest front (nest items stack) := by simp [nest]

end Item

def ofItems? (items : List Item) : Option Fragment :=
  match Item.nest items (some [done]) with
  | some [fragment] => some fragment
  | _ => none

def ofText? (text : String) : Option Fragment :=
  (Token.ofText? text).bind fun tokens =>
    ((Token.clauses tokens).mapM Item.ofClause?).bind ofItems?

end Fragment
end DispatchTree

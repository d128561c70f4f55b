import DispatchTree.Code.Draft
import DispatchTree.Code.Spelling
import DispatchTree.Tree.Basic
/-! The dispatch fragment of a tree.
A split becomes a guard around its right subtree, followed by its left subtree without an else: a
name that matches nothing inside the guard falls through.  A leaf compares its names in order.  A
session is a list of steps on one draft; only a take hands text out. -/
namespace DispatchTree

def comparison (name : String) : String := "view == \"" ++ name ++ "\""

def returnStatement (expression : String) : String := "return " ++ expression ++ ";"

/-- The statement behind all guards, reached by a candidate that is none of the names. -/
def noMatch : String := "return nullptr;"

namespace Draft

/-- The comparisons of a leaf, where `call` gives the call expression for a name. -/
def putNames (call : String → String) (d : Draft) : List String → Draft
  | [] => d
  | name :: rest => putNames call (d.putUnder (comparison name) (returnStatement (call name))) rest

@[simp] theorem putNames_nil (call : String → String) (d : Draft) : d.putNames call [] = d := rfl
@[simp] theorem putNames_cons (call : String → String) (d : Draft) (name : String)
    (rest : List String) : d.putNames call (name :: rest) =
      (d.putUnder (comparison name) (returnStatement (call name))).putNames call rest := rfl

def putTree (call : String → String) (d : Draft) : Tree → Draft
  | .leaf names => d.putNames call names
  | .split feature threshold left right =>
    ((d.enter (feature.above threshold)).putTree call right).leave.putTree call left

@[simp] theorem putTree_leaf (call : String → String) (d : Draft) (names : List String) :
    d.putTree call (.leaf names) = d.putNames call names := rfl
@[simp] theorem putTree_split (call : String → String) (d : Draft) (f : Feature) (t : Nat)
    (left right : Tree) : d.putTree call (.split f t left right) =
      ((d.enter (f.above t)).putTree call right).leave.putTree call left := rfl

end Draft

namespace Tree

/-- The fragment of a tree behind a margin, without its last statement. -/
def code (call : String → String) (layout : Layout) (margin : String) (tree : Tree) : String :=
  ((Draft.new layout margin).putTree call tree).text

def fullCode (call : String → String) (layout : Layout) (margin : String) (tree : Tree) : String :=
  (((Draft.new layout margin).putTree call tree).put noMatch).text

end Tree

inductive Step where
  | enter (condition : String)
  | leave
  | put (piece : String)
  | putUnder (condition piece : String)
  | putTree (call : String → String) (tree : Tree)
  | take

namespace Draft

/-- The text that a step hands out, with the draft behind it. -/
def step (d : Draft) : Step → Option String × Draft
  | .enter condition => (none, d.enter condition)
  | .leave => (none, d.leave)
  | .put piece => (none, d.put piece)
  | .putUnder condition piece => (none, d.putUnder condition piece)
  | .putTree call tree => (none, d.putTree call tree)
  | .take => (some d.take.1, d.take.2)

/-- What a step handed out, or what was pending behind it. -/
inductive Report where
  | taken (text : String)
  | pending (text : String)
  deriving DecidableEq

def report : Option String × Draft → Report
  | (some text, _) => .taken text
  | (none, d) => .pending d.text

def session (d : Draft) : List Step → List Report
  | [] => []
  | s :: rest => report (d.step s) :: (d.step s).2.session rest

end Draft
end DispatchTree

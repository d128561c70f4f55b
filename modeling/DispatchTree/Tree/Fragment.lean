import DispatchTree.Code.Fragment
import DispatchTree.Code.Spelling
import DispatchTree.Tree.Basic
/-! What a tree means for a candidate.
Strict routing takes a candidate to a single leaf, right where its probe exceeds the threshold and
left otherwise, and compares it with the names of that leaf alone.  The fragment of a tree is the
program that its generated code spells, and for each call form it stands for that tree alone. -/
namespace DispatchTree.Tree

/-- The names of the leaf that a candidate is routed to. -/
def route (c : Candidate) : Tree → List String
  | leaf names => names
  | split feature threshold left right =>
    if c.satisfies (.exceeds feature threshold) then right.route c else left.route c

@[simp] theorem route_leaf (c : Candidate) (names : List String) : (leaf names).route c = names :=
  rfl
@[simp] theorem route_split (c : Candidate) (f : Feature) (t : Nat) (left right : Tree) :
    (split f t left right).route c =
      if c.satisfies (.exceeds f t) then right.route c else left.route c := rfl

def routeTests (c : Candidate) : Tree → List Condition
  | leaf _ => []
  | split feature threshold left right => .exceeds feature threshold ::
    if c.satisfies (.exceeds feature threshold) then right.routeTests c else left.routeTests c

theorem length_routeTests_le (c : Candidate) (tree : Tree) :
    (tree.routeTests c).length ≤ tree.height := by
  induction tree with
  | leaf names => simp [routeTests]
  | split f t left right ihl ihr =>
    simp only [routeTests, List.length_cons, height_split]
    split <;> omega

theorem route_mem_leafLists (c : Candidate) (tree : Tree) : tree.route c ∈ tree.leafLists := by
  induction tree with
  | leaf names => simp
  | split f t left right ihl ihr =>
    rw [route_split, leafLists_split]
    split
    · exact List.mem_append_right _ ihr
    · exact List.mem_append_left _ ihl

/-- The call for the first name in the leaf that the candidate is. -/
def lookup (call : String → String) (c : Candidate) (tree : Tree) : Option String :=
  ((tree.route c).find? c.isName).map call

def leafFragment (call : String → String) : List String → Fragment → Fragment
  | [], rest => rest
  | name :: names, rest =>
    .block (.equals name) (.ret (call name) .done) (leafFragment call names rest)

/-- The guards and comparisons of a tree in front of a fragment. -/
def fragmentBefore (call : String → String) : Tree → Fragment → Fragment
  | leaf names, rest => leafFragment call names rest
  | split feature threshold left right, rest =>
    .block (.exceeds feature threshold) (right.fragmentBefore call .done)
      (left.fragmentBefore call rest)

def fragment (call : String → String) (tree : Tree) : Fragment := tree.fragmentBefore call .done

/-- The tree of a fragment that is one of a tree. -/
def ofFragment? (call : String → String) : Fragment → Option Tree
  | .done => some (leaf [])
  | .block (.exceeds feature threshold) body rest =>
    match ofFragment? call rest, ofFragment? call body with
    | some left, some right => some (split feature threshold left right)
    | _, _ => none
  | .block (.equals name) body rest =>
    match ofFragment? call rest with
    | some (leaf names) =>
      if body = .ret (call name) .done then some (leaf (name :: names)) else none
    | _ => none
  | .ret .. => none

theorem ofFragment?_leafFragment (call : String → String) (names : List String) :
    ofFragment? call (leafFragment call names .done) = some (leaf names) := by
  induction names with
  | nil => rfl
  | cons name names ih => simp [leafFragment, ofFragment?, ih]

@[simp] theorem ofFragment?_fragment (call : String → String) (tree : Tree) :
    ofFragment? call (tree.fragment call) = some tree := by
  induction tree with
  | leaf names => exact ofFragment?_leafFragment call names
  | split f t left right ihl ihr =>
    simp only [fragment] at ihl ihr
    simp [fragment, fragmentBefore, ofFragment?, ihl, ihr]

def ofCode? (form : CallForm) (text : String) : Option Tree :=
  (Fragment.ofText? text).bind (ofFragment? form.call)

end DispatchTree.Tree

import DispatchTree.Code.Draft
import DispatchTree.Code.Fragment
import DispatchTree.Tree.Basic
/-! The outline of a tree.
A leaf is one line with its names.  A split is a line for each side with that side's outline below
it, two spaces deeper, the left side first.  An outline is read back from its last line to the
first: a line for the right side takes the tree read last, one level below it, and the line for the
left side takes the next tree and closes the split. -/
namespace DispatchTree

namespace Feature

def atMost (f : Feature) (threshold : Nat) : String :=
  f.symbol ++ " <= " ++ f.bound threshold

end Feature

namespace Tree

/-- The lines of the outline of a tree that lies so many levels deep. -/
def outlineLines (level : Nat) : Tree → List String
  | leaf names => [spaces (2 * level) ++ ("[" ++ ", ".intercalate names ++ "]")]
  | split feature threshold left right =>
    (spaces (2 * level) ++ feature.atMost threshold) :: left.outlineLines (level + 1) ++
      (spaces (2 * level) ++ feature.above threshold) :: right.outlineLines (level + 1)

def outline (tree : Tree) : String :=
  String.join ((tree.outlineLines 0).map (· ++ "\n"))

end Tree

open Text

/-- A line of an outline without its spaces. -/
inductive OutlineLine where
  | names (names : List String)
  | lower (feature : Feature) (threshold : Nat)
  | upper (feature : Feature) (threshold : Nat)
  deriving DecidableEq

/-- What has been read of an outline behind some line. -/
inductive OutlinePart where
  | tree (level : Nat) (tree : Tree)
  /-- The right side of a split whose left side is still to come. -/
  | upper (level : Nat) (feature : Feature) (threshold : Nat) (right : Tree)
  deriving DecidableEq

namespace OutlineLine

def boundOf? (f : Feature) (text : List Char) : Option Nat :=
  if f.readsChar then
    match text with
    | '\'' :: rest =>
      if rest.getLast? = some '\'' then readCharContent rest.dropLast else none
    | _ => none
  else readDecimal text

def conditionOf? (text : List Char) : Option OutlineLine :=
  let symbol := text.takeWhile (· ≠ ' ')
  (Fragment.probeOf? symbol).bind fun f =>
    match text.drop symbol.length with
    | ' ' :: '<' :: '=' :: ' ' :: bound => (boundOf? f bound).map (lower f)
    | ' ' :: '>' :: ' ' :: bound => (boundOf? f bound).map (upper f)
    | _ => none

/-- The names between commas, each but the first behind a space. -/
def namesOf? (text : List Char) : Option (List String) :=
  if text = [] then some []
  else match text.splitOn ',' with
    | [] => none
    | first :: rest => (rest.mapM fun part =>
        match part with
        | ' ' :: name => some (String.ofList name)
        | _ => none).map (String.ofList first :: ·)

def ofText? : List Char → Option OutlineLine
  | '[' :: rest => if rest.getLast? = some ']' then (namesOf? rest.dropLast).map names else none
  | text => conditionOf? text

def ofLine? (line : Line) : Option (Nat × OutlineLine) :=
  let text := line.dropWhile (· = ' ')
  let indent := line.length - text.length
  if isTerminated line ∧ indent % 2 = 0 then
    (ofText? (content text)).map fun parsed => (indent / 2, parsed)
  else none

/-- Puts a line in front of what has been read behind it. -/
def prepend (level : Nat) : OutlineLine → List OutlinePart → Option (List OutlinePart)
  | .names listed, parts => some (.tree level (.leaf listed) :: parts)
  | .upper feature threshold, .tree inner right :: parts =>
    if inner = level + 1 then some (.upper level feature threshold right :: parts) else none
  | .lower feature threshold, .tree inner left :: .upper outer feature' threshold' right :: parts =>
    if inner = level + 1 ∧ outer = level ∧ feature' = feature ∧ threshold' = threshold then
      some (.tree level (.split feature threshold left right) :: parts)
    else none
  | _, _ => none

/-- Puts lines in front of what has been read, the last one first. -/
def assemble (parsed : List (Nat × OutlineLine)) (parts : Option (List OutlinePart)) :
    Option (List OutlinePart) :=
  parsed.foldr (fun line parts => parts.bind (line.2.prepend line.1)) parts

@[simp] theorem assemble_cons (line : Nat × OutlineLine) (parsed : List (Nat × OutlineLine))
    (parts : Option (List OutlinePart)) :
    assemble (line :: parsed) parts = (assemble parsed parts).bind (line.2.prepend line.1) := rfl
@[simp] theorem assemble_append (front parsed : List (Nat × OutlineLine))
    (parts : Option (List OutlinePart)) :
    assemble (front ++ parsed) parts = assemble front (assemble parsed parts) := by simp [assemble]

end OutlineLine

namespace Tree

def ofOutline? (text : String) : Option Tree :=
  match (lines text.toList).mapM OutlineLine.ofLine? with
  | none => none
  | some parsed =>
    match OutlineLine.assemble parsed (some []) with
    | some [.tree 0 tree] => some tree
    | _ => none

end Tree
end DispatchTree

import DispatchTree.Text
/-! Marked regions.
A region is what lies between a line that starts with the opening marker and the next line that
starts with the closing one, blanks in front of a marker not counted.  Its opening line gives the
margin and the line ending of what is put there. -/
namespace DispatchTree
open Text

/-- Why a text has no region to replace; lines count from one. -/
inductive RegionError where
  | noOpening
  | noClosing (beginLine : Nat)
  | twoOpenings (first second : Nat)
  deriving DecidableEq

def RegionError.message : RegionError → String
  | noOpening => "no `// BEGIN automatically generated` marker line"
  | noClosing line =>
    s!"no `// END automatically generated` marker line after the BEGIN marker on line {line}"
  | twoOpenings first second => s!"more than one BEGIN marker (lines {first} and {second})"

/-- A text cut at the two marker lines; `after` starts with the closing one. -/
structure Region where
  before : List Line
  opening : Line
  body : List Line
  after : List Line
  deriving DecidableEq

namespace Region

def beginMarker : List Char := "// BEGIN automatically generated".toList

def endMarker : List Char := "// END automatically generated".toList

def isBegin (line : Line) : Bool := beginMarker.isPrefixOf (trimStart line)

def isEnd (line : Line) : Bool := endMarker.isPrefixOf (trimStart line)

def ofLines (ls : List Line) : Except RegionError Region :=
  let before := ls.takeWhile (!isBegin ·)
  match ls.dropWhile (!isBegin ·) with
  | [] => .error .noOpening
  | opening :: rest =>
    match rest.findIdx? isBegin with
    | some skipped => .error (.twoOpenings (before.length + 1) (before.length + 2 + skipped))
    | none =>
      match rest.dropWhile (!isEnd ·) with
      | [] => .error (.noClosing (before.length + 1))
      | closing :: after => .ok ⟨before, opening, rest.takeWhile (!isEnd ·), closing :: after⟩

theorem append_of_ofLines {ls : List Line} {region : Region} (h : ofLines ls = .ok region) :
    region.before ++ region.opening :: (region.body ++ region.after) = ls := by
  simp only [ofLines] at h
  split at h
  · cases h
  · rename_i opening rest outer
    split at h
    · cases h
    · split at h
      · cases h
      · rename_i closing after inner
        cases h
        simp only
        rw [← inner, List.takeWhile_append_dropWhile, ← outer, List.takeWhile_append_dropWhile]

def ofText (source : String) : Except RegionError Region := ofLines (lines source.toList)

/-- The blanks in front of the opening marker. -/
def margin (region : Region) : String := String.ofList (leadingBlanks region.opening)

def ending (region : Region) : LineEnding := .ofLine region.opening

def inner (region : Region) : String := String.ofList region.body.flatten

def spell (region : Region) (generated : String) : String :=
  String.ofList (region.ending.spell generated.toList)

/-- What is put between the markers for a generated text: its spelled form, completed to a whole
line. -/
def newBody (region : Region) (generated : String) : List Char :=
  let spelled := region.ending.spell generated.toList
  if spelled = [] ∨ spelled.getLast? = some '\n' then spelled
  else spelled ++ region.ending.chars

def fill (region : Region) (generated : String) : String :=
  String.ofList (region.before.flatten ++ region.opening ++ region.newBody generated ++
    region.after.flatten)

def isUpToDate (region : Region) (generated : String) : Bool :=
  region.inner == region.spell generated

end Region
end DispatchTree

/-! Paths of files, and what can go wrong behind them.
A path is a text that is cut at its slashes.  Some texts are refused as a whole, before any name in
them is looked up. -/
namespace DispatchTree

inductive FileFault where
  | notFound
  /-- The path names a directory by dots or by slashes alone, which a file cannot replace. -/
  | busy
  | notDirectory
  | isDirectory
  | brokenPipe
  /-- The path, or a name of it that is looked up, is beyond its limit. -/
  | nameTooLong
  | invalidPath
  | notText
  | other (number : Option Nat) (reason : String)
  deriving DecidableEq

namespace FileFault

def number? : FileFault → Option Nat
  | notFound => some 2
  | busy => some 16
  | notDirectory => some 20
  | isDirectory => some 21
  | brokenPipe => some 32
  | nameTooLong => some 36
  | invalidPath | notText => none
  | other number _ => number

def reason : FileFault → String
  | notFound => "No such file or directory"
  | busy => "Device or resource busy"
  | notDirectory => "Not a directory"
  | isDirectory => "Is a directory"
  | brokenPipe => "Broken pipe"
  | nameTooLong => "File name too long"
  | invalidPath => "file name contained an unexpected NUL byte"
  | notText => "stream did not contain valid UTF-8"
  | other _ reason => reason

def message (fault : FileFault) : String :=
  match fault.number? with
  | some number => s!"{fault.reason} (os error {number})"
  | none => fault.reason

/-- The fault of a number, under a name of its own where it has one. -/
def ofNumber (number : Nat) (reason : String) : FileFault :=
  let named := [notFound, busy, notDirectory, isDirectory, brokenPipe, nameTooLong]
  (named.find? fun fault => fault.number? == some number).getD (other (some number) reason)

end FileFault

/-- The names on the way from the root to an entry. -/
abbrev Place := List String

def Place.ofText (text : String) : Place :=
  ((text.toList.splitOn '/').filter (· ≠ [])).map String.ofList

/-- A path: where it starts, the parts to walk through, the last name, and whether slashes follow
it. -/
structure PathName where
  absolute : Bool
  parents : List String
  /-- Empty if the path has nothing but slashes. -/
  name : String
  slashed : Bool
  deriving DecidableEq

namespace PathName

/-- The shortest length in bytes at which a path is too long. -/
def textLimit : Nat := 4096

def nameLimit : Nat := 255

/-- Why a text is refused as a path, whatever files there are. -/
def refusal? (text : String) : Option FileFault :=
  if '\x00' ∈ text.toList then some .invalidPath
  else if text = "" then some .notFound
  else if textLimit ≤ text.utf8ByteSize then some .nameTooLong
  else none

def ofChars (absolute : Bool) (chars : List Char) : PathName :=
  let parts := (chars.splitOn '/').map String.ofList
  match parts.reverse.dropWhile (· = "") with
  | [] => ⟨absolute, [], "", true⟩
  | name :: parents => ⟨absolute, parents.reverse, name, parts.getLast? = some ""⟩

def ofText (text : String) : PathName :=
  match text.toList with
  | '/' :: chars => ofChars true chars
  | chars => ofChars false chars

/-- The part leads nowhere else. -/
def stays (part : String) : Bool := part = "" || part = "."

def isTooLong (name : String) : Bool := nameLimit < name.utf8ByteSize

def namesDirectory (path : PathName) : Bool := stays path.name || path.name = ".."

def start (home : Place) (path : PathName) : Place := if path.absolute then [] else home

/-- The parts from the root to the directory that holds the last part of the path, parts that stay
left aside.  A path without any other part has the current directory. -/
def directoryParts (home : Place) (path : PathName) : List String :=
  match (path.name :: path.parents.reverse).dropWhile stays with
  | [] => home
  | _ :: outer => path.start home ++ (outer.dropWhile stays).reverse

/-- The path from the root of a file with a given name beside the one that a path leads to. -/
def besideText (home : Place) (name : String) (path : PathName) : String :=
  String.join ((path.directoryParts home ++ [name]).map ("/" ++ ·))

end PathName
end DispatchTree

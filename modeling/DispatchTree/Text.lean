/-! Characters, lines and numerals.
The blanks are the twenty-five characters of Unicode's White_Space property.  A line keeps its
terminator, so the lines of a text joined again are the text; only the last line can lack one.  A
text that goes into a file is respelled line by line, so that each of its newlines has the ending
that the file uses. -/
namespace DispatchTree
namespace Text

/-- The code points of Unicode's White_Space property, as closed ranges. -/
def blankRanges : List (Nat × Nat) :=
  [(0x09, 0x0d), (0x20, 0x20), (0x85, 0x85), (0xa0, 0xa0), (0x1680, 0x1680), (0x2000, 0x200a),
    (0x2028, 0x2029), (0x202f, 0x202f), (0x205f, 0x205f), (0x3000, 0x3000)]

def isBlank (c : Char) : Bool := blankRanges.any fun r => r.1 ≤ c.toNat && c.toNat ≤ r.2

theorem isBlank_iff (c : Char) : isBlank c = true ↔
    ∃ r ∈ blankRanges, r.1 ≤ c.toNat ∧ c.toNat ≤ r.2 := by simp [isBlank, List.any_eq_true]

theorem isBlank_space : isBlank ' ' = true := by decide
theorem isBlank_newline : isBlank '\n' = true := by decide
theorem isBlank_return : isBlank '\r' = true := by decide

def AllBlank (text : String) : Prop := ∀ c ∈ text.toList, isBlank c = true

instance (text : String) : Decidable (AllBlank text) :=
  decidable_of_iff (text.toList.all isBlank = true) List.all_eq_true

def leadingBlanks (text : List Char) : List Char := text.takeWhile isBlank

def trimStart (text : List Char) : List Char := text.dropWhile isBlank

@[simp] theorem leadingBlanks_append_trimStart (text : List Char) :
    leadingBlanks text ++ trimStart text = text := List.takeWhile_append_dropWhile

def trimEnd (text : List Char) : List Char := (text.reverse.dropWhile isBlank).reverse

def trim (text : List Char) : List Char := trimEnd (trimStart text)

/-- A piece of text that ends at its first newline, or at the end of the text. -/
abbrev Line := List Char

def prependChar (c : Char) : List Line → List Line
  | [] => [[c]]
  | line :: rest => if c = '\n' then [c] :: line :: rest else (c :: line) :: rest

def lines (text : List Char) : List Line := text.foldr prependChar []

@[simp] theorem lines_nil : lines [] = [] := rfl
@[simp] theorem lines_cons (c : Char) (text : List Char) :
    lines (c :: text) = prependChar c (lines text) := rfl

@[simp] theorem flatten_prependChar (c : Char) (ls : List Line) :
    (prependChar c ls).flatten = c :: ls.flatten := by
  cases ls with
  | nil => rfl
  | cons line rest => by_cases h : c = '\n' <;> simp [prependChar, h]

@[simp] theorem flatten_lines (text : List Char) : (lines text).flatten = text := by
  induction text with
  | nil => rfl
  | cons c text ih => simp [ih]

def isTerminated (line : Line) : Bool := line.getLast? == some '\n'

/-- A line without its newline, and without one carriage return before that newline. -/
def content (line : Line) : List Char :=
  if isTerminated line then
    if line.dropLast.getLast? = some '\r' then line.dropLast.dropLast else line.dropLast
  else line

def decimal (n : Nat) : String := String.ofList (Nat.toDigits 10 n)

@[simp] theorem toList_decimal (n : Nat) : (decimal n).toList = Nat.toDigits 10 n := by
  simp [decimal]

/-- At least two digits, with a zero in front where one would do. -/
def hexDigits (n : Nat) : List Char :=
  if n < 16 then '0' :: Nat.toDigits 16 n else Nat.toDigits 16 n

def hex (n : Nat) : String := String.ofList (hexDigits n)

@[simp] theorem toList_hex (n : Nat) : (hex n).toList = hexDigits n := by simp [hex]

/-- The number that a non-empty run of ASCII digits stands for; anything else is none. -/
def readDecimal (text : List Char) : Option Nat :=
  if text ≠ [] ∧ text.all Char.isDigit then some (Nat.ofDigitChars 10 text 0) else none

theorem readDecimal_toDigits (n : Nat) : readDecimal (Nat.toDigits 10 n) = some n := by
  have digits : (Nat.toDigits 10 n).all Char.isDigit = true :=
    List.all_eq_true.mpr fun c h => Nat.isDigit_of_mem_toDigits (by decide) (by decide) h
  simp [readDecimal, digits, Nat.toDigits_ne_nil, Nat.ofDigitChars_ten_toDigits]

def hexValue? (c : Char) : Option Nat :=
  if c.isDigit then some (c.toNat - 48)
  else if 'a' ≤ c ∧ c ≤ 'f' then some (c.toNat - 87)
  else none

def readHexFrom (read : Nat) : List Char → Option Nat
  | [] => some read
  | c :: rest =>
    match hexValue? c with
    | some digit => readHexFrom (16 * read + digit) rest
    | none => none

def readHex (text : List Char) : Option Nat := if text = [] then none else readHexFrom 0 text

end Text

open Text

inductive LineEnding where
  | lf
  | crlf
  deriving DecidableEq

namespace LineEnding

def chars : LineEnding → List Char
  | lf => ['\n']
  | crlf => ['\r', '\n']

/-- The ending of a line; a line without one counts as ending in a line feed. -/
def ofLine (line : Line) : LineEnding := if ['\r', '\n'].isSuffixOf line then crlf else lf

def respellLine (ending : LineEnding) (line : Line) : Line :=
  if isTerminated line then content line ++ ending.chars else line

def respell (ending : LineEnding) (text : List Char) : List Char :=
  (lines text).flatMap ending.respellLine

/-- The text with the given endings; there is nothing to respell where line feeds are wanted and
the text holds no carriage return. -/
def spell (ending : LineEnding) (text : List Char) : List Char :=
  if ending = lf ∧ '\r' ∉ text then text else ending.respell text

end LineEnding
end DispatchTree

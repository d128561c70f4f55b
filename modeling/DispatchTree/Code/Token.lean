import DispatchTree.Catalog.Basic
import DispatchTree.Text
/-! Tokens of generated code.
Blanks separate tokens and mean nothing else, except between quotes.  A word or an operator extends
as far as it can; a bracket, comma or semicolon is a token of its own. -/
namespace DispatchTree
open Text

inductive Token where
  | lexeme (text : List Char)
  /-- A string literal, by what stands between its quotes. -/
  | string (content : List Char)
  | char (content : List Char)
  deriving DecidableEq

namespace Token

/-- The characters that stick together in a token. -/
inductive Kind where
  | word
  | operator
  deriving DecidableEq

def kindOf (c : Char) : Option Kind :=
  if isIdentifierRest c then some .word
  else if c ∈ ['=', '<', '>', ':'] then some .operator
  else none

/-- What the reader is in the middle of, with the part of the token that it has read. -/
inductive Mode where
  | between
  | within (kind : Kind) (read : List Char)
  | string (read : List Char)
  | char (read : List Char)
  | escape (read : List Char)
  deriving DecidableEq

def start (c : Char) : Option (List Token × Mode) :=
  if isBlank c then some ([], .between)
  else match kindOf c with
    | some kind => some ([], .within kind [c])
    | none =>
      if c = '"' then some ([], .string [])
      else if c = '\'' then some ([], .char [])
      else if c ∈ ['(', ')', '{', '}', ';', ','] then some ([.lexeme [c]], .between)
      else none

/-- The tokens that a character completes, and what the reader is in the middle of behind it. -/
def advance : Mode → Char → Option (List Token × Mode)
  | .between, c => start c
  | .within kind read, c =>
    if kindOf c = some kind then some ([], .within kind (read ++ [c]))
    else (start c).map fun next => (.lexeme read :: next.1, next.2)
  | .string read, c =>
    if c = '"' then some ([.string read], .between) else some ([], .string (read ++ [c]))
  | .char read, c =>
    if c = '\'' then some ([.char read], .between)
    else if c = '\\' then some ([], .escape (read ++ [c]))
    else some ([], .char (read ++ [c]))
  | .escape read, c => some ([], .char (read ++ [c]))

/-- The tokens that the end of the text completes; no literal may be open there. -/
def finish : Mode → Option (List Token)
  | .between => some []
  | .within _ read => some [.lexeme read]
  | .string _ | .char _ | .escape _ => none

def readFrom (mode : Mode) : List Char → Option (List Token)
  | [] => finish mode
  | c :: rest =>
    match advance mode c with
    | none => none
    | some next => (readFrom next.2 rest).map (next.1 ++ ·)

def ofText? (text : String) : Option (List Token) := readFrom .between text.toList

def lexeme? : Token → Option (List Char)
  | lexeme text => some text
  | string _ | char _ => none

def isDelimiter (token : Token) : Bool :=
  token = lexeme ['{'] || token = lexeme ['}'] || token = lexeme [';']

def prependToClauses (token : Token) : List (List Token) → List (List Token)
  | [] => [[token]]
  | clause :: rest =>
    if token.isDelimiter then [token] :: clause :: rest else (token :: clause) :: rest

/-- The pieces of a token list, each up to the delimiter that ends it. -/
def clauses (tokens : List Token) : List (List Token) := tokens.foldr prependToClauses []

end Token
end DispatchTree

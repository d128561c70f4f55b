import DispatchTree.Catalog.Basic
import DispatchTree.Code.Spelling
import DispatchTree.Text
/-! Where catalogs come from.
A catalog is one of the two that are shipped, or it is read from a file.  A file holds one name a
line; blanks around a name, blank lines, and lines that start with a number sign after their blanks
do not count.  The order of the names is the order of the comparisons in a generated leaf. -/
namespace DispatchTree

namespace Catalog
open Text

/-- The trimmed line where it names something, none for a blank line or a comment. -/
def nameOfLine? (line : Line) : Option String :=
  match trim (content line) with
  | [] => none
  | '#' :: _ => none
  | name => some (String.ofList name)

def listedNames (text : String) : List String := (lines text.toList).filterMap nameOfLine?

def ofText (label text : String) : Except CatalogError Catalog := ofNames label (listedNames text)

def coreNames : List String :=
  ["count", "max", "min", "sort", "sum", "product", "equal", "gt", "gte", "lt", "lte", "neq",
    "to_number", "walk", "abs", "ceil", "floor", "round", "plus", "minus", "mul", "div", "rem",
    "and", "or", "intersection", "union", "concat", "startswith", "endswith", "contains",
    "format_int", "indexof", "indexof_n", "lower", "upper", "replace", "split", "sprintf",
    "substring", "trim", "trim_left", "trim_right", "trim_space", "trim_prefix", "trim_suffix",
    "is_array", "is_boolean", "is_null", "is_number", "is_object", "is_set", "is_string",
    "type_name"]

/-- The functions that are called by their bare name. -/
def core : Catalog where
  label := "core"
  names := coreNames
  names_ne_nil := by simp [coreNames]
  identifiers := by decide +kernel
  nodup := by decide +kernel

def prefixNames : List String :=
  ["array", "providers", "base64", "base64url", "bits", "crypto", "glob", "graph", "graphql",
    "hex", "http", "internal", "json", "io", "net", "numbers", "object", "opa", "rand", "rego",
    "regex", "semver", "strings", "time", "units", "urlquery", "uuid", "yaml"]

/-- The name spaces that own a family of functions each. -/
def prefixes : Catalog where
  label := "prefix"
  names := prefixNames
  names_ne_nil := by simp [prefixNames]
  identifiers := by decide +kernel
  nodup := by decide +kernel

end Catalog

inductive Source where
  | core
  | prefixes
  | file (path : String)
  deriving DecidableEq

namespace Source

/-- The source that an argument means; anything but the two reserved words is a path. -/
def ofArgument (argument : String) : Source :=
  if argument = "core" then core
  else if argument = "prefix" then prefixes
  else file argument

def label : Source → String
  | core => "core"
  | prefixes => "prefix"
  | file path => path

def path? : Source → Option String
  | core | prefixes => none
  | file path => some path

/-- How the functions of the source are called unless the options say otherwise. -/
def usualForm : Source → CallForm
  | prefixes => .direct
  | core | file _ => .factory

end Source
end DispatchTree

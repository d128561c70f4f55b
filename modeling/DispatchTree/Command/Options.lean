import DispatchTree.Code.Draft
import DispatchTree.Code.Spelling
import DispatchTree.Text
/-! Options of the commands.
An argument list falls into units, read from the left; each unit makes one setting, and a later
setting of the same kind replaces an earlier one. -/
namespace DispatchTree

inductive LayoutKind where
  | compact
  | pretty
  deriving DecidableEq

namespace LayoutKind

def text : LayoutKind → String
  | compact => "compact"
  | pretty => "pretty"

def ofText? (text : String) : Option LayoutKind :=
  if text = "compact" then some compact
  else if text = "pretty" then some pretty
  else none

@[simp] theorem ofText?_text (kind : LayoutKind) : ofText? kind.text = some kind := by
  cases kind <;> rfl

end LayoutKind

/-- Why an argument list sets no options. -/
inductive OptionError where
  | danglingOutput
  | unknownCallForm (e : UnknownCallForm)
  | unknownLayout (text : String)
  | badIndent (text : String)
  | unknownOption (argument : String)
  deriving DecidableEq

def OptionError.message : OptionError → String
  | danglingOutput => "`-o` needs a path"
  | unknownCallForm e => e.message
  | unknownLayout text => "unknown layout `" ++ text ++ "` (expected `compact` or `pretty`)"
  | badIndent text => "`--indent` expects a number, got `" ++ text ++ "`"
  | unknownOption argument => "unknown option `" ++ argument ++ "`"

/-- One unit of an argument list. -/
inductive OptionUnit where
  /-- The short output option with the path after it, whatever that looks like. -/
  | output (path : String)
  | danglingOutput
  | single (argument : String)
  deriving DecidableEq

namespace OptionUnit

def ofArguments : List String → List OptionUnit
  | [] => []
  | [argument] => if argument = "-o" then [danglingOutput] else [single argument]
  | argument :: next :: rest =>
    if argument = "-o" then output next :: ofArguments rest
    else single argument :: ofArguments (next :: rest)

end OptionUnit

/-- What a well-formed unit sets. -/
inductive Setting where
  | call (form : CallForm)
  | layout (kind : LayoutKind)
  | indent (width : UInt64)
  | output (path : String)
  deriving DecidableEq

/-- The rest of a text behind a key at its start. -/
def valueAfter? (key text : String) : Option String :=
  if key.toList.isPrefixOf text.toList then
    some (String.ofList (text.toList.drop key.toList.length))
  else none

/-- A decimal numeral below 2^64, with or without a plus sign in front. -/
def readWidth (text : String) : Option UInt64 :=
  let digits := match text.toList with
    | '+' :: rest => rest
    | all => all
  match Text.readDecimal digits with
  | some n => if n < UInt64.size then some (.ofNat n) else none
  | none => none

namespace Setting

def ofArgument (argument : String) : Except OptionError Setting :=
  if let some form := valueAfter? "--call=" argument then
    match CallForm.ofText form with
    | .ok form => .ok (call form)
    | .error e => .error (.unknownCallForm e)
  else if let some kind := valueAfter? "--layout=" argument then
    match LayoutKind.ofText? kind with
    | some kind => .ok (layout kind)
    | none => .error (.unknownLayout kind)
  else if let some width := valueAfter? "--indent=" argument then
    match readWidth width with
    | some width => .ok (indent width)
    | none => .error (.badIndent width)
  else if let some path := valueAfter? "--output=" argument then .ok (output path)
  else .error (.unknownOption argument)

def ofUnit : OptionUnit → Except OptionError Setting
  | .output path => .ok (output path)
  | .danglingOutput => .error .danglingOutput
  | .single argument => ofArgument argument

end Setting

structure Options where
  call : Option CallForm
  layoutKind : LayoutKind
  indent : UInt64
  output : Option String
  deriving DecidableEq

namespace Options

def standard : Options where
  call := none
  layoutKind := .pretty
  indent := 2
  output := none

def set (options : Options) : Setting → Options
  | .call form => { options with call := some form }
  | .layout kind => { options with layoutKind := kind }
  | .indent width => { options with indent := width }
  | .output path => { options with output := some path }

/-- The options that an argument list sets, or the error of its first unit that sets none. -/
def ofArguments (arguments : List String) : Except OptionError Options :=
  match (OptionUnit.ofArguments arguments).mapM Setting.ofUnit with
  | .ok settings => .ok (settings.foldl set standard)
  | .error e => .error e

/-- An argument list that sets these options. -/
def toArguments (options : Options) : List String :=
  (options.call.map fun form => "--call=" ++ form.text).toList ++
    ["--layout=" ++ options.layoutKind.text,
      "--indent=" ++ Text.decimal options.indent.toNat] ++
    (options.output.map fun path => "--output=" ++ path).toList

/-- The layout of generated code; the indent counts in the pretty one only. -/
def layout (options : Options) : Layout :=
  match options.layoutKind with
  | .compact => .compact
  | .pretty => .pretty options.indent.toNat

end Options
end DispatchTree

import DispatchTree.Command.Basic
import DispatchTree.Outline
import DispatchTree.PathName
import DispatchTree.Region
import DispatchTree.Tree.Build
import DispatchTree.Tree.Code
import DispatchTree.Tree.Leaves
/-! What a command is going to do.
A plan holds the complete text to be written and the complete text to be printed, so whatever can
fail on the way there fails before the first effect. -/
namespace DispatchTree

inductive Failure where
  | command (e : CommandError)
  | catalog (e : CatalogError)
  | read (path : String) (fault : FileFault)
  | write (path : String) (fault : FileFault)
  | splice (path : String) (e : RegionError)
  | output (fault : FileFault)
  deriving DecidableEq

def Failure.message : Failure → String
  | command e => e.message
  | catalog e => e.message
  | read path fault => "cannot read `" ++ path ++ "`: " ++ fault.message
  | write path fault => "cannot write `" ++ path ++ "`: " ++ fault.message
  | splice path e => "cannot splice into `" ++ path ++ "`: " ++ e.message
  | output fault => "cannot write output: " ++ fault.message

/-- The effects of a command: at most one file to be written, and then a text to be printed. -/
structure Plan where
  write : Option (String × String)
  printed : String
  deriving DecidableEq

/-- How the text of a file is got at. -/
abbrev Reader := String → Except FileFault String

def Reader.text (read : Reader) (path : String) : Except Failure String :=
  match read path with
  | .ok text => .ok text
  | .error fault => .error (.read path fault)

namespace Source

def catalog (read : Reader) : Source → Except Failure Catalog
  | core => .ok .core
  | prefixes => .ok .prefixes
  | file path =>
    match read.text path with
    | .error e => .error e
    | .ok text =>
      match Catalog.ofText path text with
      | .ok catalog => .ok catalog
      | .error e => .error (.catalog e)

/-- The call form that the options ask for, or else the one of the source. -/
def callForm (source : Source) (options : Options) : CallForm :=
  options.call.getD source.usualForm

def codeOf (source : Source) (options : Options) (layout : Layout) (margin : String)
    (catalog : Catalog) : String :=
  (Tree.ofCatalog catalog).fullCode (source.callForm options).call layout margin

def code (read : Reader) (source : Source) (options : Options) (layout : Layout)
    (margin : String) : Except Failure String :=
  (source.catalog read).map (source.codeOf options layout margin)

end Source

namespace Plan

/-- A printed fragment ends in a newline in either layout. -/
def endLine (code : String) : String :=
  if code.toList.getLast? = some '\n' then code else code ++ "\n"

def emit (read : Reader) (source : Source) (options : Options) : Except Failure Plan :=
  (source.code read options options.layout "").map fun code =>
    match options.output with
    | some path => ⟨some (path, code), ""⟩
    | none => ⟨none, endLine code⟩

/-- Writes the target only where its region differs from the fragment. -/
def splice (read : Reader) (source : Source) (target : String) (options : Options) :
    Except Failure Plan :=
  match read.text target with
  | .error e => .error e
  | .ok text =>
    match Region.ofText text with
    | .error e => .error (.splice target e)
    | .ok region =>
      (source.code read options (.pretty options.indent.toNat) region.margin).map fun code =>
        if region.isUpToDate code then ⟨none, target ++ ": up to date\n"⟩
        else ⟨some (target, region.fill code),
          target ++ ": updated from catalog `" ++ source.label ++ "`\n"⟩

def dump (read : Reader) (source : Source) : Except Failure Plan :=
  (source.catalog read).map fun catalog =>
    let tree := Tree.ofCatalog catalog
    ⟨none, tree.outline ++ "# " ++ catalog.label ++ ": " ++ (Shape.ofTree tree).text ++ "\n"⟩

def check (read : Reader) (source : Source) : Except Failure Plan :=
  (source.catalog read).map fun catalog =>
    ⟨none, catalog.label ++ ": ok, " ++ (Shape.ofTree (Tree.ofCatalog catalog)).text ++ "\n"⟩

def ofCommand (read : Reader) : Command → Except Failure Plan
  | .emit source options => emit read source options
  | .splice source target options => splice read source target options
  | .dump source => dump read source
  | .check source => check read source
  | .help => .ok ⟨none, summary ++ "\n"⟩

def ofArguments (read : Reader) (arguments : List String) : Except Failure Plan :=
  match Command.ofArguments arguments with
  | .error e => .error (.command e)
  | .ok command => ofCommand read command

end Plan

namespace Command

def inputs : Command → List String
  | emit source _ | dump source | check source => source.path?.toList
  | splice source target _ => target :: source.path?.toList
  | help => []

def output? : Command → Option String
  | emit _ options => options.output
  | splice _ target _ => some target
  | dump _ | check _ | help => none

end Command
end DispatchTree

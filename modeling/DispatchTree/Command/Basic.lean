import DispatchTree.Catalog.Source
import DispatchTree.Command.Options
/-! Commands.
An argument list is read as a whole before anything is done, so a bad one never touches a file. -/
namespace DispatchTree

inductive Command where
  | emit (source : Source) (options : Options)
  | splice (source : Source) (target : String) (options : Options)
  | dump (source : Source)
  | check (source : Source)
  | help
  deriving DecidableEq

inductive CommandError where
  | noCommand
  | unknownCommand (name : String)
  | missingCatalog (command : String)
  | missingTarget
  | option (e : OptionError)
  | spliceOutput
  | spliceCompact
  deriving DecidableEq

def summary : String :=
  "Usage: dtc <command> [args]\n\n" ++
  "Commands:\n" ++
  "  emit <catalog> [options]            Write the dispatch fragment\n" ++
  "  splice <catalog> <file> [options]   Replace the generated region of <file>\n" ++
  "  dump <catalog>                      Print the decision tree\n" ++
  "  check <catalog>                     Validate a catalog and print tree stats\n\n" ++
  "<catalog> is `core`, `prefix`, or a file with one name per line.\n\n" ++
  "Options:\n" ++
  "  --call=direct|factory    Leaf call form (default: per catalog)\n" ++
  "  --layout=compact|pretty  Output layout (default: pretty; splice is always pretty)\n" ++
  "  --indent=N               Spaces per level in the pretty layout (default: 2)\n" ++
  "  -o <path>                Output file for `emit` (default: stdout)"

def CommandError.message : CommandError → String
  | noCommand => summary
  | unknownCommand name => "unknown command `" ++ name ++ "`\n\n" ++ summary
  | missingCatalog command => "usage: dtc " ++ command ++ " <catalog> [options]"
  | missingTarget => "usage: dtc splice <catalog> <file> [options]"
  | option e => e.message
  | spliceOutput => "`splice` rewrites <file> in place and does not take `-o`"
  | spliceCompact => "`splice` always uses the pretty layout"

namespace Command

def sourceAndOptions (command : String) : List String → Except CommandError (Source × Options)
  | [] => .error (.missingCatalog command)
  | catalog :: rest =>
    match Options.ofArguments rest with
    | .ok options => .ok (.ofArgument catalog, options)
    | .error e => .error (.option e)

/-- A splice writes to its target alone, and always in the pretty layout. -/
def spliceOfArguments : List String → Except CommandError Command
  | catalog :: target :: rest =>
    match Options.ofArguments rest with
    | .error e => .error (.option e)
    | .ok options =>
      if options.output.isSome then .error .spliceOutput
      else if options.layoutKind = .compact then .error .spliceCompact
      else .ok (.splice (.ofArgument catalog) target options)
  | _ => .error .missingTarget

def ofArguments : List String → Except CommandError Command
  | [] => .error .noCommand
  | command :: rest =>
    if command = "emit" then (sourceAndOptions command rest).map fun p => .emit p.1 p.2
    else if command = "splice" then spliceOfArguments rest
    else if command = "dump" then (sourceAndOptions command rest).map fun p => .dump p.1
    else if command = "check" then (sourceAndOptions command rest).map fun p => .check p.1
    else if command = "help" ∨ command = "--help" ∨ command = "-h" then .ok .help
    else .error (.unknownCommand command)

end Command
end DispatchTree

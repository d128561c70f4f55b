import DispatchTree.Command.Plan
import DispatchTree.PathName
/-! The command line program.
All decisions are made by the plan of a command; what is left here is to read the files that the
command names, to replace the file that the plan writes, and to print. -/
namespace DispatchTree.Program

/-- The number of a system error, which some calls give with its sign turned. -/
def systemNumber (code : UInt32) : Nat := min code.toNat (0 - code).toNat

def faultOf (e : IO.Error) : FileFault :=
  match e with
  | .unexpectedEof | .userError _ => .other none (toString e)
  | .interrupted _ code reason | .noFileOrDirectory _ code reason
  | .alreadyExists _ code reason | .invalidArgument _ code reason
  | .permissionDenied _ code reason | .resourceExhausted _ code reason
  | .inappropriateType _ code reason | .noSuchThing _ code reason
  | .otherError code reason | .resourceBusy code reason | .resourceVanished code reason
  | .unsupportedOperation code reason | .hardwareFault code reason
  | .unsatisfiedConstraints code reason | .illegalOperation code reason
  | .protocolError code reason | .timeExpired code reason =>
    .ofNumber (systemNumber code) reason

def readText (path : String) : IO (Except FileFault String) := do
  if let some fault := PathName.refusal? path then return .error fault
  try
    match String.fromUTF8? (← IO.FS.readBinFile path) with
    | some text => return .ok text
    | none => return .error .notText
  catch e => return .error (faultOf e)

def removeLeftover (path : String) : IO Unit := do
  try IO.FS.removeFile path catch _ => return ()

/-- Replaces a file as a whole: the text goes into a fresh file beside it, which then takes its
name. -/
def replaceFile (path text : String) : IO (Except FileFault Unit) := do
  let home := Place.ofText (← IO.currentDir).toString
  let name := ".dtc" ++ toString (← IO.rand 100000 999999)
  let fresh := (PathName.ofText path).besideText home name
  if let some fault := PathName.refusal? fresh then return .error fault
  try
    IO.FS.writeFile fresh text
    match PathName.refusal? path with
    | none =>
      IO.FS.rename fresh path
      return .ok ()
    | some fault =>
      removeLeftover fresh
      return .error fault
  catch e =>
    removeLeftover fresh
    return .error (faultOf e)

def perform (plan : Plan) : IO (Option Failure) := do
  if let some (path, text) := plan.write then
    if let .error fault ← replaceFile path text then return some (.write path fault)
  try
    let stdout ← IO.getStdout
    stdout.putStr plan.printed
    stdout.flush
    return none
  catch e => return some (.output (faultOf e))

def runCommand (command : Command) : IO (Option Failure) := do
  let texts ← command.inputs.mapM fun path => return (path, ← readText path)
  match Plan.ofCommand (fun path => (texts.lookup path).getD (.error .notFound)) command with
  | .ok plan => perform plan
  | .error failure => return some failure

def runArguments (arguments : List String) : IO (Option Failure) :=
  match Command.ofArguments arguments with
  | .ok command => runCommand command
  | .error e => return some (.command e)

end DispatchTree.Program

open DispatchTree Program in
/-- Without arguments the summary of the commands is printed. -/
def main (arguments : List String) : IO UInt32 := do
  if arguments.isEmpty then
    IO.println summary
    return 0
  match ← runArguments arguments with
  | none => return 0
  | some failure =>
    IO.eprintln ("error: " ++ failure.message)
    return 1

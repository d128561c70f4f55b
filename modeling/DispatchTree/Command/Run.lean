import DispatchTree.Command.Plan
import DispatchTree.FileStore
/-! Running commands on a store of files.
The file of a plan is written before anything is printed; a sink that fails loses output but never a
file. -/
namespace DispatchTree

inductive Sink where
  | working
  /-- Every print of a non-empty text fails. -/
  | failsOnWrite (fault : FileFault)
  /-- Prints succeed, and the flush at the end of a command fails. -/
  | failsOnFlush (fault : FileFault)
  deriving DecidableEq

structure Outcome where
  printed : String
  store : FileStore
  failure : Option Failure

namespace Sink

/-- The end of a command that succeeds if its text can be printed. -/
def print (sink : Sink) (store : FileStore) (text : String) : Outcome :=
  match sink with
  | working => ⟨text, store, none⟩
  | failsOnWrite fault =>
    if text = "" then ⟨"", store, none⟩ else ⟨"", store, some (.output fault)⟩
  | failsOnFlush fault => ⟨text, store, some (.output fault)⟩

end Sink

namespace Plan

def perform (plan : Plan) (sink : Sink) (store : FileStore) : Outcome :=
  match plan.write with
  | none => sink.print store plan.printed
  | some (path, text) =>
    match store.writeText path text with
    | .ok written => sink.print written plan.printed
    | .error fault => ⟨"", store, some (.write path fault)⟩

end Plan

def execute (sink : Sink) (store : FileStore) (arguments : List String) : Outcome :=
  match Plan.ofArguments store.readText arguments with
  | .ok plan => plan.perform sink store
  | .error failure => ⟨"", store, some failure⟩

def executeAll (sink : Sink) (store : FileStore) : List (List String) → List Outcome
  | [] => []
  | arguments :: rest =>
    let outcome := execute sink store arguments
    outcome :: executeAll sink outcome.store rest

end DispatchTree

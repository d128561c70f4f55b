import DispatchTree.Proofs.Effects
/-! All or nothing.
A command line that fails has done nothing, a failure of standard output apart.  One that does not
fail has changed at most the one file that its command names, and this file holds all of its new
text, whatever became of the output. -/
namespace DispatchTree
open Text

/-- The text that a command leaves in the file at a path, where files read as given. -/
inductive Command.Leaves (read : Reader) : Command → String → String → Prop where
  | emit {source : Source} {options : Options} {path : String} {catalog : Catalog}
      (output : options.output = some path) (loads : source.catalog read = .ok catalog) :
      Leaves read (.emit source options) path (source.codeOf options options.layout "" catalog)
  | splice {source : Source} {target : String} {options : Options} {text : String}
      {region : Region} {catalog : Catalog} (reads : read target = .ok text)
      (found : Region.ofText text = .ok region) (loads : source.catalog read = .ok catalog) :
      Leaves read (.splice source target options) target
        (region.fill (source.codeFor options catalog region))

/-- What a command can make of a store: nothing, if it names no file to write, or else the file that
it names is put where its path leads, with all of its text. -/
inductive Settled (store : FileStore) (command : Command) : FileStore → Prop where
  | untouched (output : command.output? = none) : Settled store command store
  | put {path artifact : String} {place : Place} (output : command.output? = some path)
      (leaves : command.Leaves store.readText path artifact) (leadsTo : store.LeadsTo path place) :
      Settled store command (store.put place artifact.toByteArray)

section Effect

variable {store written : FileStore} {printed : String}

theorem settled_of_emit {source : Source} {options : Options} {plan : Plan}
    (hp : Plan.emit store.readText source options = .ok plan)
    (hs : plan.settle store = .ok written) : Settled store (.emit source options) written := by
  obtain ⟨catalog, hloads, rfl⟩ := Plan.emit_eq_ok_iff.mp hp
  cases ho : options.output with
  | none =>
    simp only [ho] at hs
    cases Plan.settle_none.mp hs
    exact .untouched ho
  | some path =>
    simp only [ho] at hs
    obtain ⟨place, hw, rfl⟩ := Plan.settle_some.mp hs
    exact .put ho (.emit ho hloads) hw.leadsTo

theorem settled_of_splice {source : Source} {target : String} {options : Options} {plan : Plan}
    (hp : Plan.splice store.readText source target options = .ok plan)
    (hs : plan.settle store = .ok written) :
    Settled store (.splice source target options) written := by
  obtain ⟨text, region, catalog, hreads, hfound, hloads, rfl⟩ := Plan.splice_eq_ok_iff.mp hp
  have hleaves : Command.Leaves store.readText (.splice source target options) target _ :=
    .splice hreads hfound hloads
  split at hs
  · rename_i hup
    cases Plan.settle_none.mp hs
    obtain ⟨place, hl, hcontent⟩ := FileStore.readText_eq_ok_iff.mp hreads
    rw [(source.isUpToDate_codeFor_iff options catalog hfound).mp hup] at hleaves
    have hput := Settled.put rfl hleaves hl
    rwa [FileStore.put_eq_self hcontent] at hput
  · obtain ⟨place, hw, rfl⟩ := Plan.settle_some.mp hs
    exact .put rfl hleaves hw.leadsTo

theorem settled_of_effect {arguments : List String}
    (h : effect store arguments = .ok (written, printed)) :
    ∃ command, Command.ofArguments arguments = .ok command ∧ Settled store command written := by
  obtain ⟨command, plan, hc, hp, hs, -⟩ := effect_eq_ok_iff.mp h
  refine ⟨command, hc, ?_⟩
  cases command with
  | emit source options => exact settled_of_emit hp hs
  | splice source target options => exact settled_of_splice hp hs
  | dump source =>
    obtain ⟨catalog, _, rfl⟩ := exceptMap_eq_ok_iff.mp hp
    cases Plan.settle_none.mp hs
    exact .untouched rfl
  | check source =>
    obtain ⟨catalog, _, rfl⟩ := exceptMap_eq_ok_iff.mp hp
    cases Plan.settle_none.mp hs
    exact .untouched rfl
  | help =>
    cases hp
    cases Plan.settle_none.mp hs
    exact .untouched rfl

/-- A command line fails and does nothing, whatever the sink, or it has an effect that all sinks
share. -/
theorem execute_cases (store : FileStore) (arguments : List String) :
    (∃ failure, (∀ fault, failure ≠ .output fault) ∧
      ∀ sink, execute sink store arguments = ⟨"", store, some failure⟩) ∨
    ∃ command written printed, Command.ofArguments arguments = .ok command ∧
      Settled store command written ∧
      ∀ sink, execute sink store arguments = sink.print written printed := by
  cases h : effect store arguments with
  | error failure =>
    have hne (fault : FileFault) : failure ≠ .output fault := fun heq =>
      effect_ne_output store arguments fault (heq ▸ h)
    exact Or.inl ⟨failure, hne, execute_of_effect_error h⟩
  | ok result =>
    obtain ⟨command, hc, hs⟩ := settled_of_effect h
    exact Or.inr ⟨command, result.1, result.2, hc, hs, execute_of_effect_ok h⟩

end Effect

theorem Command.output?_eq_none {arguments : List String} {command : Command}
    (h : ofArguments arguments = .ok command) (hemit : arguments.head? ≠ some "emit")
    (hsplice : arguments.head? ≠ some "splice") : command.output? = none := by
  cases arguments with
  | nil => cases h
  | cons name rest =>
    rw [List.head?_cons, ne_eq, Option.some.injEq] at hemit hsplice
    rw [ofArguments, if_neg hemit, if_neg hsplice] at h
    split at h
    · obtain ⟨_, _, rfl⟩ := exceptMap_eq_ok_iff.mp h
      rfl
    split at h
    · obtain ⟨_, _, rfl⟩ := exceptMap_eq_ok_iff.mp h
      rfl
    split at h
    · cases h
      rfl
    · cases h

/-- A command line that fails leaves every file as it was and prints nothing, unless it is the
output that fails.  In all other cases a command that names no file to write leaves every file as it
was, and one that names a file leaves its whole text there and all other files as they were; what
becomes of the output makes no difference to files. -/
theorem execute_all_or_nothing (sink : Sink) (store : FileStore) (arguments : List String) :
    let outcome := execute sink store arguments
    (∀ failure, outcome.failure = some failure → (∀ fault, failure ≠ .output fault) →
      outcome.store = store ∧ outcome.printed = "") ∧
    (outcome.failure = none ∨ (∃ fault, outcome.failure = some (.output fault)) →
      (execute .working store arguments).failure = none ∧
      outcome.store = (execute .working store arguments).store ∧
      ∃ command, Command.ofArguments arguments = .ok command ∧
        (command.output? = none ∧ outcome.store = store ∨
          ∃ path place artifact, command.output? = some path ∧
            command.Leaves store.readText path artifact ∧ store.LeadsTo path place ∧
            outcome.store = store.put place artifact.toByteArray ∧
            outcome.store.readText path = .ok artifact ∧
            ∀ other, other ≠ place → outcome.store.content? other = store.content? other)) ∧
    (arguments.head? ≠ some "emit" → arguments.head? ≠ some "splice" → outcome.store = store) := by
  intro outcome
  rcases execute_cases store arguments with ⟨failure, hne, hexec⟩ | ⟨command, written, printed, hc,
    hsettled, hexec⟩
  · have houtcome : outcome = ⟨"", store, some failure⟩ := hexec sink
    rw [houtcome]
    refine ⟨fun _ _ _ => ⟨rfl, rfl⟩, ?_, fun _ _ => rfl⟩
    rintro (h | ⟨fault, h⟩)
    · cases h
    · exact absurd (Option.some.inj h) (hne fault)
  · have houtcome : outcome = sink.print written printed := hexec sink
    have hworking : execute .working store arguments = ⟨printed, written, none⟩ := hexec .working
    rw [houtcome, hworking, Sink.store_print]
    refine ⟨?_, fun _ => ⟨rfl, rfl, command, hc, ?_⟩, ?_⟩
    · intro failure hf hne
      rcases sink.failure_print written printed with h | ⟨fault, h⟩
      · cases hf.symm.trans h
      · exact absurd (Option.some.inj (hf.symm.trans h)) (hne fault)
    · cases hsettled with
      | untouched output => exact Or.inl ⟨output, rfl⟩
      | put output leaves leadsTo =>
        exact Or.inr ⟨_, _, _, output, leaves, leadsTo, rfl, FileStore.readText_put_self leadsTo _,
          fun other hne => FileStore.content?_put_of_ne store hne _⟩
    · intro hemit hsplice
      have hnone := Command.output?_eq_none hc hemit hsplice
      cases hsettled with
      | untouched _ => rfl
      | put output _ _ => cases hnone.symm.trans output

def FileStore.bare : FileStore := ⟨["home"], []⟩

/-- A flush that fails behind a file that is written, a target that is not there, and a command that
has no use for its output option. -/
theorem execute_all_or_nothing_disturbed :
    (execute (.failsOnFlush .brokenPipe) .bare ["emit", "core", "-o", "out"]).failure =
      some (.output .brokenPipe) ∧
    (execute (.failsOnFlush .brokenPipe) .bare ["emit", "core", "-o", "out"]).store.readText "out" =
      .ok ((Tree.ofCatalog .core).fullCode CallForm.factory.call (.pretty 2) "") ∧
    (execute .working .bare ["splice", "core", "out"]).failure = some (.read "out" .notFound) ∧
    (execute .working .bare ["splice", "core", "out"]).store = .bare ∧
    (execute (.failsOnWrite .brokenPipe) .bare ["dump", "core", "-o", "out"]).store = .bare := by
  have hcommand : Command.ofArguments ["emit", "core", "-o", "out"] =
      .ok (.emit .core ⟨none, .pretty, 2, some "out"⟩) := by decide +kernel
  have hflush : (execute (.failsOnFlush .brokenPipe) .bare ["emit", "core", "-o", "out"]).failure =
      some (.output .brokenPipe) := by
    have hplan : Plan.ofCommand FileStore.bare.readText
        (.emit .core ⟨none, .pretty, 2, some "out"⟩) = .ok ⟨some ("out", _), ""⟩ := rfl
    have hsettle : FileStore.Writable .bare "out" ["home", "out"] :=
      ⟨⟨.entry ["home", FileStore.freshName] false, by decide +kernel⟩,
        ⟨by decide +kernel, by decide +kernel⟩⟩
    have heffect := effect_eq_ok_iff.mpr ⟨_, _, hcommand, hplan,
      Plan.settle_some.mpr ⟨_, hsettle, rfl⟩, rfl⟩
    rw [execute_of_effect_ok heffect]
    rfl
  have hmissing : (execute .working .bare ["splice", "core", "out"]).failure =
      some (.read "out" .notFound) := by decide +kernel
  obtain ⟨-, hfile, -⟩ :=
    execute_all_or_nothing (.failsOnFlush .brokenPipe) .bare ["emit", "core", "-o", "out"]
  obtain ⟨hrefused, -, -⟩ := execute_all_or_nothing .working .bare ["splice", "core", "out"]
  obtain ⟨-, -, hframe⟩ :=
    execute_all_or_nothing (.failsOnWrite .brokenPipe) .bare ["dump", "core", "-o", "out"]
  obtain ⟨-, -, command, hc, heffect⟩ := hfile (Or.inr ⟨_, hflush⟩)
  refine ⟨hflush, ?_, hmissing, (hrefused _ hmissing fun _ => nofun).1,
    hframe (by decide) (by decide)⟩
  cases hcommand.symm.trans hc
  rcases heffect with ⟨hnone, -⟩ | ⟨path, place, artifact, hout, hleaves, -, -, hread, -⟩
  · cases hnone
  · cases hout
    cases hleaves with
    | emit _ hloads =>
      cases hloads
      exact hread

end DispatchTree

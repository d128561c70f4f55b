import DispatchTree.Proofs.Splicing
/-! Command lines in either order.
What a command does depends on the texts that it reads and on where its paths lead, and it changes a
single file at most.  No change of a file leads a path elsewhere.  So of two commands neither of
which writes a file that the other reads or writes, each does the same before and after the
other. -/
namespace DispatchTree

def Reader.AgreeOn (read other : Reader) (paths : List String) : Prop :=
  ∀ path ∈ paths, ∀ text, read path = .ok text ↔ other path = .ok text

section Reading

variable {read other : Reader}

theorem Reader.AgreeOn.symm {paths : List String} (h : read.AgreeOn other paths) :
    other.AgreeOn read paths := fun path hp text => (h path hp text).symm

theorem Source.catalog_of_agreeOn {source : Source} (h : read.AgreeOn other source.path?.toList)
    {catalog : Catalog} (hc : source.catalog read = .ok catalog) :
    source.catalog other = .ok catalog := by
  cases source with
  | core => exact hc
  | prefixes => exact hc
  | file path =>
    obtain ⟨text, hread, hcatalog⟩ := catalog_file_eq_ok_iff.mp hc
    exact catalog_file_eq_ok_iff.mpr ⟨text, (h path (by simp [path?]) text).mp hread, hcatalog⟩

theorem Plan.ofCommand_of_agreeOn {command : Command} (h : read.AgreeOn other command.inputs)
    {plan : Plan} (hp : ofCommand read command = .ok plan) :
    ofCommand other command = .ok plan := by
  cases command with
  | emit source options =>
    obtain ⟨catalog, hc, hplan⟩ := emit_eq_ok_iff.mp hp
    exact emit_eq_ok_iff.mpr ⟨catalog, Source.catalog_of_agreeOn h hc, hplan⟩
  | splice source target options =>
    obtain ⟨text, region, catalog, hread, hfound, hc, hplan⟩ := splice_eq_ok_iff.mp hp
    have htarget := (h target (by simp [Command.inputs]) text).mp hread
    have hsource : read.AgreeOn other source.path?.toList :=
      fun path hm => h path (List.mem_cons_of_mem _ hm)
    exact splice_eq_ok_iff.mpr
      ⟨text, region, catalog, htarget, hfound, Source.catalog_of_agreeOn hsource hc, hplan⟩
  | dump source =>
    obtain ⟨catalog, hc, hplan⟩ := exceptMap_eq_ok_iff.mp hp
    exact exceptMap_eq_ok_iff.mpr ⟨catalog, Source.catalog_of_agreeOn h hc, hplan⟩
  | check source =>
    obtain ⟨catalog, hc, hplan⟩ := exceptMap_eq_ok_iff.mp hp
    exact exceptMap_eq_ok_iff.mpr ⟨catalog, Source.catalog_of_agreeOn h hc, hplan⟩
  | help => exact hp

end Reading

/-- At most one file, with its place and its new content. -/
abbrev Change := Option (Place × ByteArray)

namespace FileStore

def apply (store : FileStore) : Change → FileStore
  | none => store
  | some (place, content) => store.put place content

@[simp] theorem home_apply (store : FileStore) (change : Change) :
    (store.apply change).home = store.home := by
  cases change with
  | none => rfl
  | some file => rfl

theorem content?_apply_comm (store : FileStore) {one other : Change}
    (h : ∀ file ∈ one, ∀ file' ∈ other, file.1 ≠ file'.1) (place : Place) :
    ((store.apply one).apply other).content? place =
      ((store.apply other).apply one).content? place := by
  cases one with
  | none => rfl
  | some file =>
    cases other with
    | none => rfl
    | some file' =>
      have hne : file.1 ≠ file'.1 := h file rfl file' rfl
      show ((store.put _ _).put _ _).content? place = ((store.put _ _).put _ _).content? place
      simp only [content?_put]
      by_cases hf : place = file.1
      · have hf' : place ≠ file'.1 := hf ▸ hne
        simp [hf, hne]
      · simp [hf]

end FileStore

inductive Plan.Makes (plan : Plan) (store : FileStore) : Change → Prop where
  | nothing (h : plan.write = none) : Makes plan store none
  | file {path text : String} {place : Place} (h : plan.write = some (path, text))
    (hw : store.Writable path place) : Makes plan store (some (place, text.toByteArray))

section Makes

variable {plan : Plan} {store other : FileStore} {change : Change}

theorem Plan.settle_eq_ok_iff {written : FileStore} : plan.settle store = .ok written ↔
    ∃ change, plan.Makes store change ∧ written = store.apply change := by
  obtain ⟨write, printed⟩ := plan
  cases write with
  | none =>
    rw [settle_none]
    constructor
    · rintro rfl
      exact ⟨none, .nothing rfl, rfl⟩
    · rintro ⟨change, hm, rfl⟩
      cases hm with
      | nothing h => rfl
      | file h hw => cases h
  | some file =>
    rw [settle_some]
    constructor
    · rintro ⟨place, hw, rfl⟩
      exact ⟨_, .file rfl hw, rfl⟩
    · rintro ⟨change, hm, rfl⟩
      cases hm with
      | nothing h => cases h
      | file h hw =>
        cases h
        exact ⟨_, hw, rfl⟩

theorem Plan.Makes.congr (h : plan.Makes store change)
    (hs : FileStore.SameDirectories store other) : plan.Makes other change := by
  cases h with
  | nothing h => exact .nothing h
  | file h hw => exact .file h (hw.congr hs)

theorem Plan.Makes.sameDirectories (h : plan.Makes store change) :
    FileStore.SameDirectories store (store.apply change) := by
  cases h with
  | nothing h => exact ⟨rfl, fun _ => rfl⟩
  | file h hw => exact hw.leadsTo.sameDirectories_put _

end Makes

namespace Command

def Writes (store : FileStore) (command : Command) (place : Place) : Prop :=
  ∃ path, command.output? = some path ∧ store.LeadsTo path place

def Reads (store : FileStore) (command : Command) (place : Place) : Prop :=
  ∃ path ∈ command.inputs, store.LeadsTo path place

/-- Neither command writes a file that the other one reads or writes. -/
structure Independent (store : FileStore) (one other : Command) : Prop where
  reads_other : ∀ place, one.Writes store place → ¬ other.Reads store place
  reads_one : ∀ place, other.Writes store place → ¬ one.Reads store place
  writes : ∀ place, one.Writes store place → ¬ other.Writes store place

/-- The command can be carried out, with a change that it makes and a text that it prints. -/
def Does (store : FileStore) (command : Command) (change : Change) (printed : String) : Prop :=
  ∃ plan, Plan.ofCommand store.readText command = .ok plan ∧ plan.Makes store change ∧
    plan.printed = printed

theorem output?_of_ofCommand {read : Reader} {command : Command} {plan : Plan} {path text : String}
    (hp : Plan.ofCommand read command = .ok plan) (hw : plan.write = some (path, text)) :
    command.output? = some path := by
  cases command with
  | emit source options =>
    obtain ⟨catalog, -, rfl⟩ := Plan.emit_eq_ok_iff.mp hp
    cases ho : options.output with
    | none => simp [ho] at hw
    | some output =>
      simp only [ho, Option.some.injEq, Prod.mk.injEq] at hw
      rw [output?, ho, hw.1]
  | splice source target options =>
    obtain ⟨_, region, catalog, -, -, -, rfl⟩ := Plan.splice_eq_ok_iff.mp hp
    split at hw
    · cases hw
    · simp only [Option.some.injEq, Prod.mk.injEq] at hw
      rw [output?, hw.1]
  | dump source =>
    obtain ⟨catalog, -, rfl⟩ := exceptMap_eq_ok_iff.mp hp
    cases hw
  | check source =>
    obtain ⟨catalog, -, rfl⟩ := exceptMap_eq_ok_iff.mp hp
    cases hw
  | help =>
    cases hp
    cases hw

section Does

variable {store : FileStore} {command other : Command} {change change' : Change}
  {printed printed' : String}

theorem Does.writes (h : command.Does store change printed) :
    ∀ file ∈ change, command.Writes store file.1 := by
  obtain ⟨plan, hp, hm, -⟩ := h
  cases hm with
  | nothing h => simp
  | file h hw =>
    rintro _ ⟨⟩
    exact ⟨_, output?_of_ofCommand hp h, hw.leadsTo⟩

theorem Does.sameDirectories (h : command.Does store change printed) :
    FileStore.SameDirectories store (store.apply change) := by
  obtain ⟨_, -, hm, -⟩ := h
  exact hm.sameDirectories

theorem Does.congr {store' : FileStore} (hs : FileStore.SameDirectories store store')
    (hr : Reader.AgreeOn store.readText store'.readText command.inputs)
    (h : command.Does store change printed) : command.Does store' change printed := by
  obtain ⟨plan, hp, hm, hprinted⟩ := h
  exact ⟨plan, Plan.ofCommand_of_agreeOn hr hp, hm.congr hs, hprinted⟩

theorem Does.agreeOn (ho : other.Does store change printed)
    (hi : ∀ place, other.Writes store place → ¬ command.Reads store place) :
    Reader.AgreeOn store.readText (store.apply change).readText command.inputs := by
  intro path hp text
  cases change with
  | none => exact Iff.rfl
  | some file =>
    have hw := ho.writes file rfl
    have hno : ¬ store.LeadsTo path file.1 := fun hl => hi file.1 hw ⟨path, hp, hl⟩
    obtain ⟨target, -, ht⟩ := hw
    exact (FileStore.readText_put_iff_of_not_leadsTo ht hno).symm

/-- A command does the same before and after one that writes nothing that it reads. -/
theorem does_apply_iff (ho : other.Does store change' printed')
    (hi : ∀ place, other.Writes store place → ¬ command.Reads store place) :
    command.Does (store.apply change') change printed ↔ command.Does store change printed :=
  ⟨Does.congr ho.sameDirectories.symm (ho.agreeOn hi).symm,
    Does.congr ho.sameDirectories (ho.agreeOn hi)⟩

variable {arguments : List String} (hc : Command.ofArguments arguments = .ok command)

include hc

theorem execute_of_does (h : command.Does store change printed) :
    execute .working store arguments = ⟨printed, store.apply change, none⟩ := by
  obtain ⟨plan, hp, hm, hprinted⟩ := h
  have hsettle := Plan.settle_eq_ok_iff.mpr ⟨change, hm, rfl⟩
  exact execute_of_effect_ok (effect_eq_ok_iff.mpr ⟨command, plan, hc, hp, hsettle, hprinted⟩)
    .working

theorem exists_does (hf : (execute .working store arguments).failure = none) :
    ∃ change printed, command.Does store change printed := by
  obtain ⟨written, printed, heffect, -⟩ := exists_effect_of_failure_eq_none hf
  obtain ⟨found, plan, hfound, hp, hs, hprinted⟩ := effect_eq_ok_iff.mp heffect
  cases hc.symm.trans hfound
  obtain ⟨change, hm, -⟩ := Plan.settle_eq_ok_iff.mp hs
  exact ⟨change, printed, plan, hp, hm, hprinted⟩

end Does
end Command

/-- Two command lines that succeed one after the other, neither of which writes a file that the
other one reads or writes, succeed in the other order as well.  Each prints what it printed, and all
files end up the same. -/
theorem execute_commute {store : FileStore} {one other : List String} {first second : Command}
    (hone : Command.ofArguments one = .ok first) (hother : Command.ofArguments other = .ok second)
    (hi : Command.Independent store first second)
    (hf : (execute .working store one).failure = none)
    (hs : (execute .working (execute .working store one).store other).failure = none) :
    let earlier := execute .working store one
    let later := execute .working earlier.store other
    let earlier' := execute .working store other
    let later' := execute .working earlier'.store one
    earlier'.failure = none ∧ later'.failure = none ∧
      earlier'.printed = later.printed ∧ later'.printed = earlier.printed ∧
      later'.store.home = later.store.home ∧
      ∀ place, later'.store.content? place = later.store.content? place := by
  obtain ⟨change, printed, hfirst⟩ := Command.exists_does hone hf
  have hearlier := Command.execute_of_does hone hfirst
  rw [hearlier] at hs
  obtain ⟨change', printed', hsecond⟩ := Command.exists_does hother hs
  have hlater := Command.execute_of_does hother hsecond
  have hsecond' := (Command.does_apply_iff hfirst hi.reads_other).mp hsecond
  have hearlier' := Command.execute_of_does hother hsecond'
  have hfirst' := (Command.does_apply_iff hsecond' hi.reads_one).mpr hfirst
  have hlater' := Command.execute_of_does hone hfirst'
  have hplaces : ∀ file ∈ change', ∀ file' ∈ change, file.1 ≠ file'.1 := by
    intro file hm file' hm' heq
    exact hi.writes file'.1 (hfirst.writes file' hm') (heq ▸ hsecond'.writes file hm)
  simp only [hearlier, hlater, hearlier', hlater', FileStore.home_apply]
  exact ⟨trivial, trivial, trivial, trivial, trivial, store.content?_apply_comm hplaces⟩

/-- A splice, and the making of a file beside its target. -/
theorem execute_commute_beside :
    Command.ofArguments ["splice", "core", "target"] = .ok (.splice .core "target" .standard) ∧
    Command.ofArguments ["emit", "prefix", "-o", "out"] =
      .ok (.emit .prefixes ⟨none, .pretty, 2, some "out"⟩) ∧
    Command.Independent oddStore (.splice .core "target" .standard)
      (.emit .prefixes ⟨none, .pretty, 2, some "out"⟩) ∧
    let spliced := execute .working oddStore ["splice", "core", "target"]
    let both := execute .working spliced.store ["emit", "prefix", "-o", "out"]
    let emitted := execute .working oddStore ["emit", "prefix", "-o", "out"]
    let both' := execute .working emitted.store ["splice", "core", "target"]
    spliced.failure = none ∧ both.failure = none ∧ both'.failure = none ∧
      both'.printed = spliced.printed ∧
      ∀ place, both'.store.content? place = both.store.content? place := by
  have hsplice : Command.ofArguments ["splice", "core", "target"] =
      .ok (.splice .core "target" .standard) := by decide +kernel
  have hemit : Command.ofArguments ["emit", "prefix", "-o", "out"] =
      .ok (.emit .prefixes ⟨none, .pretty, 2, some "out"⟩) := by decide +kernel
  have hout : oddStore.Writable "out" ["home", "out"] :=
    ⟨⟨.entry ["home", FileStore.freshName] false, by decide +kernel⟩,
      ⟨by decide +kernel, by decide +kernel⟩⟩
  have hi : Command.Independent oddStore (.splice .core "target" .standard)
      (.emit .prefixes ⟨none, .pretty, 2, some "out"⟩) := by
    have hne : (["home", "out"] : Place) ≠ ["home", "target"] := by decide
    constructor
    · rintro place - ⟨path, hp, -⟩
      simp [Command.inputs, Source.path?] at hp
    · rintro place ⟨_, ⟨⟩, hw⟩ ⟨path, hp, hr⟩
      obtain rfl : path = "target" := by simpa [Command.inputs, Source.path?] using hp
      exact hne ((hout.leadsTo.unique hw).symm.trans (holdsRegion_oddStore.leadsTo.unique hr))
    · rintro place ⟨_, ⟨⟩, hw⟩ ⟨_, ⟨⟩, ho⟩
      exact hne ((hout.leadsTo.unique ho).symm.trans (holdsRegion_oddStore.leadsTo.unique hw))
  have hspliced := execute_of_canSplice hsplice
    ⟨holdsRegion_oddStore, rfl, Or.inr writable_oddStore⟩
  have hfirst : (execute .working oddStore ["splice", "core", "target"]).failure = none := by
    rw [hspliced]
  have hsecond : (execute .working (execute .working oddStore ["splice", "core", "target"]).store
      ["emit", "prefix", "-o", "out"]).failure = none := by
    have hsame : FileStore.SameDirectories oddStore
        (execute .working oddStore ["splice", "core", "target"]).store := by
      rw [hspliced]
      exact holdsRegion_oddStore.leadsTo.sameDirectories_put _
    obtain ⟨change, printed, hdoes⟩ : ∃ change printed,
        Command.Does (execute .working oddStore ["splice", "core", "target"]).store
          (.emit .prefixes ⟨none, .pretty, 2, some "out"⟩) change printed :=
      ⟨_, _, _, rfl, .file rfl (hout.congr hsame), rfl⟩
    rw [Command.execute_of_does hemit hdoes]
  obtain ⟨-, hlater, -, hprinted, -, hsame⟩ := execute_commute hsplice hemit hi hfirst hsecond
  exact ⟨hsplice, hemit, hi, hfirst, hsecond, hlater, hprinted, hsame⟩

end DispatchTree

import DispatchTree.Command.Run
import DispatchTree.Proofs.CodeLines
import DispatchTree.Proofs.Files
import DispatchTree.Proofs.SearchOrder
/-! What command lines do to files.
Everything that can fail in a command fails before its first effect, except for the printing itself.
So a command line has an effect that does not depend on how standard output behaves, the store that
it leaves and the text that it prints, or else it fails and leaves everything as it was. -/
namespace DispatchTree
open Text

namespace Source

theorem catalog_file_eq_ok_iff {read : Reader} {path : String} {catalog : Catalog} :
    (file path).catalog read = .ok catalog ↔
      ∃ text, read path = .ok text ∧ Catalog.ofText path text = .ok catalog := by
  unfold Source.catalog Reader.text
  cases hr : read path with
  | error fault => simp [hr]
  | ok text => cases hc : Catalog.ofText path text <;> simp [hr, hc]

theorem catalog_ne_output (read : Reader) (source : Source) (fault : FileFault) :
    source.catalog read ≠ .error (.output fault) := by
  cases source with
  | core => simp [Source.catalog]
  | prefixes => simp [Source.catalog]
  | file path =>
    unfold Source.catalog Reader.text
    cases hr : read path with
    | error fault => simp [hr]
    | ok text => cases hc : Catalog.ofText path text <;> simp [hr, hc]

end Source

theorem Tree.isIdentifier_of_mem_ofCatalog {catalog : Catalog} :
    ∀ name ∈ (ofCatalog catalog).names, isIdentifier name = true :=
  fun name hn => catalog.identifiers name (mem_names_grow.mp hn)

namespace Source

variable (source : Source) (options : Options) (catalog : Catalog)

theorem codeOf_pretty_eq_text (indent : Nat) (margin : String) :
    source.codeOf options (.pretty indent) margin catalog = CodeLine.text indent margin
      ((Tree.ofCatalog catalog).fullCodeLines (source.callForm options).call) :=
  Tree.fullCode_pretty ..

theorem isPlain_of_mem_fullCodeLines :
    ∀ line ∈ (Tree.ofCatalog catalog).fullCodeLines (source.callForm options).call, line.IsPlain :=
  Tree.isPlain_of_mem_fullCodeLines Tree.isIdentifier_of_mem_ofCatalog _

/-- The code that goes into a region; it is pretty whatever layout the options ask for. -/
def codeFor (region : Region) : String :=
  source.codeOf options (.pretty options.indent.toNat) region.margin catalog

variable {text : String} {region : Region} (h : Region.ofText text = .ok region)

include h

theorem endsLine_codeFor : EndsLine (source.codeFor options catalog region).toList := by
  rw [codeFor, codeOf_pretty_eq_text]
  exact CodeLine.endsLine_text (source.isPlain_of_mem_fullCodeLines options catalog) _
    (Region.newline_not_mem_margin h)

theorem isUpToDate_codeFor_iff :
    region.isUpToDate (source.codeFor options catalog region) = true ↔
      region.fill (source.codeFor options catalog region) = text := by
  rw [← Region.inner_eq_spell_iff h (source.endsLine_codeFor options catalog h)]
  exact beq_iff_eq

end Source

section Map

variable {ε α β : Type} {x : Except ε α} {f : α → β}

theorem exceptMap_eq_ok_iff {b : β} : x.map f = .ok b ↔ ∃ a, x = .ok a ∧ f a = b := by
  cases x <;> simp [Except.map]

theorem exceptMap_eq_error_iff {e : ε} : x.map f = .error e ↔ x = .error e := by
  cases x <;> simp [Except.map]

end Map

namespace Plan

variable {read : Reader} {source : Source} {options : Options} {plan : Plan}

theorem emit_eq_ok_iff : emit read source options = .ok plan ↔
    ∃ catalog, source.catalog read = .ok catalog ∧
      plan = match options.output with
        | some path => ⟨some (path, source.codeOf options options.layout "" catalog), ""⟩
        | none => ⟨none, endLine (source.codeOf options options.layout "" catalog)⟩ := by
  rw [emit, Source.code, exceptMap_eq_ok_iff]
  simp only [exceptMap_eq_ok_iff]
  constructor
  · rintro ⟨_, ⟨catalog, hc, rfl⟩, rfl⟩
    exact ⟨catalog, hc, rfl⟩
  · rintro ⟨catalog, hc, rfl⟩
    exact ⟨_, ⟨catalog, hc, rfl⟩, rfl⟩

theorem splice_eq_ok_iff {target : String} : splice read source target options = .ok plan ↔
    ∃ text region catalog, read target = .ok text ∧ Region.ofText text = .ok region ∧
      source.catalog read = .ok catalog ∧
      plan = if region.isUpToDate (source.codeFor options catalog region)
        then ⟨none, target ++ ": up to date\n"⟩
        else ⟨some (target, region.fill (source.codeFor options catalog region)),
          target ++ ": updated from catalog `" ++ source.label ++ "`\n"⟩ := by
  unfold splice Reader.text Source.code
  cases hr : read target with
  | error fault => simp
  | ok text =>
    cases hregion : Region.ofText text with
    | error e => simp [hregion]
    | ok region =>
      simp only [hregion, exceptMap_eq_ok_iff]
      constructor
      · rintro ⟨_, ⟨catalog, hc, rfl⟩, rfl⟩
        exact ⟨text, region, catalog, rfl, hregion, hc, rfl⟩
      · rintro ⟨_, _, catalog, hread, hfound, hc, rfl⟩
        cases hread
        cases hregion.symm.trans hfound
        exact ⟨_, ⟨catalog, hc, rfl⟩, rfl⟩

theorem ofCommand_ne_output (read : Reader) (command : Command) (fault : FileFault) :
    ofCommand read command ≠ .error (.output fault) := by
  have hcatalog := fun source : Source => source.catalog_ne_output read fault
  cases command with
  | emit source options =>
    simpa [ofCommand, emit, Source.code, exceptMap_eq_error_iff] using hcatalog source
  | splice source target options =>
    unfold ofCommand splice Reader.text
    cases hr : read target with
    | error fault => simp [hr]
    | ok text =>
      cases hregion : Region.ofText text with
      | error e => simp [hr, hregion]
      | ok region =>
        simpa [hr, hregion, Source.code, exceptMap_eq_error_iff] using hcatalog source
  | dump source => simpa [ofCommand, dump, exceptMap_eq_error_iff] using hcatalog source
  | check source => simpa [ofCommand, check, exceptMap_eq_error_iff] using hcatalog source
  | help => simp [ofCommand]

end Plan

def Plan.settle (plan : Plan) (store : FileStore) : Except Failure FileStore :=
  match plan.write with
  | none => .ok store
  | some (path, text) =>
    match store.writeText path text with
    | .ok written => .ok written
    | .error fault => .error (.write path fault)

section Settle

variable {store written : FileStore}

theorem Plan.settle_none {printed : String} :
    (Plan.mk none printed).settle store = .ok written ↔ store = written := by
  simp [settle]

theorem Plan.settle_some {path text printed : String} :
    (Plan.mk (some (path, text)) printed).settle store = .ok written ↔
      ∃ place, store.Writable path place ∧ written = store.put place text.toByteArray := by
  rw [← FileStore.writeText_eq_ok_iff]
  unfold settle
  cases hw : store.writeText path text <;> simp [hw]

end Settle

/-- What a command line does but for the printing: the store that it leaves, and the text that is to
be printed. -/
def effect (store : FileStore) (arguments : List String) : Except Failure (FileStore × String) :=
  match Plan.ofArguments store.readText arguments with
  | .error failure => .error failure
  | .ok plan => (plan.settle store).map fun written => (written, plan.printed)

section Effect

variable {store written : FileStore} {arguments : List String} {printed : String}

theorem execute_of_effect_ok (h : effect store arguments = .ok (written, printed)) (sink : Sink) :
    execute sink store arguments = sink.print written printed := by
  unfold effect at h
  unfold execute Plan.perform
  split at h
  · cases h
  · rename_i plan hplan
    rw [exceptMap_eq_ok_iff] at h
    obtain ⟨_, hsettle, heq⟩ := h
    cases heq
    unfold Plan.settle at hsettle
    rw [hplan]
    split at hsettle
    · rename_i hwrite
      cases hsettle
      simp [hwrite]
    · rename_i path text hwrite
      split at hsettle
      · rename_i hw
        cases hsettle
        simp [hwrite, hw]
      · cases hsettle

theorem execute_of_effect_error {failure : Failure} (h : effect store arguments = .error failure)
    (sink : Sink) : execute sink store arguments = ⟨"", store, some failure⟩ := by
  unfold effect at h
  unfold execute Plan.perform
  split at h
  · rename_i hplan
    cases h
    rw [hplan]
  · rename_i plan hplan
    rw [exceptMap_eq_error_iff] at h
    unfold Plan.settle at h
    rw [hplan]
    split at h
    · cases h
    · rename_i path text hwrite
      split at h
      · cases h
      · rename_i hw
        cases h
        simp [hwrite, hw]

theorem effect_ne_output (store : FileStore) (arguments : List String) (fault : FileFault) :
    effect store arguments ≠ .error (.output fault) := by
  intro h
  unfold effect at h
  split at h
  · rename_i failure hplan
    cases h
    unfold Plan.ofArguments at hplan
    split at hplan
    · cases hplan
    · exact Plan.ofCommand_ne_output _ _ _ hplan
  · rw [exceptMap_eq_error_iff] at h
    unfold Plan.settle at h
    split at h
    · cases h
    · split at h <;> cases h

theorem effect_eq_ok_iff : effect store arguments = .ok (written, printed) ↔
    ∃ command plan, Command.ofArguments arguments = .ok command ∧
      Plan.ofCommand store.readText command = .ok plan ∧ plan.settle store = .ok written ∧
      plan.printed = printed := by
  unfold effect Plan.ofArguments
  cases hc : Command.ofArguments arguments with
  | error e => simp
  | ok command =>
    cases hp : Plan.ofCommand store.readText command with
    | error e => simp [hp]
    | ok plan =>
      simp only [hp, exceptMap_eq_ok_iff, Prod.mk.injEq]
      constructor
      · rintro ⟨_, hs, rfl, rfl⟩
        exact ⟨command, plan, rfl, hp, hs, rfl⟩
      · rintro ⟨_, _, hread, hfound, hs, rfl⟩
        cases hread
        cases hp.symm.trans hfound
        exact ⟨_, hs, rfl, rfl⟩

end Effect

namespace Sink

variable (sink : Sink) (store : FileStore) (text : String)

@[simp] theorem store_print : (sink.print store text).store = store := by
  cases sink with
  | working => rfl
  | failsOnWrite fault => by_cases h : text = "" <;> simp [print, h]
  | failsOnFlush fault => rfl

theorem failure_print : (sink.print store text).failure = none ∨
    ∃ fault, (sink.print store text).failure = some (.output fault) := by
  cases sink with
  | working => exact Or.inl rfl
  | failsOnWrite fault => by_cases h : text = "" <;> simp [print, h]
  | failsOnFlush fault => exact Or.inr ⟨fault, rfl⟩

end Sink

theorem exists_effect_of_failure_eq_none {sink : Sink} {store : FileStore} {arguments : List String}
    (h : (execute sink store arguments).failure = none) :
    ∃ written printed, effect store arguments = .ok (written, printed) ∧
      (execute sink store arguments).store = written := by
  cases heffect : effect store arguments with
  | error failure =>
    rw [execute_of_effect_error heffect] at h
    cases h
  | ok result =>
    refine ⟨result.1, result.2, rfl, ?_⟩
    rw [execute_of_effect_ok heffect, Sink.store_print]

end DispatchTree

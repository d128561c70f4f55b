import DispatchTree.Proofs.Catalogs
import DispatchTree.Proofs.Effects
import DispatchTree.Proofs.Trimming
/-! Splicing again and again.
A text with a region is no name list, so what a splice writes never changes which catalogs can be
loaded, and the code of a catalog never looks like a marker, so the region is there for the next
splice.  The second of two equal splices therefore finds nothing to do, and the last of several
different ones decides what the target holds. -/
namespace DispatchTree
open Text

theorem Region.exists_trimStart_of_isBegin {line : Line} (h : isBegin line = true) :
    ∃ rest, trimStart line = '/' :: rest := by
  obtain ⟨rest, hrest⟩ := List.isPrefixOf_iff_prefix.mp h
  exact ⟨_, hrest.symm⟩

theorem Region.ofText_catalog_ne_ok {text : String} {region : Region}
    (h : Region.ofText text = .ok region) (label : String) (catalog : Catalog) :
    Catalog.ofText label text ≠ .ok catalog := by
  intro hc
  obtain ⟨hlines, hmarked⟩ := Region.ofLines_eq_ok_iff.mp h
  obtain ⟨rest, hstart⟩ := Region.exists_trimStart_of_isBegin
    ((Region.isBegin_content region.opening).trans hmarked.opening)
  obtain ⟨kept, hkept⟩ := exists_trimEnd_cons (by decide : isBlank '/' = false) rest
  have hname : Catalog.nameOfLine? region.opening = some (String.ofList ('/' :: kept)) := by
    unfold Catalog.nameOfLine? trim
    rw [hstart, hkept]
    rfl
  have hopening : region.opening ∈ lines text.toList := by
    simp [← hlines, Region.allLines]
  have hlisted : String.ofList ('/' :: kept) ∈ catalog.names := by
    rw [(Catalog.ofNames_eq_ok_iff.mp hc).2]
    exact List.mem_filterMap.mpr ⟨region.opening, hopening, hname⟩
  have hidentifier := catalog.identifiers _ hlisted
  simp [isIdentifier, isIdentifierStart] at hidentifier

namespace FileStore

/-- The path leads to a file whose text has the region. -/
structure HoldsRegion (store : FileStore) (path : String) (place : Place) (region : Region) :
    Prop where
  leadsTo : store.LeadsTo path place
  content : store.content? place = some region.text.toByteArray
  found : Region.ofText region.text = .ok region

def putRegion (store : FileStore) (place : Place) (region : Region) : FileStore :=
  store.put place region.text.toByteArray

theorem putRegion_putRegion (store : FileStore) (place : Place) (first second : Region) :
    (store.putRegion place first).putRegion place second = store.putRegion place second :=
  store.put_put place _ _

variable {store : FileStore} {path : String} {place : Place} {region after : Region}

theorem exists_holdsRegion_iff {text : String} :
    (∃ place, store.HoldsRegion path place region ∧ region.text = text) ↔
      store.readText path = .ok text ∧ Region.ofText text = .ok region := by
  rw [readText_eq_ok_iff]
  constructor
  · rintro ⟨place, hr, rfl⟩
    exact ⟨⟨place, hr.leadsTo, hr.content⟩, hr.found⟩
  · rintro ⟨⟨place, hl, hc⟩, hfound⟩
    have htext := Region.text_eq_of_ofText hfound
    exact ⟨place, ⟨hl, htext ▸ hc, htext ▸ hfound⟩, htext⟩

namespace HoldsRegion

theorem readText (h : store.HoldsRegion path place region) :
    store.readText path = .ok region.text := (exists_holdsRegion_iff.mp ⟨place, h, rfl⟩).1

theorem unique {other : Place} (h : store.HoldsRegion path place region)
    (ho : store.HoldsRegion path other after) : other = place ∧ after = region := by
  have htext := Except.ok.inj (h.readText.symm.trans ho.readText)
  have hfound := ho.found
  rw [← htext, h.found] at hfound
  exact ⟨h.leadsTo.unique ho.leadsTo, (Except.ok.inj hfound).symm⟩

theorem putRegion_self (h : store.HoldsRegion path place region) :
    store.putRegion place region = store := put_eq_self h.content

theorem putRegion (h : store.HoldsRegion path place region)
    (ha : Region.ofText after.text = .ok after) :
    (store.putRegion place after).HoldsRegion path place after :=
  ⟨h.leadsTo.congr (h.leadsTo.sameDirectories_put _), content?_put_self .., ha⟩

/-- A file with a region is the catalog of no source, so a new text for the region makes no
difference to catalogs. -/
theorem catalog_putRegion_iff (h : store.HoldsRegion path place region)
    (ha : Region.ofText after.text = .ok after) (source : Source) (catalog : Catalog) :
    source.catalog (store.putRegion place after).readText = .ok catalog ↔
      source.catalog store.readText = .ok catalog := by
  cases source with
  | core => rfl
  | prefixes => rfl
  | file other =>
    rw [Source.catalog_file_eq_ok_iff, Source.catalog_file_eq_ok_iff]
    by_cases hl : store.LeadsTo other place
    · have hbefore : store.HoldsRegion other place region := ⟨hl, h.content, h.found⟩
      have hafter := hbefore.putRegion ha
      constructor
      · rintro ⟨text, hread, hcatalog⟩
        cases hafter.readText.symm.trans hread
        exact absurd hcatalog (Region.ofText_catalog_ne_ok ha other catalog)
      · rintro ⟨text, hread, hcatalog⟩
        cases hbefore.readText.symm.trans hread
        exact absurd hcatalog (Region.ofText_catalog_ne_ok h.found other catalog)
    · unfold FileStore.putRegion
      simp only [readText_put_iff_of_not_leadsTo h.leadsTo hl]

end HoldsRegion
end FileStore

namespace Source

variable (source : Source) (options : Options) (catalog : Catalog)

def spliced (region : Region) : Region := region.filled (source.codeFor options catalog region)

theorem spliced_spliced (earlier : Source) (earlierOptions : Options) (earlierCatalog : Catalog)
    (region : Region) :
    source.spliced options catalog (earlier.spliced earlierOptions earlierCatalog region) =
      source.spliced options catalog region := rfl

theorem text_spliced (region : Region) : (source.spliced options catalog region).text =
    region.fill (source.codeFor options catalog region) :=
  (Region.fill_eq_text_filled region _).symm

variable {text : String} {region : Region} (h : Region.ofText text = .ok region)

include h

theorem holdsNoMarker_codeFor : Region.HoldsNoMarker (source.codeFor options catalog region) := by
  have hplain := source.isPlain_of_mem_fullCodeLines options catalog
  unfold Region.HoldsNoMarker
  rw [codeFor, codeOf_pretty_eq_text,
    CodeLine.lines_text hplain _ (Region.newline_not_mem_margin h)]
  intro line hl
  obtain ⟨piece, hpiece, rfl⟩ := List.mem_map.mp hl
  exact (hplain piece hpiece).isMarker_content region.allBlank_margin _

theorem ofText_spliced : Region.ofText (source.spliced options catalog region).text =
    .ok (source.spliced options catalog region) := by
  rw [text_spliced]
  exact Region.ofText_fill h (source.holdsNoMarker_codeFor options catalog h)

theorem isUpToDate_iff_spliced_eq :
    region.isUpToDate (source.codeFor options catalog region) = true ↔
      source.spliced options catalog region = region := by
  rw [isUpToDate_codeFor_iff source options catalog h, ← text_spliced]
  constructor
  · intro htext
    have hfound := source.ofText_spliced options catalog h
    rw [htext, h] at hfound
    exact (Except.ok.inj hfound).symm
  · intro heq
    rw [heq]
    exact Region.text_eq_of_ofText h

end Source

/-- What it takes to splice a source into the file at a place. -/
structure CanSplice (store : FileStore) (source : Source) (target : String) (options : Options)
    (place : Place) (region : Region) (catalog : Catalog) : Prop where
  holds : store.HoldsRegion target place region
  loads : source.catalog store.readText = .ok catalog
  writes : source.spliced options catalog region = region ∨ store.Writable target place

def Source.spliceReport (source : Source) (target : String) (changed : Bool) : String :=
  if changed then target ++ ": updated from catalog `" ++ source.label ++ "`\n"
  else target ++ ": up to date\n"

section Effect

variable {store written : FileStore} {source : Source} {target printed : String} {options : Options}
  {arguments : List String} {place : Place} {region : Region} {catalog : Catalog}

theorem settle_splice_iff (hr : store.HoldsRegion target place region)
    (hloads : source.catalog store.readText = .ok catalog) {plan : Plan}
    (hp : Plan.splice store.readText source target options = .ok plan) :
    plan.settle store = .ok written ∧ plan.printed = printed ↔
      (source.spliced options catalog region = region ∨ store.Writable target place) ∧
        written = store.putRegion place (source.spliced options catalog region) ∧
        printed = source.spliceReport target (source.spliced options catalog region != region) := by
  obtain ⟨text, found, loaded, hread, hfound, hloaded, rfl⟩ := Plan.splice_eq_ok_iff.mp hp
  cases hr.readText.symm.trans hread
  cases hr.found.symm.trans hfound
  cases hloads.symm.trans hloaded
  by_cases hsame : source.spliced options catalog region = region
  · rw [if_pos ((source.isUpToDate_iff_spliced_eq options catalog hr.found).mpr hsame),
      Plan.settle_none, hsame, hr.putRegion_self]
    simp [Source.spliceReport, eq_comm]
  · rw [if_neg (mt (source.isUpToDate_iff_spliced_eq options catalog hr.found).mp hsame),
      Plan.settle_some, ← Source.text_spliced]
    have hunique : (∃ other, store.Writable target other ∧
        written = store.put other (source.spliced options catalog region).text.toByteArray) ↔
        store.Writable target place ∧
          written = store.put place (source.spliced options catalog region).text.toByteArray := by
      constructor
      · rintro ⟨other, hw, heq⟩
        cases hr.leadsTo.unique hw.leadsTo
        exact ⟨hw, heq⟩
      · intro h
        exact ⟨place, h⟩
    have hchanged : (source.spliced options catalog region != region) = true := bne_iff_ne.mpr hsame
    rw [hunique, hchanged, and_assoc]
    constructor
    · rintro ⟨hw, hwritten, hprinted⟩
      exact ⟨Or.inr hw, hwritten, hprinted.symm⟩
    · rintro ⟨hw, hwritten, hprinted⟩
      exact ⟨hw.resolve_left hsame, hwritten, hprinted.symm⟩

theorem effect_splice_iff
    (hc : Command.ofArguments arguments = .ok (.splice source target options)) :
    effect store arguments = .ok (written, printed) ↔
      ∃ place region catalog, CanSplice store source target options place region catalog ∧
        written = store.putRegion place (source.spliced options catalog region) ∧
        printed = source.spliceReport target (source.spliced options catalog region != region) := by
  rw [effect_eq_ok_iff]
  constructor
  · rintro ⟨command, plan, hcommand, hp, hs, hprinted⟩
    cases hc.symm.trans hcommand
    obtain ⟨text, region, catalog, hread, hfound, hloads, hplan⟩ := Plan.splice_eq_ok_iff.mp hp
    obtain ⟨place, hr, -⟩ := FileStore.exists_holdsRegion_iff.mpr ⟨hread, hfound⟩
    obtain ⟨hw, hwritten⟩ := (settle_splice_iff hr hloads hp).mp ⟨hs, hprinted⟩
    exact ⟨place, region, catalog, ⟨hr, hloads, hw⟩, hwritten⟩
  · rintro ⟨place, region, catalog, h, hwritten⟩
    obtain ⟨plan, hp⟩ : ∃ plan, Plan.splice store.readText source target options = .ok plan :=
      ⟨_, Plan.splice_eq_ok_iff.mpr
        ⟨region.text, region, catalog, h.holds.readText, h.holds.found, h.loads, rfl⟩⟩
    exact ⟨_, _, hc, hp, (settle_splice_iff h.holds h.loads hp).mpr ⟨h.writes, hwritten⟩⟩

theorem execute_of_canSplice
    (hc : Command.ofArguments arguments = .ok (.splice source target options))
    (h : CanSplice store source target options place region catalog) :
    execute .working store arguments =
      ⟨source.spliceReport target (source.spliced options catalog region != region),
        store.putRegion place (source.spliced options catalog region), none⟩ :=
  execute_of_effect_ok ((effect_splice_iff hc).mpr ⟨place, region, catalog, h, rfl, rfl⟩) .working

namespace CanSplice

theorem again (h : CanSplice store source target options place region catalog) :
    CanSplice (store.putRegion place (source.spliced options catalog region)) source target options
      place (source.spliced options catalog region) catalog := by
  have hfound := source.ofText_spliced options catalog h.holds.found
  have hloads := (h.holds.catalog_putRegion_iff hfound source catalog).mpr h.loads
  exact ⟨h.holds.putRegion hfound, hloads, Or.inl rfl⟩

/-- What can be spliced after another splice can be spliced without it. -/
theorem of_spliced {earlier : Source} {earlierOptions : Options} {earlierCatalog : Catalog}
    (h : CanSplice store earlier target earlierOptions place region earlierCatalog)
    (hs : CanSplice (store.putRegion place (earlier.spliced earlierOptions earlierCatalog region))
      source target options place (earlier.spliced earlierOptions earlierCatalog region) catalog) :
    CanSplice store source target options place region catalog := by
  have hfound := earlier.ofText_spliced earlierOptions earlierCatalog h.holds.found
  refine ⟨h.holds, (h.holds.catalog_putRegion_iff hfound _ _).mp hs.loads, ?_⟩
  -- A later splice that was up to date need not be able to write; then the earlier one was, or was
  -- up to date as well, and both find the same region.
  rcases hs.writes with hsame | hw
  · rcases h.writes with hfirst | hw
    · rw [Source.spliced_spliced] at hsame
      exact Or.inl (hsame.trans hfirst)
    · exact Or.inr hw
  · exact Or.inr (hw.congr (h.holds.leadsTo.sameDirectories_put _).symm)

end CanSplice

end Effect

theorem Command.exists_options_of_splice {argument target : String} {rest : List String}
    {command : Command} (h : ofArguments ("splice" :: argument :: target :: rest) = .ok command) :
    ∃ options, Options.ofArguments rest = .ok options ∧
      command = .splice (.ofArgument argument) target options := by
  rw [ofArguments, if_neg (by decide), if_pos rfl, spliceOfArguments] at h
  split at h
  · cases h
  · rename_i options hoptions
    split at h
    · cases h
    split at h
    · cases h
    · exact ⟨options, hoptions, (Except.ok.inj h).symm⟩

/-- The command line splices some catalog into the target, with any options. -/
def IsSplice (target : String) (arguments : List String) : Prop :=
  ∃ argument options, arguments = "splice" :: argument :: target :: options

section Target

variable {store : FileStore} {target : String} {arguments : List String}

theorem IsSplice.exists_of_ofArguments (h : IsSplice target arguments) {command : Command}
    (hc : Command.ofArguments arguments = .ok command) :
    ∃ source options, command = .splice source target options := by
  obtain ⟨argument, rest, rfl⟩ := h
  obtain ⟨options, -, heq⟩ := Command.exists_options_of_splice hc
  exact ⟨_, options, heq⟩

theorem IsSplice.exists_canSplice (h : IsSplice target arguments)
    (hf : (execute .working store arguments).failure = none) :
    ∃ source options place region catalog,
      Command.ofArguments arguments = .ok (.splice source target options) ∧
        CanSplice store source target options place region catalog := by
  obtain ⟨written, printed, heffect, -⟩ := exists_effect_of_failure_eq_none hf
  obtain ⟨command, _, hc, -⟩ := effect_eq_ok_iff.mp heffect
  obtain ⟨source, options, rfl⟩ := h.exists_of_ofArguments hc
  obtain ⟨place, region, catalog, hs, -⟩ := (effect_splice_iff hc).mp heffect
  exact ⟨source, options, place, region, catalog, hc, hs⟩

/-- The store with nothing changed but what stands between the markers of the file at a place. -/
def SplicedInto (store : FileStore) (place : Place) (region : Region) (written : FileStore) :
    Prop :=
  ∃ body, Region.ofText (region.withBody body).text = .ok (region.withBody body) ∧
    written = store.putRegion place (region.withBody body)

variable {place : Place} {region : Region} (hr : store.HoldsRegion target place region)

include hr

theorem splicedInto_self : SplicedInto store place region store :=
  ⟨region.body, hr.found, hr.putRegion_self.symm⟩

theorem SplicedInto.execute {current : FileStore} (hs : SplicedInto store place region current)
    (h : IsSplice target arguments) (sink : Sink) :
    SplicedInto store place region (execute sink current arguments).store := by
  cases heffect : effect current arguments with
  | error failure =>
    rw [execute_of_effect_error heffect]
    exact hs
  | ok result =>
    obtain ⟨command, _, hc, -⟩ := effect_eq_ok_iff.mp heffect
    obtain ⟨source, options, rfl⟩ := h.exists_of_ofArguments hc
    obtain ⟨other, found, catalog, hcan, hwritten, -⟩ := (effect_splice_iff hc).mp heffect
    obtain ⟨body, hbody, rfl⟩ := hs
    obtain ⟨rfl, rfl⟩ := (hr.putRegion hbody).unique hcan.holds
    have hspliced := source.ofText_spliced options catalog hbody
    rw [execute_of_effect_ok heffect, Sink.store_print, hwritten, FileStore.putRegion_putRegion]
    exact ⟨(source.spliced options catalog (region.withBody body)).body, hspliced, rfl⟩

theorem splicedInto_of_mem_executeAll {current : FileStore} (sink : Sink)
    (hs : SplicedInto store place region current) {runs : List (List String)}
    (h : ∀ arguments ∈ runs, IsSplice target arguments) :
    ∀ outcome ∈ executeAll sink current runs, SplicedInto store place region outcome.store := by
  induction runs generalizing current with
  | nil =>
    intro outcome ho
    cases ho
  | cons arguments runs ih =>
    have hnext := hs.execute hr (h arguments (List.mem_cons_self ..)) sink
    intro outcome ho
    rcases List.mem_cons.mp ho with rfl | ho
    · exact hnext
    · exact ih hnext (fun other hm => h other (List.mem_cons_of_mem _ hm)) outcome ho

end Target

/-- Splicing into a target that has a region: a splice of a catalog that can be loaded succeeds if
the target can be written; a splice that succeeds is up to date when it is run again; of two that
succeed the first makes no difference; and any sequence of splices, of which some may fail, keeps to
the inside of the region. -/
theorem splice_stable_last_wins {store : FileStore} {target text : String} {region : Region}
    (hreads : store.readText target = .ok text) (hfound : Region.ofText text = .ok region) :
    (∀ arguments source options catalog place,
      Command.ofArguments arguments = .ok (.splice source target options) →
      source.catalog store.readText = .ok catalog → store.Writable target place →
        (execute .working store arguments).failure = none) ∧
    (∀ arguments, IsSplice target arguments →
      let first := execute .working store arguments
      first.failure = none →
        execute .working first.store arguments = ⟨target ++ ": up to date\n", first.store, none⟩) ∧
    (∀ one other, IsSplice target one → IsSplice target other →
      let first := execute .working store one
      let second := execute .working first.store other
      let alone := execute .working store other
      first.failure = none → second.failure = none →
        alone.failure = none ∧ alone.store = second.store) ∧
    text = region.front ++ region.inner ++ region.back ∧
    ∃ place, store.LeadsTo target place ∧
      ∀ sink runs, (∀ arguments ∈ runs, IsSplice target arguments) →
        ∀ outcome ∈ executeAll sink store runs, ∃ after,
          Region.ofText after.text = .ok after ∧ after.opening = region.opening ∧
          after.front = region.front ∧ after.back = region.back ∧
          outcome.store.readText target = .ok (region.front ++ after.inner ++ region.back) ∧
          outcome.store = store.put place after.text.toByteArray := by
  obtain ⟨place, hr, htext⟩ := FileStore.exists_holdsRegion_iff.mpr ⟨hreads, hfound⟩
  refine ⟨?_, ?_, ?_, htext.symm, place, hr.leadsTo, ?_⟩
  · intro arguments source options catalog other hc hloads hw
    cases hr.leadsTo.unique hw.leadsTo
    rw [execute_of_canSplice hc ⟨hr, hloads, Or.inr hw⟩]
  · intro arguments hsplice first hfirst
    obtain ⟨source, options, _, _, catalog, hc, hcan⟩ := hsplice.exists_canSplice hfirst
    have hexec : first = _ := execute_of_canSplice hc hcan
    rw [hexec, execute_of_canSplice hc hcan.again, Source.spliced_spliced, bne_self_eq_false,
      FileStore.putRegion_putRegion]
    rfl
  · intro one other hone hother first second alone hfirst hsecond
    obtain ⟨source, options, _, found, catalog, hc, hcan⟩ := hone.exists_canSplice hfirst
    have hexec : first = _ := execute_of_canSplice hc hcan
    obtain ⟨source', options', _, found', catalog', hc', hcan'⟩ := hother.exists_canSplice hsecond
    have hexec' : second = _ := execute_of_canSplice hc' hcan'
    rw [hexec] at hcan' hexec'
    obtain ⟨rfl, rfl⟩ := hcan.again.holds.unique hcan'.holds
    have halone : alone = _ := execute_of_canSplice hc' (hcan.of_spliced hcan')
    rw [halone, hexec', Source.spliced_spliced, FileStore.putRegion_putRegion]
    exact ⟨rfl, rfl⟩
  · intro sink runs hruns outcome ho
    obtain ⟨body, hbody, hwritten⟩ :=
      splicedInto_of_mem_executeAll hr sink (splicedInto_self hr) hruns outcome ho
    have hread := (hr.putRegion hbody).readText
    rw [← hwritten] at hread
    exact ⟨region.withBody body, hbody, rfl, rfl, rfl, hread, hwritten⟩

def oddStore : FileStore := ⟨["home"], [(["home", "target"], Region.oddRegion.text.toByteArray)]⟩

theorem holdsRegion_oddStore :
    oddStore.HoldsRegion "target" ["home", "target"] Region.oddRegion :=
  ⟨⟨by decide +kernel, by decide +kernel⟩, rfl, Region.ofText_oddRegion⟩

theorem writable_oddStore : oddStore.Writable "target" ["home", "target"] :=
  ⟨⟨.entry ["home", FileStore.freshName] false, by decide +kernel⟩, holdsRegion_oddStore.leadsTo⟩

/-- Two catalogs spliced with different options into a file with mixed line endings. -/
theorem splice_stable_last_wins_odd : ∃ first second,
    execute .working oddStore ["splice", "core", "target"] = first ∧
      execute .working first.store ["splice", "prefix", "target", "--indent=4"] = second ∧
      first.failure = none ∧ second.failure = none ∧
      execute .working first.store ["splice", "core", "target"] =
        ⟨"target" ++ ": up to date\n", first.store, none⟩ ∧
      (execute .working oddStore ["splice", "prefix", "target", "--indent=4"]).store =
        second.store ∧
      ∀ outcome ∈ executeAll (.failsOnFlush .brokenPipe) oddStore
          [["splice", "core", "target"], ["splice", "prefix", "target"]], ∃ inner,
        outcome.store.readText "target" =
          .ok (Region.oddRegion.front ++ inner ++ Region.oddRegion.back) := by
  have hone : IsSplice "target" ["splice", "core", "target"] := ⟨_, _, rfl⟩
  have hother : IsSplice "target" ["splice", "prefix", "target", "--indent=4"] := ⟨_, _, rfl⟩
  have hruns : ∀ arguments ∈ [["splice", "core", "target"], ["splice", "prefix", "target"]],
      IsSplice "target" arguments := by simp [IsSplice]
  have hc : Command.ofArguments ["splice", "core", "target"] =
      .ok (.splice .core "target" .standard) := by decide +kernel
  have hc' : Command.ofArguments ["splice", "prefix", "target", "--indent=4"] =
      .ok (.splice .prefixes "target" ⟨none, .pretty, 4, none⟩) := by decide +kernel
  have hcore : Source.core.catalog oddStore.readText = .ok .core := rfl
  obtain ⟨hsucceeds, hagain, hlast, -, place, -, hinside⟩ :=
    splice_stable_last_wins holdsRegion_oddStore.readText Region.ofText_oddRegion
  have hfirst := hsucceeds _ _ _ _ _ hc hcore writable_oddStore
  have hexec := execute_of_canSplice hc ⟨holdsRegion_oddStore, hcore, Or.inr writable_oddStore⟩
  have hholds := holdsRegion_oddStore.putRegion
    (Source.core.ofText_spliced .standard .core Region.ofText_oddRegion)
  have hwritable := writable_oddStore.congr (holdsRegion_oddStore.leadsTo.sameDirectories_put
    (Source.core.spliced .standard .core Region.oddRegion).text.toByteArray)
  have hsecond : (execute .working (execute .working oddStore ["splice", "core", "target"]).store
      ["splice", "prefix", "target", "--indent=4"]).failure = none := by
    rw [hexec, execute_of_canSplice hc' ⟨hholds, rfl, Or.inr hwritable⟩]
  refine ⟨_, _, rfl, rfl, hfirst, hsecond, hagain _ hone hfirst,
    (hlast _ _ hone hother hfirst hsecond).2, ?_⟩
  intro outcome ho
  obtain ⟨after, -, -, -, -, hread, -⟩ := hinside (.failsOnFlush .brokenPipe) _ hruns outcome ho
  exact ⟨after.inner, hread⟩

end DispatchTree

import DispatchTree.Proofs.Atomicity
import DispatchTree.Proofs.Classes
import DispatchTree.Proofs.Splicing
/-! One fragment on all ways.
The code of a catalog is printed, written to a file of its own or put into a region.  On all these
ways it is the fragment of the tree that is built from the names of the catalog: what is put into a
region has the lines of that fragment, each behind the margin and with the ending of the file. -/
namespace DispatchTree
open Text

namespace Draft

theorem layout_putNames (call : String → String) (d : Draft) (names : List String) :
    (d.putNames call names).layout = d.layout := by
  induction names generalizing d with
  | nil => rfl
  | cons name names ih => rw [putNames_cons, ih, layout_putUnder]

theorem layout_putTree (call : String → String) (d : Draft) (tree : Tree) :
    (d.putTree call tree).layout = d.layout := by
  induction tree generalizing d with
  | leaf names => exact layout_putNames call d names
  | split f t left right ihl ihr => rw [putTree_split, ihl, layout_leave, ihr, layout_enter]

end Draft

namespace Tree

variable (call : String → String) (margin : String) (tree : Tree)

theorem getLast?_fullCode_pretty (indent : Nat) :
    (tree.fullCode call (.pretty indent) margin).toList.getLast? = some '\n' := by
  have hlayout : ((Draft.new (.pretty indent) margin).putTree call tree).layout = .pretty indent :=
    Draft.layout_putTree ..
  unfold fullCode Draft.put
  rw [hlayout]
  simp [List.getLast?_append]

theorem getLast?_fullCode_compact :
    (tree.fullCode call .compact margin).toList.getLast? = some ';' := by
  have hlayout : ((Draft.new .compact margin).putTree call tree).layout = .compact :=
    Draft.layout_putTree ..
  unfold fullCode Draft.put
  rw [hlayout]
  simp [noMatch, List.getLast?_append]

end Tree

theorem Plan.endLine_fullCode (call : String → String) (margin : String) (tree : Tree)
    (options : Options) : endLine (tree.fullCode call options.layout margin) =
      match options.layoutKind with
      | .pretty => tree.fullCode call (.pretty options.indent.toNat) margin
      | .compact => tree.fullCode call .compact margin ++ "\n" := by
  unfold endLine Options.layout
  cases options.layoutKind with
  | pretty => exact if_pos (tree.getLast?_fullCode_pretty call margin _)
  | compact =>
    have hlast := tree.getLast?_fullCode_compact call margin
    refine if_neg ?_
    rw [hlast]
    decide

theorem Tree.build_catalog (catalog : Catalog) :
    build catalog.names = .ok (ofCatalog catalog) := by
  refine buildWith_eq_ok .entropy catalog.names_ne_nil fun name hn => ?_
  have hidentifier := catalog.identifiers name hn
  refine ⟨?_, isAscii_of_isIdentifier hidentifier⟩
  rintro rfl
  simp at hidentifier

theorem Source.inner_spliced (source : Source) (options : Options) (catalog : Catalog)
    {text : String} {region : Region} (h : Region.ofText text = .ok region) :
    (source.spliced options catalog region).inner = String.ofList
      ((lines (source.codeOf options (.pretty options.indent.toNat) "" catalog).toList).flatMap
        fun line => region.margin.toList ++ content line ++ region.ending.chars) := by
  have hplain := source.isPlain_of_mem_fullCodeLines options catalog
  have hbare := CodeLine.map_content_lines_text hplain options.indent.toNat
    (by simp : '\n' ∉ "".toList)
  have hcode := CodeLine.map_content_lines_text hplain options.indent.toNat
    (Region.newline_not_mem_margin h)
  rw [← source.codeOf_pretty_eq_text options catalog] at hbare hcode
  have hlines : (lines (source.codeFor options catalog region).toList).map content =
      (lines (source.codeOf options (.pretty options.indent.toNat) "" catalog).toList).map
        fun line => region.margin.toList ++ content line := by
    rw [codeFor, hcode]
    show _ = List.map ((region.margin.toList ++ ·) ∘ content) _
    rw [← List.map_map, hbare, List.map_map]
    exact List.map_congr_left fun line _ => line.content_eq_append _ _
  have hcomplete : region.ending.completeLines (source.codeFor options catalog region).toList =
      ((lines (source.codeFor options catalog region).toList).map content).map
        (· ++ region.ending.chars) := by
    rw [LineEnding.completeLines, List.map_map]
    rfl
  show String.ofList (region.ending.completeLines _).flatten = _
  rw [hcomplete, hlines, List.map_map, List.flatMap_def]
  rfl

theorem Command.ofArguments_emit {rest : List String} {options : Options}
    (h : Options.ofArguments rest = .ok options) (argument : String) :
    ofArguments ("emit" :: argument :: rest) = .ok (.emit (.ofArgument argument) options) := by
  rw [ofArguments, if_pos rfl, sourceAndOptions, h]
  rfl

section Emit

variable {store : FileStore} {arguments : List String} {source : Source} {options : Options}
  {catalog : Catalog} (hc : Command.ofArguments arguments = .ok (.emit source options))
  (hloads : source.catalog store.readText = .ok catalog)

include hc hloads

theorem execute_emit_of_output_eq_none (ho : options.output = none) :
    execute .working store arguments =
      ⟨Plan.endLine (source.codeOf options options.layout "" catalog), store, none⟩ := by
  have hplan : Plan.emit store.readText source options =
      .ok ⟨none, Plan.endLine (source.codeOf options options.layout "" catalog)⟩ :=
    Plan.emit_eq_ok_iff.mpr ⟨catalog, hloads, by rw [ho]⟩
  exact execute_of_effect_ok
    (effect_eq_ok_iff.mpr ⟨_, _, hc, hplan, Plan.settle_none.mpr rfl, rfl⟩) .working

theorem failure_emit {path : String} {place : Place} (ho : options.output = some path)
    (hw : store.Writable path place) : (execute .working store arguments).failure = none := by
  have hplan : Plan.emit store.readText source options =
      .ok ⟨some (path, source.codeOf options options.layout "" catalog), ""⟩ :=
    Plan.emit_eq_ok_iff.mpr ⟨catalog, hloads, by rw [ho]⟩
  have heffect := effect_eq_ok_iff.mpr
    ⟨_, _, hc, hplan, Plan.settle_some.mpr ⟨place, hw, rfl⟩, rfl⟩
  rw [execute_of_effect_ok heffect]
  rfl

theorem readText_emit {path : String} (ho : options.output = some path) {sink : Sink}
    (hf : (execute sink store arguments).failure = none) :
    (execute sink store arguments).store.readText path =
      .ok (source.codeOf options options.layout "" catalog) := by
  obtain ⟨written, printed, heffect, hstore⟩ := exists_effect_of_failure_eq_none hf
  obtain ⟨command, hcommand, hsettled⟩ := settled_of_effect heffect
  cases hc.symm.trans hcommand
  rw [hstore]
  cases hsettled with
  | untouched output => cases ho.symm.trans output
  | put output leaves leadsTo =>
    cases ho.symm.trans output
    cases leaves with
    | emit _ loads =>
      cases hloads.symm.trans loads
      exact FileStore.readText_put_self leadsTo _

end Emit

theorem store_splice {store : FileStore} {arguments : List String} {source : Source}
    {target : String} {options : Options} {place : Place} {region : Region} {catalog : Catalog}
    (hc : Command.ofArguments arguments = .ok (.splice source target options))
    (hr : store.HoldsRegion target place region)
    (hloads : source.catalog store.readText = .ok catalog) {sink : Sink}
    (hf : (execute sink store arguments).failure = none) :
    (execute sink store arguments).store =
      store.putRegion place (source.spliced options catalog region) := by
  obtain ⟨written, printed, heffect, hstore⟩ := exists_effect_of_failure_eq_none hf
  obtain ⟨other, found, loaded, hcan, hwritten, -⟩ := (effect_splice_iff hc).mp heffect
  obtain ⟨rfl, rfl⟩ := hr.unique hcan.holds
  cases hloads.symm.trans hcan.loads
  rw [hstore, hwritten]

/-- Whatever argument names a catalog and whatever options are set, the tree of the catalog is the
one that is built from its names, and its fragment is what is printed, what is left in a file of its
own, and what a region holds line by line behind a splice. -/
theorem artifacts_agree {store : FileStore} {argument : String} {catalog : Catalog}
    (hloads : (Source.ofArgument argument).catalog store.readText = .ok catalog)
    {rest : List String} {options : Options} (hoptions : Options.ofArguments rest = .ok options) :
    ∃ tree, Tree.build catalog.names = .ok tree ∧ tree = Tree.ofCatalog catalog ∧
      let call := ((Source.ofArgument argument).callForm options).call
      let pretty := tree.fullCode call (.pretty options.indent.toNat) ""
      let compact := tree.fullCode call .compact ""
      let emitted := fun sink => execute sink store ("emit" :: argument :: rest)
      (options.output = none →
        (options.layoutKind = .pretty → emitted .working = ⟨pretty, store, none⟩) ∧
        (options.layoutKind = .compact → emitted .working = ⟨compact ++ "\n", store, none⟩)) ∧
      (∀ path, options.output = some path →
        (∀ place, store.Writable path place → (emitted .working).failure = none) ∧
        ∀ sink, (emitted sink).failure = none →
          (options.layoutKind = .pretty → (emitted sink).store.readText path = .ok pretty) ∧
          (options.layoutKind = .compact → (emitted sink).store.readText path = .ok compact)) ∧
      ∀ target text region sink, store.readText target = .ok text →
        Region.ofText text = .ok region →
        let spliced := execute sink store ("splice" :: argument :: target :: rest)
        spliced.failure = none → ∃ after, spliced.store.readText target = .ok after.text ∧
          Region.ofText after.text = .ok after ∧ after.margin = region.margin ∧
          after.ending = region.ending ∧
          after.inner = String.ofList ((lines pretty.toList).flatMap fun line =>
            region.margin.toList ++ content line ++ region.ending.chars) := by
  refine ⟨_, Tree.build_catalog catalog, rfl, ?_, ?_, ?_⟩
  · intro ho
    have hemit := execute_emit_of_output_eq_none (Command.ofArguments_emit hoptions argument)
      hloads ho
    rw [Source.codeOf, Plan.endLine_fullCode] at hemit
    refine ⟨fun hkind => ?_, fun hkind => ?_⟩
    · rw [hkind] at hemit
      exact hemit
    · rw [hkind] at hemit
      exact hemit
  · intro path ho
    refine ⟨fun place hw => failure_emit (Command.ofArguments_emit hoptions argument) hloads ho hw,
      fun sink hf => ?_⟩
    have hemit := readText_emit (Command.ofArguments_emit hoptions argument) hloads ho hf
    rw [Source.codeOf, Options.layout] at hemit
    refine ⟨fun hkind => ?_, fun hkind => ?_⟩
    · rw [hkind] at hemit
      exact hemit
    · rw [hkind] at hemit
      exact hemit
  · intro target text region sink hreads hfound spliced hf
    obtain ⟨written, printed, heffect, -⟩ := exists_effect_of_failure_eq_none hf
    obtain ⟨command, _, hc, -⟩ := effect_eq_ok_iff.mp heffect
    obtain ⟨set, hset, rfl⟩ := Command.exists_options_of_splice hc
    cases hoptions.symm.trans hset
    obtain ⟨place, hr, -⟩ := FileStore.exists_holdsRegion_iff.mpr ⟨hreads, hfound⟩
    have hspliced := (Source.ofArgument argument).ofText_spliced options catalog hfound
    have hread := (hr.putRegion hspliced).readText
    rw [← store_splice hc hr hloads hf] at hread
    exact ⟨_, hread, hspliced, rfl, rfl,
      (Source.ofArgument argument).inner_spliced options catalog hfound⟩

/-- The three ways for the same catalog, in different layouts and with different calls. -/
theorem artifacts_agree_core :
    execute .working oddStore ["emit", "core", "--call=direct", "--layout=compact"] =
      ⟨(Tree.ofCatalog .core).fullCode CallForm.direct.call .compact "" ++ "\n", oddStore, none⟩ ∧
    (execute .working oddStore ["emit", "core", "--indent=4", "-o", "out"]).store.readText "out" =
      .ok ((Tree.ofCatalog .core).fullCode CallForm.factory.call (.pretty 4) "") ∧
    ∃ after : Region,
      (execute .working oddStore ["splice", "core", "target"]).store.readText "target" =
        .ok after.text ∧
      after.inner = String.ofList ((lines ((Tree.ofCatalog .core).fullCode CallForm.factory.call
        (.pretty 2) "").toList).flatMap fun line =>
          Region.oddRegion.margin.toList ++ content line ++ Region.oddRegion.ending.chars) := by
  have hloads : (Source.ofArgument "core").catalog oddStore.readText = .ok .core := rfl
  have hcompact : Options.ofArguments ["--call=direct", "--layout=compact"] =
      .ok ⟨some .direct, .compact, 2, none⟩ := by decide +kernel
  have hindent : Options.ofArguments ["--indent=4", "-o", "out"] =
      .ok ⟨none, .pretty, 4, some "out"⟩ := by decide +kernel
  have hnone : Options.ofArguments [] = .ok .standard := rfl
  have hwritable : oddStore.Writable "out" ["home", "out"] :=
    ⟨⟨.entry ["home", FileStore.freshName] false, by decide +kernel⟩,
      ⟨by decide +kernel, by decide +kernel⟩⟩
  have hcommand : Command.ofArguments ["splice", "core", "target"] =
      .ok (.splice .core "target" .standard) := by decide +kernel
  have hsplice := execute_of_canSplice hcommand
    ⟨holdsRegion_oddStore, hloads, Or.inr writable_oddStore⟩
  obtain ⟨_, -, rfl, hprinted, -, -⟩ := artifacts_agree hloads hcompact
  obtain ⟨_, -, rfl, -, hwritten, -⟩ := artifacts_agree hloads hindent
  obtain ⟨_, -, rfl, -, -, hspliced⟩ := artifacts_agree hloads hnone
  obtain ⟨hsucceeds, hleft⟩ := hwritten "out" rfl
  refine ⟨(hprinted rfl).2 rfl, (hleft .working (hsucceeds _ hwritable)).1 rfl, ?_⟩
  obtain ⟨after, hread, -, -, -, hinner⟩ := hspliced "target" Region.oddRegion.text Region.oddRegion
    .working holdsRegion_oddStore.readText Region.ofText_oddRegion (by rw [hsplice])
  exact ⟨after, hread, hinner⟩

end DispatchTree

import DispatchTree.Proofs.Settings
/-! What an argument list sets.
An argument list sets each option to what the last unit for it says, unless one of its units is an
error; then the first such unit decides.  Lists add up, neighbours for different options change
places, and all options have a list that sets them. -/
namespace DispatchTree
open Text

namespace Setting

inductive Field where
  | call
  | layout
  | indent
  | output
  deriving DecidableEq

def field : Setting → Field
  | call _ => .call
  | layout _ => .layout
  | indent _ => .indent
  | output _ => .output

def call? : Setting → Option CallForm
  | call form => some form
  | _ => none

def layout? : Setting → Option LayoutKind
  | layout kind => some kind
  | _ => none

def indent? : Setting → Option UInt64
  | indent width => some width
  | _ => none

def output? : Setting → Option String
  | output path => some path
  | _ => none

end Setting

namespace Options

/-- Each option with the last value that settings give for it, or as it was. -/
def updated (options : Options) (settings : List Setting) : Options where
  call := (settings.filterMap Setting.call?).getLast?.or options.call
  layoutKind := (settings.filterMap Setting.layout?).getLast?.getD options.layoutKind
  indent := (settings.filterMap Setting.indent?).getLast?.getD options.indent
  output := (settings.filterMap Setting.output?).getLast?.or options.output

theorem foldl_set (options : Options) (settings : List Setting) :
    settings.foldl set options = options.updated settings := by
  induction settings generalizing options with
  | nil => rfl
  | cons setting settings ih =>
    rw [List.foldl_cons, ih]
    cases setting <;>
      simp [updated, set, Setting.call?, Setting.layout?, Setting.indent?, Setting.output?,
        List.getLast?_cons]

theorem updated_append (options : Options) (settings more : List Setting) :
    options.updated (settings ++ more) = (options.updated settings).updated more := by
  rw [← foldl_set, ← foldl_set, ← foldl_set, List.foldl_append]

theorem set_comm (options : Options) {setting other : Setting} (h : setting.field ≠ other.field) :
    (options.set setting).set other = (options.set other).set setting := by
  cases setting <;> cases other <;> first | rfl | exact absurd rfl h

variable {arguments : List String} {units : List OptionUnit}

theorem ofArguments_of_split (h : OptionUnit.Split arguments units) :
    ofArguments arguments = (units.mapM Setting.ofUnit).map standard.updated := by
  rw [ofArguments, ← OptionUnit.split_iff.mp h]
  cases units.mapM Setting.ofUnit with
  | error e => rfl
  | ok settings => exact congrArg Except.ok (foldl_set standard settings)

theorem ofArguments_of_sets (h : OptionUnit.Split arguments units) {settings : List Setting}
    (hs : List.Forall₂ Setting.Sets units settings) :
    ofArguments arguments = .ok (standard.updated settings) := by
  rw [ofArguments_of_split h, Setting.mapM_ofUnit_of_sets hs]
  rfl

/-- What the units of an argument list come to. -/
inductive Outcome : List OptionUnit → Except OptionError Options → Prop where
  | ok {units : List OptionUnit} {settings : List Setting}
    (h : List.Forall₂ Setting.Sets units settings) :
    Outcome units (.ok (standard.updated settings))
  | error {front back : List OptionUnit} {unit : OptionUnit} {e : OptionError}
    (hfront : ∀ other ∈ front, ∃ setting, Setting.Sets other setting)
    (hunit : ∀ setting, ¬ Setting.Sets unit setting) (he : Setting.Refuses unit e) :
    Outcome (front ++ unit :: back) (.error e)

theorem exists_outcome (units : List OptionUnit) : ∃ result, Outcome units result := by
  rcases Setting.forall_sets_or_exists_refuses units with
    ⟨settings, hs⟩ | ⟨front, unit, back, e, rfl, hfront, he⟩
  · exact ⟨_, .ok hs⟩
  · exact ⟨_, .error hfront (Setting.not_sets_of_refuses he) he⟩

theorem ofArguments_of_outcome (h : OptionUnit.Split arguments units)
    {result : Except OptionError Options} (ho : Outcome units result) :
    ofArguments arguments = result := by
  cases ho with
  | ok hs => exact ofArguments_of_sets h hs
  | error hfront _ he =>
    rw [ofArguments_of_split h, Setting.mapM_ofUnit_of_refuses hfront he]
    rfl

theorem ofArguments_eq_iff (h : OptionUnit.Split arguments units)
    {result : Except OptionError Options} :
    ofArguments arguments = result ↔ Outcome units result := by
  constructor
  · rintro rfl
    obtain ⟨result, ho⟩ := exists_outcome units
    exact (ofArguments_of_outcome h ho).symm ▸ ho
  · exact ofArguments_of_outcome h

theorem exists_sets_of_ofArguments {options : Options} (h : ofArguments arguments = .ok options) :
    ∃ units settings, OptionUnit.Split arguments units ∧
      List.Forall₂ Setting.Sets units settings ∧ options = standard.updated settings := by
  obtain ⟨units, hsplit⟩ : ∃ units, OptionUnit.Split arguments units :=
    ⟨_, OptionUnit.split_ofArguments arguments⟩
  cases (ofArguments_eq_iff hsplit).mp h with
  | ok hs => exact ⟨_, _, hsplit, hs, rfl⟩

theorem ofArguments_append {front back : List String} {options others : Options}
    (hf : ofArguments front = .ok options) (hb : ofArguments back = .ok others) :
    ∃ units settings, OptionUnit.Split back units ∧ List.Forall₂ Setting.Sets units settings ∧
      others = standard.updated settings ∧
        ofArguments (front ++ back) = .ok (options.updated settings) := by
  obtain ⟨units, settings, hfront, hs, rfl⟩ := exists_sets_of_ofArguments hf
  obtain ⟨more, changes, hback, hc, rfl⟩ := exists_sets_of_ofArguments hb
  -- A dangling option at the end of the first list would take the start of the second one.
  have hwhole : .danglingOutput ∉ units := by
    intro hm
    obtain ⟨setting, hsets⟩ := Setting.exists_sets_of_mem hs hm
    exact Setting.not_sets_of_refuses .danglingOutput setting hsets
  refine ⟨more, changes, hback, hc, rfl, ?_⟩
  rw [ofArguments_of_sets (hfront.append hwhole hback) (List.rel_append hs hc), updated_append]

theorem ofArguments_swap {arguments others : List String} {front back : List OptionUnit}
    {unit neighbour : OptionUnit} {setting other : Setting}
    (ha : OptionUnit.Split arguments (front ++ unit :: neighbour :: back))
    (ho : OptionUnit.Split others (front ++ neighbour :: unit :: back))
    (hu : Setting.Sets unit setting) (hn : Setting.Sets neighbour other)
    (hne : setting.field ≠ other.field) : ofArguments arguments = ofArguments others := by
  rw [ofArguments_of_split ha, ofArguments_of_split ho]
  simp only [List.mapM_append, List.mapM_cons, Setting.ofUnit_of_sets hu,
    Setting.ofUnit_of_sets hn]
  cases front.mapM Setting.ofUnit with
  | error e => rfl
  | ok before =>
    cases back.mapM Setting.ofUnit with
    | error e => rfl
    | ok behind =>
      have hcomm : standard.updated (before ++ setting :: other :: behind) =
          standard.updated (before ++ other :: setting :: behind) := by
        simp only [← foldl_set, List.foldl_append, List.foldl_cons]
        rw [set_comm _ hne]
      exact congrArg Except.ok hcomm

def settings (options : Options) : List Setting :=
  (options.call.map .call).toList ++ [.layout options.layoutKind, .indent options.indent] ++
    (options.output.map .output).toList

theorem sets_toArguments (options : Options) :
    List.Forall₂ Setting.Sets (options.toArguments.map .single) options.settings := by
  have hcall := Setting.forall₂_sets_toList .call options.call
  have hlayout : List.Forall₂ Setting.Sets
      [.single ("--layout=" ++ options.layoutKind.text),
        .single ("--indent=" ++ decimal options.indent.toNat)]
      [.layout options.layoutKind, .indent options.indent] :=
    .cons (.layout options.layoutKind) (.cons (.indent (isWidth_decimal options.indent)) .nil)
  have houtput := Setting.forall₂_sets_toList .longOutput options.output
  rw [toArguments, List.map_append, List.map_append]
  exact List.rel_append (List.rel_append hcall hlayout) houtput

theorem updated_settings (options : Options) : standard.updated options.settings = options := by
  obtain ⟨call, kind, width, output⟩ := options
  cases call <;> cases output <;> rfl

theorem ofArguments_toArguments (options : Options) :
    ofArguments options.toArguments = .ok options := by
  have hs := sets_toArguments options
  have hsingle : ∀ argument ∈ options.toArguments, argument ≠ "-o" := by
    intro argument ha
    obtain ⟨setting, hsets⟩ := Setting.exists_sets_of_mem hs (List.mem_map_of_mem ha)
    exact Setting.ne_of_sets hsets
  rw [ofArguments_of_sets (OptionUnit.split_map_single hsingle) hs, updated_settings]

/-- An argument list has one split into units.  Each option gets what the last unit for it says, and
the first unit that says nothing is the error.  So lists that are both read add up, with the second
one over the first; neighbours for different options may change places; and all options are read
back from their canonical list. -/
theorem ofArguments_last_wins :
    (∀ arguments, ∃ units, (∀ others, OptionUnit.Split arguments others ↔ others = units) ∧
      ∀ result, ofArguments arguments = result ↔ Outcome units result) ∧
    (∀ (front back : List String) (options others : Options),
      ofArguments front = .ok options → ofArguments back = .ok others →
        ∃ units settings, OptionUnit.Split back units ∧
          List.Forall₂ Setting.Sets units settings ∧ others = standard.updated settings ∧
            ofArguments (front ++ back) = .ok (options.updated settings)) ∧
    (∀ (arguments others : List String) (front back : List OptionUnit)
      (unit neighbour : OptionUnit) (setting other : Setting),
      OptionUnit.Split arguments (front ++ unit :: neighbour :: back) →
      OptionUnit.Split others (front ++ neighbour :: unit :: back) →
      Setting.Sets unit setting → Setting.Sets neighbour other → setting.field ≠ other.field →
        ofArguments arguments = ofArguments others) ∧
    ∀ options : Options, ofArguments options.toArguments = .ok options := by
  refine ⟨fun arguments => ?_, fun front back options others => ofArguments_append,
    fun arguments others front back unit neighbour setting other => ofArguments_swap,
    ofArguments_toArguments⟩
  exact ⟨OptionUnit.ofArguments arguments, fun others => OptionUnit.split_iff, fun result =>
    ofArguments_eq_iff (OptionUnit.split_ofArguments arguments)⟩

/-- The short option takes a path that looks like an option, a later list goes over it, and two
units for different options change places. -/
theorem ofArguments_last_wins_swallowed :
    ofArguments (["-o", "--layout=compact"] ++ ["--indent=+07", "--output=x"]) =
        .ok ⟨none, .pretty, 7, some "x"⟩ ∧
      ofArguments ["-o", "-o", "--call=direct"] = ofArguments ["--call=direct", "-o", "-o"] := by
  obtain ⟨-, happend, hswap, -⟩ := ofArguments_last_wins
  constructor
  · obtain ⟨units, settings, hsplit, hs, -, hok⟩ := happend ["-o", "--layout=compact"]
      ["--indent=+07", "--output=x"] ⟨none, .pretty, 2, some "--layout=compact"⟩
      ⟨none, .pretty, 7, some "x"⟩ (by decide) (by decide)
    have hsettings : (.ok settings : Except OptionError _) = .ok [.indent 7, .output "x"] := by
      rw [← Setting.mapM_ofUnit_of_sets hs, OptionUnit.split_iff.mp hsplit]
      decide
    cases hsettings
    exact hok
  · exact hswap ["-o", "-o", "--call=direct"] ["--call=direct", "-o", "-o"] [] []
      (.output "-o") (.single ("--call=" ++ CallForm.direct.text)) (.output "-o") (.call .direct)
      (.output "-o" (.single (by decide) .nil)) (.single (by decide) (.output "-o" .nil))
      (.output "-o") (.call .direct) (by decide)

end Options
end DispatchTree

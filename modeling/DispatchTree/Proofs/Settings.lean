import Mathlib.Data.List.Forall2
import DispatchTree.Command.Options
import DispatchTree.Proofs.Identifiers
/-! What the units of an argument list say.
An argument list falls into units in one way only, and each unit makes a setting or is an error,
never both.  So the units of a list make one setting each, or a first one of them does not. -/
namespace DispatchTree
open Text

/-- An argument list falls into units from the left: the short output option takes the argument
behind it, and each other argument is a unit by itself. -/
inductive OptionUnit.Split : List String → List OptionUnit → Prop where
  | nil : Split [] []
  | output (path : String) {rest : List String} {units : List OptionUnit} (h : Split rest units) :
    Split ("-o" :: path :: rest) (.output path :: units)
  | danglingOutput : Split ["-o"] [.danglingOutput]
  | single {argument : String} {rest : List String} {units : List OptionUnit}
    (hne : argument ≠ "-o") (h : Split rest units) :
    Split (argument :: rest) (.single argument :: units)

namespace OptionUnit

theorem split_ofArguments (arguments : List String) : Split arguments (ofArguments arguments) := by
  induction arguments using ofArguments.induct with
  | case1 => exact .nil
  | case2 => exact .danglingOutput
  | case3 argument hne =>
    rw [ofArguments, if_neg hne]
    exact .single hne .nil
  | case4 next rest ih =>
    rw [ofArguments, if_pos rfl]
    exact .output next ih
  | case5 argument next rest hne ih =>
    rw [ofArguments, if_neg hne]
    exact .single hne ih

theorem split_iff {arguments : List String} {units : List OptionUnit} :
    Split arguments units ↔ units = ofArguments arguments := by
  constructor
  · intro h
    induction h with
    | nil => rfl
    | output path _ ih => rw [ofArguments, if_pos rfl, ih]
    | danglingOutput => rfl
    | @single argument rest units hne _ ih =>
      rw [ih]
      cases rest with
      | nil => simp [ofArguments, hne]
      | cons next rest => rw [ofArguments, if_neg hne]
  · rintro rfl
    exact split_ofArguments arguments

theorem Split.append {front back : List String} {units others : List OptionUnit}
    (h : Split front units) (hwhole : .danglingOutput ∉ units) (hb : Split back others) :
    Split (front ++ back) (units ++ others) := by
  induction h with
  | nil => exact hb
  | output path _ ih => exact .output path (ih fun hm => hwhole (List.mem_cons_of_mem _ hm))
  | danglingOutput => exact absurd (List.mem_cons_self ..) hwhole
  | single hne _ ih => exact .single hne (ih fun hm => hwhole (List.mem_cons_of_mem _ hm))

theorem split_map_single {arguments : List String} (h : ∀ argument ∈ arguments, argument ≠ "-o") :
    Split arguments (arguments.map .single) := by
  induction arguments with
  | nil => exact .nil
  | cons argument rest ih =>
    exact .single (h argument (List.mem_cons_self ..))
      (ih fun other ho => h other (List.mem_cons_of_mem _ ho))

end OptionUnit

theorem CallForm.ofText_eq_error {text : String} (h : ∀ form : CallForm, text ≠ form.text) :
    ofText text = .error ⟨text⟩ := by
  have hdirect : text ≠ "direct" := h direct
  have hfactory : text ≠ "factory" := h factory
  rw [ofText, if_neg hdirect, if_neg hfactory]

theorem LayoutKind.ofText?_eq_some_iff {text : String} {kind : LayoutKind} :
    ofText? text = some kind ↔ text = kind.text := by
  constructor
  · intro h
    unfold ofText? at h
    split at h
    · cases h
      assumption
    split at h
    · cases h
      assumption
    · cases h
  · rintro rfl
    exact ofText?_text kind

/-- A text that gives a width: ASCII digits, at least one, with or without a plus sign in front. -/
def IsWidth (text : String) (width : UInt64) : Prop :=
  ∃ digits, (text.toList = digits ∨ text.toList = '+' :: digits) ∧ digits ≠ [] ∧
    (∀ c ∈ digits, IsAsciiDigit c) ∧ Nat.ofDigitChars 10 digits 0 = width.toNat

theorem readDecimal_eq_some_iff {digits : List Char} {n : Nat} : readDecimal digits = some n ↔
    digits ≠ [] ∧ (∀ c ∈ digits, IsAsciiDigit c) ∧ Nat.ofDigitChars 10 digits 0 = n := by
  have hdigits : digits.all Char.isDigit = true ↔ ∀ c ∈ digits, IsAsciiDigit c := by
    rw [List.all_eq_true]
    exact forall₂_congr fun c _ => isDigit_iff
  unfold readDecimal
  split
  · rename_i h
    rw [hdigits] at h
    rw [Option.some.injEq]
    exact ⟨fun heq => ⟨h.1, h.2, heq⟩, fun hall => hall.2.2⟩
  · rename_i h
    rw [hdigits] at h
    exact ⟨fun heq => absurd heq (by simp), fun hall => absurd ⟨hall.1, hall.2.1⟩ h⟩

theorem isWidth_decimal (width : UInt64) : IsWidth (decimal width.toNat) width := by
  obtain ⟨hne, hall, hvalue⟩ := readDecimal_eq_some_iff.mp (readDecimal_toDigits width.toNat)
  exact ⟨_, .inl (toList_decimal width.toNat), hne, hall, hvalue⟩

theorem exists_readWidth_eq_bind (text : String) : ∃ digits,
    (text.toList = digits ∧ (∀ rest, digits ≠ '+' :: rest) ∨ text.toList = '+' :: digits) ∧
      readWidth text = (readDecimal digits).bind fun n =>
        if n < UInt64.size then some (UInt64.ofNat n) else none := by
  unfold readWidth
  split
  · rename_i rest heq
    refine ⟨rest, Or.inr heq, ?_⟩
    dsimp only
    cases readDecimal rest <;> rfl
  · rename_i hplus
    refine ⟨text.toList, Or.inl ⟨rfl, hplus⟩, ?_⟩
    dsimp only
    cases readDecimal text.toList <;> rfl

theorem readWidth_eq_some_iff {text : String} {width : UInt64} :
    readWidth text = some width ↔ IsWidth text width := by
  obtain ⟨digits, hdigits, hread⟩ := exists_readWidth_eq_bind text
  rw [hread, Option.bind_eq_some_iff]
  constructor
  · rintro ⟨n, hn, hwidth⟩
    split at hwidth
    · rename_i hlt
      cases hwidth
      obtain ⟨hne, hall, rfl⟩ := readDecimal_eq_some_iff.mp hn
      exact ⟨digits, hdigits.imp_left And.left, hne, hall, (UInt64.toNat_ofNat_of_lt hlt).symm⟩
    · cases hwidth
  · rintro ⟨digits', hdigits', hne, hall, hvalue⟩
    have hplus : ¬ IsAsciiDigit '+' := fun h => absurd h.1 (by decide)
    obtain rfl : digits' = digits := by
      rcases hdigits with ⟨heq, hunsigned⟩ | hsigned <;> rcases hdigits' with heq' | hsigned'
      · exact heq'.symm.trans heq
      · exact absurd (heq.symm.trans hsigned') (hunsigned digits')
      · exact absurd (hall '+' (heq' ▸ hsigned ▸ List.mem_cons_self ..)) hplus
      · exact (List.cons.inj (hsigned'.symm.trans hsigned)).2
    refine ⟨width.toNat, readDecimal_eq_some_iff.mpr ⟨hne, hall, hvalue⟩, ?_⟩
    rw [if_pos width.toNat_lt, UInt64.ofNat_toNat]

namespace Setting

/-- A unit that is well formed makes its setting. -/
inductive Sets : OptionUnit → Setting → Prop where
  | output (path : String) : Sets (.output path) (.output path)
  | call (form : CallForm) : Sets (.single ("--call=" ++ form.text)) (.call form)
  | layout (kind : LayoutKind) : Sets (.single ("--layout=" ++ kind.text)) (.layout kind)
  | indent {text : String} {width : UInt64} (h : IsWidth text width) :
    Sets (.single ("--indent=" ++ text)) (.indent width)
  | longOutput (path : String) : Sets (.single ("--output=" ++ path)) (.output path)

def keys : List String := ["--call=", "--layout=", "--indent=", "--output="]

/-- The error of a unit that is not well formed. -/
inductive Refuses : OptionUnit → OptionError → Prop where
  | danglingOutput : Refuses .danglingOutput .danglingOutput
  | call {text : String} (h : ∀ form : CallForm, text ≠ form.text) :
    Refuses (.single ("--call=" ++ text)) (.unknownCallForm ⟨text⟩)
  | layout {text : String} (h : ∀ kind : LayoutKind, text ≠ kind.text) :
    Refuses (.single ("--layout=" ++ text)) (.unknownLayout text)
  | indent {text : String} (h : ∀ width, ¬ IsWidth text width) :
    Refuses (.single ("--indent=" ++ text)) (.badIndent text)
  | unknown {argument : String} (h : ∀ key ∈ keys, ∀ text, argument ≠ key ++ text) :
    Refuses (.single argument) (.unknownOption argument)

theorem valueAfter?_append (key value : String) : valueAfter? key (key ++ value) = some value := by
  simp [valueAfter?]

theorem eq_append_of_valueAfter? {key text value : String} (h : valueAfter? key text = some value) :
    text = key ++ value := by
  unfold valueAfter? at h
  split at h
  · rename_i hprefix
    cases h
    obtain ⟨rest, hrest⟩ := List.isPrefixOf_iff_prefix.mp hprefix
    rw [← String.toList_inj, ← hrest]
    simp
  · cases h

theorem valueAfter?_eq_none_iff {key text : String} :
    valueAfter? key text = none ↔ ∀ value, text ≠ key ++ value := by
  constructor
  · rintro h value rfl
    rw [valueAfter?_append] at h
    cases h
  · intro h
    cases hv : valueAfter? key text with
    | none => rfl
    | some value => exact absurd (eq_append_of_valueAfter? hv) (h value)

/-- No key is the start of another, so an argument is read by the key that it starts with. -/
theorem valueAfter?_of_ne {key other : String} (hk : key ∈ keys) (ho : other ∈ keys)
    (hne : key ≠ other) (text : String) : valueAfter? key (other ++ text) = none := by
  simp only [keys, List.mem_cons, List.not_mem_nil, or_false] at hk ho
  rcases hk with rfl | rfl | rfl | rfl <;> rcases ho with rfl | rfl | rfl | rfl <;>
    first
      | exact absurd rfl hne
      | simp [valueAfter?]

theorem ofArgument_call (text : String) : ofArgument ("--call=" ++ text) =
    ((CallForm.ofText text).map call).mapError .unknownCallForm := by
  simp only [ofArgument, valueAfter?_append]
  cases CallForm.ofText text <;> rfl

theorem ofArgument_layout (text : String) : ofArgument ("--layout=" ++ text) =
    (LayoutKind.ofText? text).elim (.error (.unknownLayout text)) (.ok ∘ layout) := by
  simp (disch := decide) only [ofArgument, valueAfter?_append, valueAfter?_of_ne]
  cases LayoutKind.ofText? text <;> rfl

theorem ofArgument_indent (text : String) : ofArgument ("--indent=" ++ text) =
    (readWidth text).elim (.error (.badIndent text)) (.ok ∘ indent) := by
  simp (disch := decide) only [ofArgument, valueAfter?_append, valueAfter?_of_ne]
  cases readWidth text <;> rfl

theorem ofArgument_output (text : String) :
    ofArgument ("--output=" ++ text) = .ok (output text) := by
  simp (disch := decide) only [ofArgument, valueAfter?_append, valueAfter?_of_ne]

theorem ofArgument_unknown {argument : String}
    (h : ∀ key ∈ keys, ∀ text, argument ≠ key ++ text) :
    ofArgument argument = .error (.unknownOption argument) := by
  have hnone : ∀ key ∈ keys, valueAfter? key argument = none := fun key hk =>
    valueAfter?_eq_none_iff.mpr (h key hk)
  simp only [ofArgument, hnone "--call=" (by decide), hnone "--layout=" (by decide),
    hnone "--indent=" (by decide), hnone "--output=" (by decide)]

theorem ofUnit_of_sets {unit : OptionUnit} {setting : Setting} (h : Sets unit setting) :
    ofUnit unit = .ok setting := by
  cases h with
  | output path => rfl
  | call form =>
    rw [ofUnit, ofArgument_call, CallForm.ofText_text]
    rfl
  | layout kind =>
    rw [ofUnit, ofArgument_layout, LayoutKind.ofText?_text]
    rfl
  | indent h =>
    rw [ofUnit, ofArgument_indent, readWidth_eq_some_iff.mpr h]
    rfl
  | longOutput path => exact ofArgument_output path

theorem ofUnit_of_refuses {unit : OptionUnit} {e : OptionError} (h : Refuses unit e) :
    ofUnit unit = .error e := by
  cases h with
  | danglingOutput => rfl
  | call h =>
    rw [ofUnit, ofArgument_call, CallForm.ofText_eq_error h]
    rfl
  | @layout text h =>
    have hnone : LayoutKind.ofText? text = none :=
      Option.eq_none_iff_forall_ne_some.mpr fun kind hkind =>
        h kind (LayoutKind.ofText?_eq_some_iff.mp hkind)
    rw [ofUnit, ofArgument_layout, hnone]
    rfl
  | @indent text h =>
    have hnone : readWidth text = none :=
      Option.eq_none_iff_forall_ne_some.mpr fun width hwidth =>
        h width (readWidth_eq_some_iff.mp hwidth)
    rw [ofUnit, ofArgument_indent, hnone]
    rfl
  | unknown h => exact ofArgument_unknown h

theorem sets_or_refuses (unit : OptionUnit) :
    (∃ setting, Sets unit setting) ∨ ∃ e, Refuses unit e := by
  cases unit with
  | output path => exact .inl ⟨_, .output path⟩
  | danglingOutput => exact .inr ⟨_, .danglingOutput⟩
  | single argument =>
    by_cases hkey : ∃ key ∈ keys, ∃ text, argument = key ++ text
    · obtain ⟨key, hk, text, rfl⟩ := hkey
      simp only [keys, List.mem_cons, List.not_mem_nil, or_false] at hk
      rcases hk with rfl | rfl | rfl | rfl
      · by_cases h : ∃ form : CallForm, text = form.text
        · obtain ⟨form, rfl⟩ := h
          exact .inl ⟨_, .call form⟩
        · exact .inr ⟨_, .call (not_exists.mp h)⟩
      · by_cases h : ∃ kind : LayoutKind, text = kind.text
        · obtain ⟨kind, rfl⟩ := h
          exact .inl ⟨_, .layout kind⟩
        · exact .inr ⟨_, .layout (not_exists.mp h)⟩
      · by_cases h : ∃ width, IsWidth text width
        · obtain ⟨width, hwidth⟩ := h
          exact .inl ⟨_, .indent hwidth⟩
        · exact .inr ⟨_, .indent (not_exists.mp h)⟩
      · exact .inl ⟨_, .longOutput text⟩
    · refine .inr ⟨_, .unknown fun key hk text heq => hkey ⟨key, hk, text, heq⟩⟩

theorem not_sets_of_refuses {unit : OptionUnit} {e : OptionError} (h : Refuses unit e)
    (setting : Setting) : ¬ Sets unit setting := by
  intro hs
  cases (ofUnit_of_sets hs).symm.trans (ofUnit_of_refuses h)

theorem mapM_ofUnit_of_sets {units : List OptionUnit} {settings : List Setting}
    (h : List.Forall₂ Sets units settings) : units.mapM ofUnit = .ok settings := by
  induction h with
  | nil => rfl
  | cons hs _ ih => rw [List.mapM_cons, ofUnit_of_sets hs, ih]; rfl

theorem exists_sets_of_mem {units : List OptionUnit} {settings : List Setting}
    (h : List.Forall₂ Sets units settings) {unit : OptionUnit} (hm : unit ∈ units) :
    ∃ setting, Sets unit setting := by
  induction h with
  | nil => cases hm
  | cons hs _ ih =>
    rcases List.mem_cons.mp hm with rfl | hm
    · exact ⟨_, hs⟩
    · exact ih hm

theorem ne_of_sets {argument : String} {setting : Setting} (h : Sets (.single argument) setting) :
    argument ≠ "-o" := by
  rintro rfl
  have herror : ofUnit (.single "-o") = .error (.unknownOption "-o") := rfl
  cases (ofUnit_of_sets h).symm.trans herror

theorem forall₂_sets_toList {α : Type} {argument : α → String} {setting : α → Setting}
    (h : ∀ x, Sets (.single (argument x)) (setting x)) (value : Option α) :
    List.Forall₂ Sets ((value.map argument).toList.map .single) (value.map setting).toList := by
  cases value with
  | none => exact .nil
  | some x => exact .cons (h x) .nil

theorem mapM_ofUnit_of_refuses {front back : List OptionUnit} {unit : OptionUnit} {e : OptionError}
    (hfront : ∀ other ∈ front, ∃ setting, Sets other setting) (he : Refuses unit e) :
    (front ++ unit :: back).mapM ofUnit = .error e := by
  induction front with
  | nil =>
    rw [List.nil_append, List.mapM_cons, ofUnit_of_refuses he]
    rfl
  | cons other front ih =>
    obtain ⟨⟨setting, hs⟩, hrest⟩ := List.forall_mem_cons.mp hfront
    rw [List.cons_append, List.mapM_cons, ofUnit_of_sets hs, ih hrest]
    rfl

theorem forall_sets_or_exists_refuses (units : List OptionUnit) :
    (∃ settings, List.Forall₂ Sets units settings) ∨
      ∃ front unit back e, units = front ++ unit :: back ∧
        (∀ other ∈ front, ∃ setting, Sets other setting) ∧ Refuses unit e := by
  induction units with
  | nil => exact .inl ⟨[], .nil⟩
  | cons unit rest ih =>
    rcases sets_or_refuses unit with ⟨setting, hs⟩ | ⟨e, he⟩
    · rcases ih with ⟨settings, hrest⟩ | ⟨front, bad, back, e, rfl, hfront, he⟩
      · exact .inl ⟨setting :: settings, .cons hs hrest⟩
      · refine .inr ⟨unit :: front, bad, back, e, rfl, ?_, he⟩
        exact List.forall_mem_cons.mpr ⟨⟨setting, hs⟩, hfront⟩
    · exact .inr ⟨[], unit, rest, e, rfl, fun _ ho => absurd ho List.not_mem_nil, he⟩

end Setting
end DispatchTree

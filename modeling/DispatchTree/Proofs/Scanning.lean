import DispatchTree.Code.Token
import DispatchTree.Proofs.Identifiers
/-! Reading text piece by piece.
A scan says what a piece of text does to the reader: from which mode to which, and which tokens it
completes on the way.  Scans of neighbouring pieces compose, so the tokens of a text are found from
those of its parts. -/
namespace DispatchTree.Token
open Text

theorem isBlank_eq_false_of_kindOf {c : Char} {kind : Kind} (h : kindOf c = some kind) :
    isBlank c = false := by
  unfold kindOf at h
  split at h
  · exact isBlank_eq_false_of_isIdentifierRest ‹_›
  · split at h
    · rename_i hc
      simp only [List.mem_cons, List.not_mem_nil, or_false] at hc
      rcases hc with rfl | rfl | rfl | rfl <;> decide
    · cases h

/-- The tokens that a piece of text completes, and what the reader is in the middle of behind it. -/
def scan (mode : Mode) : List Char → Option (List Token × Mode)
  | [] => some ([], mode)
  | c :: rest => (advance mode c).bind fun next =>
    (scan next.2 rest).map fun last => (next.1 ++ last.1, last.2)

/-- Reading the text in the first mode completes the tokens and ends in the last mode. -/
def Scans (mode : Mode) (text : List Char) (tokens : List Token) (last : Mode) : Prop :=
  scan mode text = some (tokens, last)

instance (mode : Mode) (text : List Char) (tokens : List Token) (last : Mode) :
    Decidable (Scans mode text tokens last) :=
  inferInstanceAs (Decidable (scan mode text = some (tokens, last)))

namespace Scans

theorem nil (mode : Mode) : Scans mode [] [] mode := rfl

theorem cons_iff {mode last : Mode} {c : Char} {rest : List Char} {tokens : List Token} :
    Scans mode (c :: rest) tokens last ↔ ∃ done mid more, advance mode c = some (done, mid) ∧
      Scans mid rest more last ∧ done ++ more = tokens := by
  simp only [Scans, scan, Option.bind_eq_some_iff, Option.map_eq_some_iff, Prod.exists,
    Prod.mk.injEq]
  constructor
  · rintro ⟨done, mid, hc, more, end_, hr, rfl, rfl⟩
    exact ⟨done, mid, more, hc, hr, rfl⟩
  · rintro ⟨done, mid, more, hc, hr, rfl⟩
    exact ⟨done, mid, hc, more, last, hr, rfl, rfl⟩

theorem cons {mode mid last : Mode} {c : Char} {rest : List Char} {done tokens : List Token}
    (hc : advance mode c = some (done, mid)) (hr : Scans mid rest tokens last) :
    Scans mode (c :: rest) (done ++ tokens) last :=
  cons_iff.mpr ⟨done, mid, tokens, hc, hr, rfl⟩

theorem step {mode mid last : Mode} {c : Char} {rest : List Char} {tokens : List Token}
    (h : advance mode c = some ([], mid)) (hr : Scans mid rest tokens last) :
    Scans mode (c :: rest) tokens last := cons h hr

theorem append {mode mid last : Mode} {front back : List Char} {done tokens : List Token}
    (h : Scans mode front done mid) (hb : Scans mid back tokens last) :
    Scans mode (front ++ back) (done ++ tokens) last := by
  induction front generalizing mode done with
  | nil =>
    cases h
    exact hb
  | cons c rest ih =>
    obtain ⟨first, next, more, hc, hr, rfl⟩ := cons_iff.mp h
    rw [List.cons_append, List.append_assoc]
    exact cons hc (ih hr)

theorem readFrom_eq {mode last : Mode} {text : List Char} {tokens : List Token}
    (h : Scans mode text tokens last) :
    readFrom mode text = (finish last).map (tokens ++ ·) := by
  induction text generalizing mode tokens with
  | nil =>
    cases h
    simp [readFrom]
  | cons c rest ih =>
    obtain ⟨first, next, more, hc, hr, rfl⟩ := cons_iff.mp h
    simp only [readFrom, hc, ih hr, Option.map_map]
    congr 1
    funext tokens
    simp

/-- A token in progress ends in front of a character that does not belong to it. -/
theorem within {kind : Kind} {read rest : List Char} {c : Char} {tokens : List Token} {last : Mode}
    (hc : kindOf c ≠ some kind) (h : Scans .between (c :: rest) tokens last) :
    Scans (.within kind read) (c :: rest) (.lexeme read :: tokens) last := by
  obtain ⟨done, mid, more, ha, hr, rfl⟩ := cons_iff.mp h
  have hs : start c = some (done, mid) := ha
  have hw : advance (.within kind read) c = some (.lexeme read :: done, mid) := by
    simp [advance, hc, hs]
  exact cons hw hr

theorem blanks {text : List Char} (h : ∀ c ∈ text, isBlank c = true) :
    Scans .between text [] .between := by
  induction text with
  | nil => exact .nil _
  | cons c rest ih =>
    have hc : advance .between c = some ([], .between) := by simp [advance, start, h c]
    exact .step hc (ih fun d hd => h d (List.mem_cons_of_mem _ hd))

theorem longer {kind : Kind} (read : List Char) {text : List Char}
    (h : ∀ c ∈ text, kindOf c = some kind) :
    Scans (.within kind read) text [] (.within kind (read ++ text)) := by
  induction text generalizing read with
  | nil => simpa using Scans.nil _
  | cons c rest ih =>
    have hc : advance (.within kind read) c = some ([], .within kind (read ++ [c])) := by
      simp [advance, h c]
    have hr := ih (read ++ [c]) fun d hd => h d (List.mem_cons_of_mem _ hd)
    simpa using Scans.step hc hr

theorem word {kind : Kind} {text : List Char} (hne : text ≠ [])
    (h : ∀ c ∈ text, kindOf c = some kind) : Scans .between text [] (.within kind text) := by
  cases text with
  | nil => exact absurd rfl hne
  | cons c rest =>
    have hk := h c (List.mem_cons_self ..)
    have hc : advance .between c = some ([], .within kind [c]) := by
      simp [advance, start, isBlank_eq_false_of_kindOf hk, hk]
    have hr := longer [c] fun d hd => h d (List.mem_cons_of_mem _ hd)
    simpa using Scans.step hc hr

theorem quoted (read : List Char) {text : List Char} (h : '"' ∉ text) :
    Scans (.string read) text [] (.string (read ++ text)) := by
  induction text generalizing read with
  | nil => simpa using Scans.nil _
  | cons c rest ih =>
    have hne : c ≠ '"' := fun hc => h (hc ▸ List.mem_cons_self ..)
    have hc : advance (.string read) c = some ([], .string (read ++ [c])) := by simp [advance, hne]
    have hr := ih (read ++ [c]) fun hm => h (List.mem_cons_of_mem _ hm)
    simpa using Scans.step hc hr

end Scans

def isExpressionChar (c : Char) : Bool := (kindOf c).isSome || c ∈ ['(', ')', ',']

theorem isExpressionChar_of_isIdentifierRest {c : Char} (h : isIdentifierRest c = true) :
    isExpressionChar c = true := by simp [isExpressionChar, kindOf, h]

/-- The part of a token that the reader holds, none inside a literal. -/
def Mode.held? : Mode → Option (List Char)
  | .between => some []
  | .within _ read => some read
  | .string _ | .char _ | .escape _ => none

/-- One character of an expression: what is completed and what is held spell what was held before
and the character. -/
theorem advance_of_isExpressionChar {mode : Mode} {held : List Char} {c : Char}
    (hm : mode.held? = some held) (hc : isExpressionChar c = true) :
    ∃ (words : List (List Char)) (next : Mode) (rest : List Char),
      advance mode c = some (words.map lexeme, next) ∧
      next.held? = some rest ∧ words.flatten ++ rest = held ++ [c] := by
  have hs : ∃ (words : List (List Char)) (next : Mode) (rest : List Char),
      start c = some (words.map lexeme, next) ∧ next.held? = some rest ∧
        words.flatten ++ rest = [c] := by
    cases hk : kindOf c with
    | some kind =>
      have hb := isBlank_eq_false_of_kindOf hk
      exact ⟨[], .within kind [c], [c], by simp [start, hb, hk], rfl, rfl⟩
    | none =>
      simp only [isExpressionChar, hk, Option.isSome_none, Bool.false_or, decide_eq_true_eq,
        List.mem_cons, List.not_mem_nil, or_false] at hc
      refine ⟨[[c]], .between, [], ?_, rfl, rfl⟩
      rcases hc with rfl | rfl | rfl <;> decide
  obtain ⟨words, next, rest, hstart, hnext, hflat⟩ := hs
  cases mode with
  | between =>
    cases hm
    exact ⟨words, next, rest, hstart, hnext, hflat⟩
  | within kind read =>
    cases hm
    by_cases hk : kindOf c = some kind
    · exact ⟨[], .within kind (held ++ [c]), held ++ [c], by simp [advance, hk], rfl, rfl⟩
    · exact ⟨held :: words, next, rest, by simp [advance, hk, hstart], hnext, by simp [hflat]⟩
  | string read => cases hm
  | char read => cases hm
  | escape read => cases hm

theorem scans_expression {mode : Mode} {held text : List Char} (hm : mode.held? = some held)
    (h : ∀ c ∈ text, isExpressionChar c = true) :
    ∃ words : List (List Char),
      Scans mode (text ++ [';']) (words.map lexeme ++ [.lexeme [';']]) .between ∧
      words.flatten = held ++ text := by
  induction text generalizing mode held with
  | nil =>
    have semicolon : Scans .between [';'] [.lexeme [';']] .between := by decide
    cases mode with
    | between =>
      cases hm
      exact ⟨[], semicolon, rfl⟩
    | within kind read =>
      cases hm
      exact ⟨[held], .within (by cases kind <;> decide) semicolon, by simp⟩
    | string read => cases hm
    | char read => cases hm
    | escape read => cases hm
  | cons c rest ih =>
    obtain ⟨done, next, part, hadv, hnext, hpart⟩ :=
      advance_of_isExpressionChar hm (h c (List.mem_cons_self ..))
    obtain ⟨words, hscan, hwords⟩ := ih hnext fun d hd => h d (List.mem_cons_of_mem _ hd)
    refine ⟨done ++ words, ?_, ?_⟩
    · simpa using Scans.cons hadv hscan
    · rw [List.flatten_append, hwords, ← List.append_assoc, hpart]
      simp

end DispatchTree.Token

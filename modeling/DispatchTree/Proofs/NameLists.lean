import DispatchTree.Catalog.Source
import DispatchTree.Proofs.Catalogs
import DispatchTree.Proofs.Identifiers
import DispatchTree.Proofs.LineEndings
import DispatchTree.Proofs.Trimming
/-! Name lists as decorations.
A name list shows its names one a line, and may put blanks around them and any number of blank lines
and comments between them.  Each text shows exactly one list of words in this way, and this is the
list that is read from it.  So a text is accepted just where it decorates the names of a catalog,
and the positions in errors count words. -/
namespace DispatchTree
open Text

def IsPadding (blanks : List Char) : Prop := ∀ c ∈ blanks, isBlank c = true ∧ c ≠ '\n'

/-- What can stand on a line as a name: no blank at either end, and no number sign in front. -/
structure IsWord (word : String) : Prop where
  head : ∃ c rest, word.toList = c :: rest ∧ isBlank c = false ∧ c ≠ '#'
  last : ∃ front c, word.toList = front ++ [c] ∧ isBlank c = false
  newline : '\n' ∉ word.toList

/-- A line without its terminator, with the name that it shows. -/
inductive Shows : List Char → Option String → Prop
  | blank {blanks : List Char} (h : IsPadding blanks) : Shows blanks none
  | comment {blanks rest : List Char} (h : IsPadding blanks) (hr : '\n' ∉ rest) :
    Shows (blanks ++ '#' :: rest) none
  | name {before after : List Char} {word : String} (hb : IsPadding before) (hw : IsWord word)
    (ha : IsPadding after) : Shows (before ++ word.toList ++ after) (some word)

/-- A text that lists names one a line, in their order; the last line may lack its terminator. -/
inductive Decorates : List String → List Char → Prop
  | nil : Decorates [] []
  | last {content : List Char} {shown : Option String} (h : Shows content shown) :
    Decorates shown.toList content
  | line {content rest : List Char} {shown : Option String} {names : List String}
    (ending : LineEnding) (h : Shows content shown) (hr : Decorates names rest) :
    Decorates (shown.toList ++ names) (content ++ ending.chars ++ rest)

theorem isWord_of_isIdentifier {name : String} (h : isIdentifier name = true) : IsWord name := by
  have hmem := isIdentifierRest_of_mem h
  have hblank : ∀ c ∈ name.toList, isBlank c = false :=
    fun c hc => isBlank_eq_false_of_isIdentifierRest (hmem c hc)
  have hne : name.toList ≠ [] := by
    intro hnil
    simp [isIdentifier, hnil] at h
  obtain ⟨c, rest, hcons⟩ := List.exists_cons_of_ne_nil hne
  obtain ⟨front, d, hconcat⟩ := List.eq_nil_or_concat' name.toList |>.resolve_left hne
  refine ⟨⟨c, rest, hcons, hblank c (by simp [hcons]), ?_⟩,
    ⟨front, d, hconcat, hblank d (by simp [hconcat])⟩, ?_⟩
  · rintro rfl
    exact absurd (hmem '#' (by simp [hcons])) (by decide)
  · intro hn
    exact absurd (hblank '\n' hn) (by decide)

theorem isBlank_of_terminator {c : Char} (h : c = '\r' ∨ c = '\n') : isBlank c = true := by
  rcases h with rfl | rfl
  · exact isBlank_return
  · exact isBlank_newline

theorem trim_content (line : Line) : trim (content line) = trim line := by
  obtain ⟨terminator, ht, heq⟩ := exists_content_append line
  have hblank := fun c hc => isBlank_of_terminator (ht c hc)
  rw [← trim_append_blanks hblank, heq]

namespace Catalog

variable {line : Line}

theorem nameOfLine?_eq_of_trim {other : Line} (h : trim line = trim other) :
    nameOfLine? line = nameOfLine? other := by
  rw [nameOfLine?, trim_content, h, nameOfLine?, trim_content]

theorem nameOfLine?_of_nil (h : trim line = []) : nameOfLine? line = none := by
  rw [nameOfLine?, trim_content, h]

theorem nameOfLine?_of_comment {rest : List Char} (h : trim line = '#' :: rest) :
    nameOfLine? line = none := by
  rw [nameOfLine?, trim_content, h]
  rfl

theorem nameOfLine?_of_word {c : Char} {rest : List Char} (h : trim line = c :: rest)
    (hc : c ≠ '#') : nameOfLine? line = some (String.ofList (c :: rest)) := by
  rw [nameOfLine?, trim_content, h]
  split
  · rename_i heq
    cases heq
  · rename_i heq
    exact absurd (List.cons.inj heq).1 hc
  · rfl

theorem nameOfLine?_append_chars (ending : LineEnding) (front : List Char) :
    nameOfLine? (front ++ ending.chars) = nameOfLine? front :=
  nameOfLine?_eq_of_trim
    (trim_append_blanks (fun c hc => isBlank_of_terminator (ending.mem_chars c hc)) front)

end Catalog

theorem IsPadding.isBlank {blanks : List Char} (h : IsPadding blanks) :
    ∀ c ∈ blanks, isBlank c = true := fun c hc => (h c hc).1

theorem IsPadding.newline_not_mem {blanks : List Char} (h : IsPadding blanks) : '\n' ∉ blanks :=
  fun hm => (h _ hm).2 rfl

theorem IsWord.trim_eq {word : String} (h : IsWord word) : trim word.toList = word.toList := by
  obtain ⟨c, rest, hcons, hc, -⟩ := h.head
  obtain ⟨front, d, hconcat, hd⟩ := h.last
  rw [trim, hcons, trimStart_cons hc, ← hcons, hconcat, trimEnd_concat hd]

theorem Shows.newline_not_mem {content : List Char} {shown : Option String}
    (h : Shows content shown) : '\n' ∉ content := by
  cases h with
  | blank h => exact h.newline_not_mem
  | comment h hr => simp [h.newline_not_mem, hr]
  | name hb hw ha => simp [hb.newline_not_mem, hw.newline, ha.newline_not_mem]

theorem Shows.nameOfLine?_eq {content : List Char} {shown : Option String}
    (h : Shows content shown) : Catalog.nameOfLine? content = shown := by
  cases h with
  | blank h => exact Catalog.nameOfLine?_of_nil (trim_blanks h.isBlank)
  | comment h hr =>
    rename_i blanks rest
    have hhash : Text.isBlank '#' = false := by decide
    obtain ⟨kept, hkept⟩ := exists_trimEnd_cons hhash rest
    have htrim : trim (blanks ++ '#' :: rest) = '#' :: kept := by
      rw [trim_blanks_append h.isBlank, trim, trimStart_cons hhash, hkept]
    exact Catalog.nameOfLine?_of_comment htrim
  | name hb hw ha =>
    rename_i before after word
    obtain ⟨c, rest, hcons, -, hc⟩ := hw.head
    have htrim : trim (before ++ word.toList ++ after) = c :: rest := by
      rw [trim_append_blanks ha.isBlank, trim_blanks_append hb.isBlank, hw.trim_eq, hcons]
    rw [Catalog.nameOfLine?_of_word htrim hc, ← hcons, String.ofList_toList]

theorem isWord_of_trim_eq_cons {content rest : List Char} {c : Char} (h : trim content = c :: rest)
    (hc : c ≠ '#') (hn : '\n' ∉ trim content) : IsWord (String.ofList (c :: rest)) := by
  obtain ⟨front, d, hconcat⟩ := (List.eq_nil_or_concat' (c :: rest)).resolve_left (by simp)
  constructor
  · exact ⟨c, rest, String.toList_ofList, isBlank_of_trim_eq_cons h, hc⟩
  · rw [String.toList_ofList]
    exact ⟨front, d, hconcat, isBlank_of_trim_eq_concat (h.trans hconcat)⟩
  · rwa [String.toList_ofList, ← h]

theorem shows_nameOfLine? {content : List Char} (h : '\n' ∉ content) :
    Shows content (Catalog.nameOfLine? content) := by
  obtain ⟨before, after, hb, ha, heq⟩ := exists_append_trim_append content
  rw [← heq, List.mem_append, List.mem_append, not_or, not_or] at h
  obtain ⟨⟨hbn, htn⟩, han⟩ := h
  have hbefore : IsPadding before := fun c hc => ⟨hb c hc, fun hn => hbn (hn ▸ hc)⟩
  have hafter : IsPadding after := fun c hc => ⟨ha c hc, fun hn => han (hn ▸ hc)⟩
  cases ht : trim content with
  | nil =>
    rw [Catalog.nameOfLine?_of_nil ht, ← heq, ht, List.append_nil]
    refine .blank fun c hc => ?_
    exact (List.mem_append.mp hc).elim (hbefore c) (hafter c)
  | cons c rest =>
    by_cases hc : c = '#'
    · subst hc
      have hrest : '\n' ∉ rest ++ after := by
        rw [ht] at htn
        rw [List.mem_append, not_or]
        exact ⟨fun hm => htn (List.mem_cons_of_mem _ hm), han⟩
      rw [Catalog.nameOfLine?_of_comment ht, ← heq, ht, List.append_assoc, List.cons_append]
      exact .comment hbefore hrest
    · have hshows := Shows.name hbefore (isWord_of_trim_eq_cons ht hc htn) hafter
      rw [Catalog.nameOfLine?_of_word ht hc, ← heq, ht]
      rwa [String.toList_ofList] at hshows

theorem filterMap_nameOfLine?_cons (line : Line) (rest : List Line) :
    (line :: rest).filterMap Catalog.nameOfLine? =
      (Catalog.nameOfLine? line).toList ++ rest.filterMap Catalog.nameOfLine? := by
  rw [List.filterMap_eq_flatMap_toList, List.flatMap_cons, ← List.filterMap_eq_flatMap_toList]

theorem filterMap_nameOfLine?_lines {text : List Char} (h : '\n' ∉ text) :
    (lines text).filterMap Catalog.nameOfLine? = (Catalog.nameOfLine? text).toList := by
  by_cases hne : text = []
  · subst hne
    rw [Catalog.nameOfLine?_of_nil rfl]
    rfl
  · rw [lines_of_not_mem hne h, filterMap_nameOfLine?_cons, List.filterMap_nil, List.append_nil]

theorem decorates_iff {names : List String} {text : List Char} :
    Decorates names text ↔ (lines text).filterMap Catalog.nameOfLine? = names := by
  constructor
  · intro h
    induction h with
    | nil => rfl
    | last h => rw [filterMap_nameOfLine?_lines h.newline_not_mem, h.nameOfLine?_eq]
    | line ending h _ ih =>
      rw [ending.lines_append_chars h.newline_not_mem, filterMap_nameOfLine?_cons,
        Catalog.nameOfLine?_append_chars, h.nameOfLine?_eq, ih]
  · rintro rfl
    induction text using lines_induction with
    | nil => exact .nil
    | last text hne ht =>
      rw [← lines_of_not_mem hne ht, filterMap_nameOfLine?_lines ht]
      exact .last (shows_nameOfLine? ht)
    | line front rest hf ih =>
      have hline := Decorates.line .lf (shows_nameOfLine? hf) ih
      rw [filterMap_nameOfLine?_cons, ← LineEnding.chars, Catalog.nameOfLine?_append_chars]
      simpa [LineEnding.chars] using hline

theorem Shows.isWord {content : List Char} {shown : Option String} (h : Shows content shown) :
    ∀ name ∈ shown.toList, IsWord name := by
  cases h with
  | blank h => simp
  | comment h hr => simp
  | name hb hw ha => simpa using hw

theorem Decorates.isWord {names : List String} {text : List Char} (h : Decorates names text) :
    ∀ name ∈ names, IsWord name := by
  induction h with
  | nil => simp
  | last h => exact h.isWord
  | line ending h _ ih =>
    intro name hn
    exact (List.mem_append.mp hn).elim (h.isWord name) (ih name)

theorem Catalog.isWord (catalog : Catalog) {name : String} (h : name ∈ catalog.names) :
    IsWord name :=
  isWord_of_isIdentifier (catalog.identifiers name h)

/-- Every name of a catalog can be shown with padding around it.  A text is read as a catalog just
if it decorates the names of the catalog.  If it is refused, the error is about the one list of
names that it decorates, so positions do not count blank lines and comments, and no name in it is
empty. -/
theorem Catalog.ofText_reads_decorations (label text : String) :
    (∀ catalog : Catalog, ∀ name ∈ catalog.names, ∀ before after, IsPadding before →
      IsPadding after → Shows (before ++ name.toList ++ after) (some name)) ∧
    (∀ catalog, ofText label text = .ok catalog ↔
      catalog.label = label ∧ Decorates catalog.names text.toList) ∧
    ∀ e, ofText label text = .error e →
      (∃ names, (∀ other, Decorates other text.toList ↔ other = names) ∧ e.Locates label names) ∧
        ∀ other position, e ≠ .emptyName other position := by
  refine ⟨fun catalog name hn before after hb ha => .name hb (catalog.isWord hn) ha,
    fun catalog => ?_, fun e he => ⟨⟨listedNames text, fun other => ?_, ?_⟩, ?_⟩⟩
  · rw [ofText, ofNames_eq_ok_iff, decorates_iff, eq_comm (a := catalog.names)]
    rfl
  · rw [decorates_iff]
    exact eq_comm
  · exact locates_of_ofNames he
  · rintro other position rfl
    cases locates_of_ofNames he with
    | emptyName h hf =>
      have hempty : "" ∈ listedNames text := by simp [h]
      obtain ⟨c, rest, hcons, -⟩ := ((decorates_iff.mpr rfl).isWord "" hempty).head
      cases hcons

def smallCatalog : Catalog := ⟨"list", ["abs", "floor"], by simp, by decide, by decide⟩

/-- A list with blanks and comments around two names, and one in which a name is shown twice. -/
theorem Catalog.ofText_reads_decorations_mixed :
    Shows "\u0085floor\r".toList (some "floor") ∧
    ofText "list" "\u3000# f(x)\r\n\r\n abs\t\r\n\u0085floor\r" = .ok smallCatalog ∧
    ofText "list" "#\n\u3000abs\r\n\n  # abs\nabs" = .error (.repeated "list" "abs" 0 1) ∧
    (CatalogError.repeated "list" "abs" 0 1).Locates "list" ["abs", "abs"] := by
  have hbefore : IsPadding ['\u0085'] := List.forall_mem_singleton.mpr ⟨by decide, by decide⟩
  have hafter : IsPadding ['\r'] := List.forall_mem_singleton.mpr ⟨isBlank_return, by decide⟩
  have hshown : Decorates smallCatalog.names
      "\u3000# f(x)\r\n\r\n abs\t\r\n\u0085floor\r".toList := decorates_iff.mpr (by decide +kernel)
  have htwice : Decorates ["abs", "abs"] "#\n\u3000abs\r\n\n  # abs\nabs".toList :=
    decorates_iff.mpr (by decide +kernel)
  have hrefused : ofText "list" "#\n\u3000abs\r\n\n  # abs\nabs" =
      .error (.repeated "list" "abs" 0 1) := rfl
  obtain ⟨hpadded, haccepted, -⟩ := ofText_reads_decorations "list"
    "\u3000# f(x)\r\n\r\n abs\t\r\n\u0085floor\r"
  obtain ⟨-, -, herror⟩ := ofText_reads_decorations "list" "#\n\u3000abs\r\n\n  # abs\nabs"
  obtain ⟨⟨names, honly, hlocates⟩, -⟩ := herror _ hrefused
  rw [← (honly _).mp htwice] at hlocates
  exact ⟨hpadded smallCatalog "floor" (by decide) _ _ hbefore hafter,
    (haccepted smallCatalog).mpr ⟨rfl, hshown⟩, hrefused, hlocates⟩

end DispatchTree

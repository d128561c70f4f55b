import DispatchTree.Proofs.Lines
/-! Texts respelled for a file.
A respelled text has the lines of the text it was made from, with the terminators of the file; only
a last line without a newline stays without one. -/
namespace DispatchTree.LineEnding
open Text

variable (ending : LineEnding)

theorem mem_chars : ∀ c ∈ ending.chars, c = '\r' ∨ c = '\n' := by
  cases ending <;> simp [chars]

theorem getLast?_append_chars (front : List Char) :
    (front ++ ending.chars).getLast? = some '\n' := by
  cases ending <;> simp [chars]

theorem lines_append_chars {front : List Char} (h : '\n' ∉ front) (rest : List Char) :
    lines (front ++ ending.chars ++ rest) = (front ++ ending.chars) :: lines rest := by
  cases ending with
  | lf => simpa [chars] using lines_append_newline h rest
  | crlf =>
    have hr : '\n' ∉ front ++ ['\r'] := by simpa using h
    simpa [chars] using lines_append_newline hr rest

theorem respellLine_append_newline (front : List Char) :
    ending.respellLine (front ++ ['\n']) = content (front ++ ['\n']) ++ ending.chars := by
  rw [respellLine, if_pos (isTerminated_append_newline front)]

theorem respellLine_of_not_isTerminated {line : Line} (h : isTerminated line = false) :
    ending.respellLine line = line := by
  simp [respellLine, h]

@[simp] theorem respell_nil : ending.respell [] = [] := rfl

theorem respell_append_newline {front : List Char} (h : '\n' ∉ front) (rest : List Char) :
    ending.respell (front ++ '\n' :: rest) =
      content (front ++ ['\n']) ++ ending.chars ++ ending.respell rest := by
  rw [respell, lines_append_newline h, List.flatMap_cons, respellLine_append_newline, respell]

theorem respell_of_not_mem {text : List Char} (h : '\n' ∉ text) : ending.respell text = text := by
  by_cases hne : text = []
  · rw [hne, respell_nil]
  · rw [respell, lines_of_not_mem hne h, List.flatMap_singleton,
      ending.respellLine_of_not_isTerminated (isTerminated_of_not_mem h)]

theorem respell_lf_of_not_mem {text : List Char} (h : '\r' ∉ text) : lf.respell text = text := by
  induction text using lines_induction with
  | nil => rfl
  | last text _ ht => exact respell_of_not_mem lf ht
  | line front rest hf ih =>
    have hrest : '\r' ∉ rest := fun hm =>
      h (List.mem_append_right _ (List.mem_cons_of_mem _ hm))
    have hlast : front.getLast? ≠ some '\r' := fun hl =>
      h (List.mem_append_left _ (List.mem_of_getLast? hl))
    rw [respell_append_newline lf hf, content_append_newline, if_neg hlast, ih hrest, chars]
    simp

theorem spell_eq_respell (text : List Char) : ending.spell text = ending.respell text := by
  unfold spell
  split
  · rename_i h
    rw [h.1, respell_lf_of_not_mem h.2]
  · rfl

theorem endsLine_respell_iff {text : List Char} :
    EndsLine (ending.respell text) ↔ EndsLine text := by
  induction text using lines_induction with
  | nil => rfl
  | last text _ ht => rw [respell_of_not_mem ending ht]
  | line front rest hf ih =>
    rw [respell_append_newline ending hf, endsLine_append_iff (getLast?_append_chars ending _), ih,
      endsLine_append_newline_iff]

/-- The lines of a text, each one with the ending. -/
def completeLines (text : List Char) : List Line :=
  (lines text).map fun line => content line ++ ending.chars

/-- Completing a text adds at most one ending behind the respelled text. -/
theorem flatten_completeLines (text : List Char) : (ending.completeLines text).flatten =
    ending.respell text ++ if EndsLine text then [] else ending.chars := by
  unfold completeLines
  induction text using lines_induction with
  | nil => rfl
  | last text hne ht =>
    rw [respell_of_not_mem ending ht, if_neg (not_endsLine_of_not_mem hne ht), List.map_singleton,
      content_of_not_mem ht, List.flatten_singleton]
  | line front rest hf ih =>
    rw [List.map_cons, List.flatten_cons, ih, respell_append_newline ending hf]
    simp only [endsLine_append_newline_iff, List.append_assoc]

theorem isFull_of_mem_completeLines {text : List Char} :
    ∀ line ∈ ending.completeLines text, IsFull line := by
  intro line hl
  obtain ⟨source, hs, rfl⟩ := List.mem_map.mp hl
  have hcontent := newline_not_mem_content hs
  cases ending with
  | lf => exact ⟨content source, hcontent, rfl⟩
  | crlf => exact ⟨content source ++ ['\r'], by simpa using hcontent, by simp [chars]⟩

end DispatchTree.LineEnding

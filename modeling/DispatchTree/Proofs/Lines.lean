import DispatchTree.Text
/-! Texts taken line by line.
A text is cut behind its newlines, so facts about its lines go by induction on the text from one
newline to the next.  Each line consists of its content and a terminator, and texts that end in a
newline are cut independently of what follows them. -/
namespace DispatchTree.Text

theorem lines_append_newline {front : List Char} (h : '\n' ∉ front) (rest : List Char) :
    lines (front ++ '\n' :: rest) = (front ++ ['\n']) :: lines rest := by
  induction front with
  | nil =>
    rw [List.nil_append, lines_cons]
    cases lines rest <;> rfl
  | cons c front ih =>
    have hc : c ≠ '\n' := fun heq => h (heq ▸ List.mem_cons_self ..)
    rw [List.cons_append, lines_cons, ih fun hm => h (List.mem_cons_of_mem _ hm)]
    simp [prependChar, hc]

theorem lines_of_not_mem {text : List Char} (hne : text ≠ []) (h : '\n' ∉ text) :
    lines text = [text] := by
  induction text with
  | nil => exact absurd rfl hne
  | cons c text ih =>
    have hc : c ≠ '\n' := fun heq => h (heq ▸ List.mem_cons_self ..)
    by_cases ht : text = []
    · rw [ht]
      rfl
    · rw [lines_cons, ih ht fun hm => h (List.mem_cons_of_mem _ hm)]
      simp [prependChar, hc]

/-- A text is empty, a last line without a newline, or a line in front of another text. -/
@[elab_as_elim]
theorem lines_induction {motive : List Char → List Line → Prop} (nil : motive [] [])
    (last : ∀ text, text ≠ [] → '\n' ∉ text → motive text [text])
    (line : ∀ front rest, '\n' ∉ front → motive rest (lines rest) →
      motive (front ++ '\n' :: rest) ((front ++ ['\n']) :: lines rest)) (text : List Char) :
    motive text (lines text) := by
  induction hn : text.length using Nat.strongRecOn generalizing text with
  | ind n ih =>
    by_cases hm : '\n' ∈ text
    · obtain ⟨front, rest, rfl, hf⟩ := List.eq_append_cons_of_mem hm
      rw [lines_append_newline hf]
      have hshort : rest.length < n := by
        rw [← hn, List.length_append, List.length_cons]
        omega
      exact line front rest hf (ih rest.length hshort rest rfl)
    · by_cases hne : text = []
      · rw [hne]
        exact nil
      · rw [lines_of_not_mem hne hm]
        exact last text hne hm

theorem lines_inj {text other : List Char} : lines text = lines other ↔ text = other := by
  constructor
  · intro h
    have hflat := congrArg List.flatten h
    simpa only [flatten_lines] using hflat
  · exact congrArg lines

theorem isTerminated_append_newline (front : List Char) :
    isTerminated (front ++ ['\n']) = true := by simp [isTerminated]

theorem isTerminated_of_not_mem {text : List Char} (h : '\n' ∉ text) :
    isTerminated text = false := by
  apply Bool.eq_false_iff.mpr
  intro ht
  exact h (List.mem_of_getLast? (beq_iff_eq.mp ht))

theorem isTerminated_cases (line : Line) :
    isTerminated line = false ∨ ∃ front, line = front ++ ['\n'] := by
  by_cases h : isTerminated line = true
  · exact Or.inr (List.getLast?_eq_some_iff.mp (beq_iff_eq.mp h))
  · exact Or.inl (Bool.eq_false_iff.mpr h)

theorem content_append_newline (front : List Char) : content (front ++ ['\n']) =
    if front.getLast? = some '\r' then front.dropLast else front := by
  rw [content, if_pos (isTerminated_append_newline front), List.dropLast_concat]

theorem content_of_not_mem {text : List Char} (h : '\n' ∉ text) : content text = text := by
  rw [content, isTerminated_of_not_mem h, if_neg Bool.false_ne_true]

theorem exists_content_append (line : Line) :
    ∃ terminator, (∀ c ∈ terminator, c = '\r' ∨ c = '\n') ∧ content line ++ terminator = line := by
  unfold content
  split
  · rename_i ht
    obtain ⟨front, rfl⟩ := List.getLast?_eq_some_iff.mp (beq_iff_eq.mp ht)
    rw [List.dropLast_concat]
    split
    · rename_i hr
      obtain ⟨front, rfl⟩ := List.getLast?_eq_some_iff.mp hr
      exact ⟨['\r', '\n'], by simp, by simp⟩
    · exact ⟨['\n'], by simp, rfl⟩
  · exact ⟨[], by simp, List.append_nil _⟩

theorem newline_not_mem_content_append_newline {front : List Char} (h : '\n' ∉ front) :
    '\n' ∉ content (front ++ ['\n']) := by
  rw [content_append_newline]
  split
  · exact fun hm => h (List.dropLast_subset front hm)
  · exact h

theorem newline_not_mem_content {text : List Char} {line : Line} (h : line ∈ lines text) :
    '\n' ∉ content line := by
  induction text using lines_induction with
  | nil => simp at h
  | last text _ ht =>
    rw [List.mem_singleton] at h
    rwa [h, content_of_not_mem ht]
  | line front rest hf ih =>
    rcases List.mem_cons.mp h with rfl | h
    · exact newline_not_mem_content_append_newline hf
    · exact ih h

/-- No line is left open at the end of the text. -/
def EndsLine (text : List Char) : Prop := text = [] ∨ text.getLast? = some '\n'

instance (text : List Char) : Decidable (EndsLine text) :=
  inferInstanceAs (Decidable (text = [] ∨ text.getLast? = some '\n'))

theorem endsLine_nil : EndsLine [] := Or.inl rfl

theorem not_endsLine_of_not_mem {text : List Char} (hne : text ≠ []) (h : '\n' ∉ text) :
    ¬ EndsLine text :=
  not_or.mpr ⟨hne, fun hl => h (List.mem_of_getLast? hl)⟩

theorem endsLine_append_iff {front rest : List Char} (h : front.getLast? = some '\n') :
    EndsLine (front ++ rest) ↔ EndsLine rest := by
  cases rest with
  | nil =>
    rw [List.append_nil]
    exact ⟨fun _ => endsLine_nil, fun _ => Or.inr h⟩
  | cons c rest => simp [EndsLine, List.getLast?_append, List.getLast?_cons]

theorem endsLine_append_newline_iff {front rest : List Char} :
    EndsLine (front ++ '\n' :: rest) ↔ EndsLine rest := by
  rw [← List.singleton_append, ← List.append_assoc]
  exact endsLine_append_iff List.getLast?_concat

/-- A line that ends in its only newline. -/
def IsFull (line : Line) : Prop := ∃ front, '\n' ∉ front ∧ line = front ++ ['\n']

theorem lines_flatten_append {ls : List Line} (h : ∀ line ∈ ls, IsFull line) (rest : List Char) :
    lines (ls.flatten ++ rest) = ls ++ lines rest := by
  induction ls with
  | nil => rfl
  | cons line ls ih =>
    obtain ⟨front, hf, rfl⟩ := h line (List.mem_cons_self ..)
    have hrest := ih fun other ho => h other (List.mem_cons_of_mem _ ho)
    rw [List.flatten_cons, List.append_assoc, List.append_assoc, List.singleton_append,
      lines_append_newline hf, hrest, List.cons_append]

theorem lines_flatten {ls : List Line} (h : ∀ line ∈ ls, IsFull line) : lines ls.flatten = ls := by
  simpa using lines_flatten_append h []

theorem endsLine_flatten {ls : List Line} (h : ∀ line ∈ ls, IsFull line) : EndsLine ls.flatten := by
  induction ls with
  | nil => exact endsLine_nil
  | cons line ls ih =>
    obtain ⟨front, _, rfl⟩ := h line (List.mem_cons_self ..)
    rw [List.flatten_cons, endsLine_append_iff List.getLast?_concat]
    exact ih fun other ho => h other (List.mem_cons_of_mem _ ho)

/-- Every line of a text but the last one is full, and the lines from some line on are those of the
text that they make up. -/
theorem lines_eq_append {text : List Char} {front back : List Line} (h : lines text = front ++ back)
    (hb : back ≠ []) : (∀ line ∈ front, IsFull line) ∧ lines back.flatten = back := by
  induction text using lines_induction generalizing front with
  | nil => exact absurd (List.append_eq_nil_iff.mp h.symm).2 hb
  | last text hne ht =>
    cases front with
    | nil =>
      rw [List.nil_append] at h
      rw [← h, List.flatten_singleton]
      exact ⟨by simp, lines_of_not_mem hne ht⟩
    | cons line front =>
      rw [List.cons_append, List.cons.injEq] at h
      exact absurd (List.append_eq_nil_iff.mp h.2.symm).2 hb
  | line first rest hf ih =>
    cases front with
    | nil =>
      rw [List.nil_append, ← lines_append_newline hf] at h
      rw [← h, flatten_lines]
      exact ⟨by simp, rfl⟩
    | cons line front =>
      rw [List.cons_append, List.cons.injEq] at h
      obtain ⟨hfull, hlines⟩ := ih h.2
      refine ⟨?_, hlines⟩
      intro other ho
      rcases List.mem_cons.mp ho with rfl | ho
      · exact ⟨first, hf, h.1.symm⟩
      · exact hfull other ho

end DispatchTree.Text

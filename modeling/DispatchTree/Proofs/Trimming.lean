import Mathlib.Data.List.DropRight
import Mathlib.Data.List.TakeWhile
import DispatchTree.Text
/-! Texts without the blanks at their ends.
Trimming takes blanks away from both ends until something else shows, so blanks put there make no
difference, and a text is what trimming leaves of it between two runs of blanks. -/
namespace DispatchTree.Text

section Blanks

variable {blanks : List Char} (h : ∀ c ∈ blanks, isBlank c = true)

include h

theorem trimEnd_append_blanks {text : List Char} : trimEnd (text ++ blanks) = trimEnd text := by
  have hr : ∀ c ∈ blanks.reverse, isBlank c = true := fun c hc => h c (List.mem_reverse.mp hc)
  rw [trimEnd, List.reverse_append, List.dropWhile_append_of_pos hr, trimEnd]

theorem trim_blanks_append (text : List Char) : trim (blanks ++ text) = trim text := by
  rw [trim, trimStart, List.dropWhile_append_of_pos h, trim, trimStart]

theorem trim_append_blanks (text : List Char) : trim (text ++ blanks) = trim text := by
  rw [trim, trimStart, List.dropWhile_append]
  split
  · rename_i hnil
    have hstart : trimStart text = [] := List.isEmpty_iff.mp hnil
    rw [trim, hstart, List.dropWhile_eq_nil_iff.mpr h]
  · exact trimEnd_append_blanks h

theorem trim_blanks : trim blanks = [] := by
  simpa [trim, trimStart, trimEnd] using trim_append_blanks h []

end Blanks

theorem trimStart_cons {c : Char} (h : isBlank c = false) (rest : List Char) :
    trimStart (c :: rest) = c :: rest :=
  List.dropWhile_cons_of_neg (Bool.eq_false_iff.mp h)

theorem trimEnd_concat {c : Char} (h : isBlank c = false) (front : List Char) :
    trimEnd (front ++ [c]) = front ++ [c] := by
  rw [trimEnd, List.reverse_concat, ← trimStart, trimStart_cons h, List.reverse_cons,
    List.reverse_reverse]

theorem exists_trimEnd_cons {c : Char} (h : isBlank c = false) (rest : List Char) :
    ∃ kept, trimEnd (c :: rest) = c :: kept := by
  unfold trimEnd
  rw [List.reverse_cons, List.dropWhile_append]
  split
  · exact ⟨[], by simp [h]⟩
  · exact ⟨((rest.reverse.dropWhile isBlank)).reverse, by simp⟩

theorem trim_eq_rdropWhile (text : List Char) :
    trim text = (trimStart text).rdropWhile isBlank := rfl

theorem isBlank_of_trim_eq_cons {text rest : List Char} {c : Char} (h : trim text = c :: rest) :
    isBlank c = false := by
  obtain ⟨tail, htail⟩ := List.rdropWhile_prefix isBlank (l := trimStart text)
  rw [← trim_eq_rdropWhile, h] at htail
  have hhead := List.head?_dropWhile_not isBlank text
  rw [← trimStart, ← htail] at hhead
  exact hhead

theorem isBlank_of_trim_eq_concat {text front : List Char} {c : Char}
    (h : trim text = front ++ [c]) : isBlank c = false := by
  rw [trim_eq_rdropWhile] at h
  have hne : (trimStart text).rdropWhile isBlank ≠ [] := by
    rw [h]
    simp
  have hlast := List.rdropWhile_last_not isBlank (trimStart text) hne
  simp only [h, List.getLast_concat] at hlast
  exact Bool.eq_false_iff.mpr hlast

theorem exists_append_trim_append (text : List Char) : ∃ before after,
    (∀ c ∈ before, isBlank c = true) ∧ (∀ c ∈ after, isBlank c = true) ∧
      before ++ trim text ++ after = text := by
  refine ⟨leadingBlanks text, (trimStart text).rtakeWhile isBlank,
    fun c hc => List.mem_takeWhile_imp hc, fun c hc => List.mem_rtakeWhile_imp hc, ?_⟩
  rw [List.append_assoc, trim_eq_rdropWhile, List.rdropWhile_append_rtakeWhile,
    leadingBlanks_append_trimStart]

end DispatchTree.Text

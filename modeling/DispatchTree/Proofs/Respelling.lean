import Mathlib.Data.List.Basic
import DispatchTree.Proofs.Regions
/-! Texts respelled twice.
Respelling works line by line, so what a second respelling does and what becomes of the contents of
the lines are questions about one line.  A line takes a carriage return and a newline back off as
they were put on, and so nothing is lost where that is the ending.  Where line feeds are wanted, a
line that ends in two carriage returns and a newline loses a return each time. -/
namespace DispatchTree
open Text

namespace LineEnding

variable (ending : LineEnding)

theorem content_append_crlf (front : List Char) : content (front ++ crlf.chars) = front := by
  have hsplit : front ++ crlf.chars = (front ++ ['\r']) ++ ['\n'] := by simp [chars]
  rw [hsplit, content_append_newline, List.getLast?_concat, if_pos rfl, List.dropLast_concat]

theorem respellLine_crlf_respellLine (line : Line) :
    ending.respellLine (crlf.respellLine line) = ending.respellLine line := by
  rcases isTerminated_cases line with h | ⟨front, rfl⟩
  · rw [crlf.respellLine_of_not_isTerminated h]
  · have hcontent := content_append_crlf (content (front ++ ['\n']))
    have hsplit : crlf.respellLine (front ++ ['\n']) =
        (content (front ++ ['\n']) ++ ['\r']) ++ ['\n'] := by
      simp [respellLine_append_newline, chars]
    rw [hsplit, respellLine_append_newline, respellLine_append_newline, ← hsplit,
      respellLine_append_newline, hcontent]

theorem content_append_newline_eq_iff (front : List Char) :
    content (front ++ ['\n']) = front ↔ front.getLast? ≠ some '\r' := by
  rw [content_append_newline]
  by_cases h : front.getLast? = some '\r'
  · obtain ⟨front, rfl⟩ := List.getLast?_eq_some_iff.mp h
    simp
  · simp [h]

theorem getLast?_content_eq_return_iff (front : List Char) :
    (content (front ++ ['\n'])).getLast? = some '\r' ↔
      ['\r', '\r', '\n'] <:+ front ++ ['\n'] := by
  rw [content_append_newline]
  by_cases hreturn : front.getLast? = some '\r'
  · obtain ⟨front, rfl⟩ := List.getLast?_eq_some_iff.mp hreturn
    rw [if_pos hreturn, List.dropLast_concat, List.append_assoc,
      ← List.singleton_suffix_iff_getLast?_eq_some]
    show _ ↔ ['\r'] ++ ['\r', '\n'] <:+ front ++ ['\r', '\n']
    exact List.suffix_append_self_iff.symm
  · have hsuffix : ¬ ['\r', '\r', '\n'] <:+ front ++ ['\n'] := by
      show ¬ ['\r', '\r'] ++ ['\n'] <:+ front ++ ['\n']
      rw [List.suffix_append_self_iff]
      rintro ⟨front, rfl⟩
      simp at hreturn
    simp [hreturn, hsuffix]

/-- Respelling keeps the content of a line, unless line feeds are wanted and a carriage return is
left in front of the newline. -/
theorem content_respellLine_eq_iff (line : Line) :
    content (ending.respellLine line) = content line ↔
      ending = crlf ∨ ¬ ['\r', '\r', '\n'] <:+ line := by
  rcases isTerminated_cases line with h | ⟨front, rfl⟩
  · have hsuffix : ¬ ['\r', '\r', '\n'] <:+ line := by
      rintro ⟨front, rfl⟩
      simp [isTerminated] at h
    simp [ending.respellLine_of_not_isTerminated h, hsuffix]
  · rw [respellLine_append_newline, ← getLast?_content_eq_return_iff]
    cases ending with
    | crlf => simp [content_append_crlf]
    | lf =>
      show content (content (front ++ ['\n']) ++ ['\n']) = content (front ++ ['\n']) ↔ _
      rw [content_append_newline_eq_iff]
      simp

theorem respellLine_respellLine_eq_iff (line : Line) :
    ending.respellLine (ending.respellLine line) = ending.respellLine line ↔
      content (ending.respellLine line) = content line := by
  rcases isTerminated_cases line with h | ⟨front, rfl⟩
  · simp [ending.respellLine_of_not_isTerminated h]
  · have hends := getLast?_append_chars ending (content (front ++ ['\n']))
    obtain ⟨body, hbody⟩ := List.getLast?_eq_some_iff.mp hends
    rw [respellLine_append_newline, hbody, respellLine_append_newline, ← hbody,
      List.append_left_inj]

theorem lines_respell (text : List Char) :
    lines (ending.respell text) = (lines text).map ending.respellLine := by
  induction text using lines_induction with
  | nil => rfl
  | last text hne ht =>
    rw [respell_of_not_mem ending ht, lines_of_not_mem hne ht, List.map_singleton,
      ending.respellLine_of_not_isTerminated (isTerminated_of_not_mem ht)]
  | line front rest hf ih =>
    rw [respell_append_newline ending hf,
      ending.lines_append_chars (newline_not_mem_content_append_newline hf), ih, List.map_cons,
      respellLine_append_newline]

theorem map_content_lines_respell_eq_iff (text : List Char) :
    (lines (ending.respell text)).map content = (lines text).map content ↔
      ending = crlf ∨ ∀ line ∈ lines text, ¬ ['\r', '\r', '\n'] <:+ line := by
  rw [lines_respell, List.map_map, List.map_inj_left]
  show (∀ line ∈ lines text, content (ending.respellLine line) = content line) ↔ _
  simp only [content_respellLine_eq_iff]
  by_cases h : ending = crlf <;> simp [h]

/-- A second respelling changes nothing where the first one kept the contents of the lines. -/
theorem respell_respell_eq_iff (text : List Char) :
    ending.respell (ending.respell text) = ending.respell text ↔
      (lines (ending.respell text)).map content = (lines text).map content := by
  rw [← lines_inj, lines_respell, lines_respell, List.map_map, List.map_map, List.map_inj_left,
    List.map_inj_left]
  exact forall₂_congr fun line _ => ending.respellLine_respellLine_eq_iff line

/-- Nothing is lost where carriage returns and newlines are wanted: any respelling of the text can
be made from the respelled text too. -/
theorem respell_crlf_respell (text : List Char) :
    ending.respell (crlf.respell text) = ending.respell text := by
  rw [← lines_inj, lines_respell, lines_respell, lines_respell, List.map_map]
  refine List.map_congr_left fun line _ => ?_
  exact ending.respellLine_crlf_respellLine line

theorem getLast?_of_respell_crlf {text front back : List Char}
    (h : crlf.respell text = front ++ '\n' :: back) : front.getLast? = some '\r' := by
  induction text using lines_induction generalizing front with
  | nil => simp at h
  | last text _ ht =>
    rw [respell_of_not_mem crlf ht] at h
    simp [h] at ht
  | line first rest hf ih =>
    have hcontent := newline_not_mem_content_append_newline hf
    rw [respell_append_newline crlf hf] at h
    rcases List.append_eq_append_iff.mp h with ⟨middle, rfl, hrest⟩ | ⟨tail, hfirst, htail⟩
    · simp [List.getLast?_append, ih hrest]
    · cases tail with
      | nil =>
        have hnone : ([] : List Char).getLast? = some '\r' := ih htail.symm
        simp at hnone
      | cons c tail =>
        obtain ⟨rfl, _⟩ := List.cons.inj htail
        have hends : (content (first ++ ['\n']) ++ ['\r']) ++ '\n' :: [] =
            front ++ '\n' :: tail := by simpa [chars] using hfirst
        have hbefore : '\n' ∉ content (first ++ ['\n']) ++ ['\r'] := by simpa using hcontent
        have hfront := (List.append_cons_inj_of_notMem hbefore List.not_mem_nil).mp hends
        rw [← hfront.1, List.getLast?_concat]

end LineEnding

namespace Region

/-- Spelling a text for a region once more changes nothing where the lines kept their contents the
first time, and they do so exactly where the region has carriage returns or no line of the text ends
in two of them and a newline. -/
theorem spell_spell_eq_iff (region : Region) (generated : String) :
    (region.spell (region.spell generated) = region.spell generated ↔
      (lines (region.spell generated).toList).map content =
        (lines generated.toList).map content) ∧
    ((lines (region.spell generated).toList).map content = (lines generated.toList).map content ↔
      region.ending = .crlf ∨
        ∀ line ∈ lines generated.toList, ¬ ['\r', '\r', '\n'] <:+ line) := by
  rw [← String.toList_inj]
  simp only [toList_spell]
  exact ⟨region.ending.respell_respell_eq_iff generated.toList,
    region.ending.map_content_lines_respell_eq_iff generated.toList⟩

def plainRegion : Region where
  before := []
  opening := "// BEGIN automatically generated\n".toList
  body := []
  after := ["// END automatically generated\n".toList]

theorem ofText_plainRegion : ofText plainRegion.text = .ok plainRegion := by
  rw [ofText, toList_text]
  decide +kernel

/-- A line that ends in two carriage returns loses one each time it is spelled for such a file. -/
theorem spell_plainRegion_two_returns :
    ofText "// BEGIN automatically generated\n// END automatically generated\n" =
        .ok plainRegion ∧
      plainRegion.spell "a\r\r\n" = "a\r\n" ∧
      plainRegion.spell (plainRegion.spell "a\r\r\n") = "a\n" ∧
      plainRegion.spell (plainRegion.spell "a\r\r\n") ≠ plainRegion.spell "a\r\r\n" ∧
      (lines (plainRegion.spell "a\r\r\n").toList).map content ≠
        (lines "a\r\r\n".toList).map content := by
  refine ⟨ofText_plainRegion, ?_⟩
  decide

/-- What is spelled for a file of carriage returns can be spelled back: nothing was lost, and a text
without carriage returns is what line feeds make of it. -/
theorem spell_crlf_loses_nothing {feeds returns : Region} (hf : feeds.ending = .lf)
    (hr : returns.ending = .crlf) (generated : String) :
    feeds.spell (returns.spell generated) = feeds.spell generated ∧
    returns.spell (returns.spell generated) = returns.spell generated ∧
    (∀ front back, (returns.spell generated).toList = front ++ '\n' :: back →
      front.getLast? = some '\r') ∧
    ('\r' ∉ generated.toList → feeds.spell generated = generated ∧
      LineEnding.lf.respell generated.toList = generated.toList ∧
      feeds.spell (returns.spell generated) = generated) := by
  have hback : ∀ region : Region,
      region.spell (returns.spell generated) = region.spell generated := by
    intro region
    rw [← String.toList_inj, toList_spell, toList_spell, toList_spell, hr]
    exact region.ending.respell_crlf_respell generated.toList
  refine ⟨hback feeds, hback returns, ?_, ?_⟩
  · intro front back h
    rw [toList_spell, hr] at h
    exact LineEnding.getLast?_of_respell_crlf h
  · intro hplain
    have hloop := LineEnding.respell_lf_of_not_mem hplain
    have hsame : feeds.spell generated = generated := by
      rw [← String.toList_inj, toList_spell, hf, hloop]
    exact ⟨hsame, hloop, (hback feeds).trans hsame⟩

/-- A text with two carriage returns in front of a newline, one inside a line and a last line that
is left open, and a text without any. -/
theorem spell_crlf_loses_nothing_mixed :
    (ofText plainRegion.text = .ok plainRegion ∧ plainRegion.ending = .lf) ∧
      (ofText oddRegion.text = .ok oddRegion ∧ oddRegion.ending = .crlf) ∧
      oddRegion.spell "a\r\r\nb\rc\n\nd" = "a\r\r\nb\rc\r\n\r\nd" ∧
      plainRegion.spell (oddRegion.spell "a\r\r\nb\rc\n\nd") = "a\r\nb\rc\n\nd" ∧
      '\r' ∉ "a\n\nd".toList ∧ plainRegion.spell (oddRegion.spell "a\n\nd") = "a\n\nd" := by
  have hf : plainRegion.ending = .lf := by decide
  have hr : oddRegion.ending = .crlf := by decide
  have hplain : '\r' ∉ "a\n\nd".toList := by decide
  obtain ⟨hback, _, _, _⟩ := spell_crlf_loses_nothing hf hr "a\r\r\nb\rc\n\nd"
  obtain ⟨_, _, _, hshort⟩ := spell_crlf_loses_nothing hf hr "a\n\nd"
  refine ⟨⟨ofText_plainRegion, hf⟩, ⟨ofText_oddRegion, hr⟩, by decide, ?_, hplain,
    (hshort hplain).2.2⟩
  rw [hback]
  decide

end Region
end DispatchTree

import Mathlib.Data.Finset.Card
import Mathlib.Data.Finset.Range
import Mathlib.Order.Bounds.Basic
import DispatchTree.Proofs.Regions
/-! The search for markers by line numbers.
Which region a text has, and why it has none, depends on the numbers of its marker lines alone: two
opening lines are refused whatever else there is, and of the closing lines only the first one behind
the opening line counts. -/
namespace DispatchTree
namespace Text

/-- The line of a number, counted from one. -/
def lineAt? (ls : List Line) : Nat → Option Line
  | 0 => none
  | n + 1 => ls[n]?

/-- The numbers of the lines that pass a test. -/
def numbersOf (accepts : Line → Bool) (ls : List Line) : Finset Nat :=
  (Finset.range (ls.length + 1)).filter fun n => (lineAt? ls n).any accepts

section Numbers

variable {accepts : Line → Bool} {ls : List Line} {n : Nat}

theorem lt_of_lineAt?_eq_some {line : Line} (h : lineAt? ls n = some line) :
    0 < n ∧ n < ls.length + 1 ∧ line ∈ ls := by
  cases n with
  | zero => cases h
  | succ k =>
    have hk := (List.getElem?_eq_some_iff.mp h).1
    exact ⟨Nat.succ_pos k, Nat.succ_lt_succ hk, List.mem_of_getElem? h⟩

theorem lineAt?_append (front back : List Line) (n : Nat) : lineAt? (front ++ back) n =
    if n ≤ front.length then lineAt? front n else lineAt? back (n - front.length) := by
  cases n with
  | zero => rfl
  | succ k =>
    rw [lineAt?, List.getElem?_append]
    by_cases hk : k < front.length
    · rw [if_pos hk, if_pos (Nat.succ_le_of_lt hk), lineAt?]
    · have hnumber : k + 1 - front.length = k - front.length + 1 := by omega
      rw [if_neg hk, if_neg (by omega), hnumber, lineAt?]

theorem mem_numbersOf : n ∈ numbersOf accepts ls ↔
    ∃ line, lineAt? ls n = some line ∧ accepts line = true := by
  rw [numbersOf, Finset.mem_filter, Finset.mem_range, Option.any_eq_true]
  constructor
  · rintro ⟨_, line, hl, ha⟩
    exact ⟨line, hl, ha⟩
  · rintro ⟨line, hl, ha⟩
    exact ⟨(lt_of_lineAt?_eq_some hl).2.1, line, hl, ha⟩

theorem lt_of_mem_numbersOf (h : n ∈ numbersOf accepts ls) : 0 < n ∧ n < ls.length + 1 := by
  obtain ⟨line, hl, _⟩ := mem_numbersOf.mp h
  obtain ⟨hpos, hlt, _⟩ := lt_of_lineAt?_eq_some hl
  exact ⟨hpos, hlt⟩

theorem numbersOf_eq_empty (h : ∀ line ∈ ls, accepts line = false) :
    numbersOf accepts ls = ∅ := by
  refine Finset.eq_empty_of_forall_notMem fun n hn => ?_
  obtain ⟨line, hl, ha⟩ := mem_numbersOf.mp hn
  rw [h line (lt_of_lineAt?_eq_some hl).2.2] at ha
  cases ha

theorem mem_numbersOf_append {front back : List Line} : n ∈ numbersOf accepts (front ++ back) ↔
    n ∈ numbersOf accepts front ∨ ∃ k ∈ numbersOf accepts back, n = front.length + k := by
  by_cases hn : n ≤ front.length
  · rw [mem_numbersOf, lineAt?_append, if_pos hn, ← mem_numbersOf]
    constructor
    · exact Or.inl
    · rintro (hfront | ⟨k, hk, rfl⟩)
      · exact hfront
      · have hpos := (lt_of_mem_numbersOf hk).1
        omega
  · rw [mem_numbersOf, lineAt?_append, if_neg hn, ← mem_numbersOf]
    constructor
    · intro hback
      exact Or.inr ⟨n - front.length, hback, by omega⟩
    · rintro (hfront | ⟨k, hk, rfl⟩)
      · have hlt := (lt_of_mem_numbersOf hfront).2
        omega
      · rwa [Nat.add_sub_cancel_left]

section Cut

variable {front back : List Line} {line : Line}

theorem mem_numbersOf_behind :
    n ∈ numbersOf accepts (front ++ line :: back) ∧ front.length + 1 < n ↔
      ∃ k ∈ numbersOf accepts back, n = front.length + 1 + k := by
  have hlength : (front ++ [line]).length = front.length + 1 := by simp
  rw [List.append_cons, mem_numbersOf_append, hlength]
  constructor
  · rintro ⟨hfront | hback, hlt⟩
    · have hle := (lt_of_mem_numbersOf hfront).2
      omega
    · exact hback
  · rintro ⟨k, hk, rfl⟩
    have hpos := (lt_of_mem_numbersOf hk).1
    exact ⟨Or.inr ⟨k, hk, rfl⟩, by omega⟩

theorem isLeast_numbersOf_behind (front : List Line) (line : Line) {k : Nat}
    (h : IsLeast {n | n ∈ numbersOf accepts back} k) :
    IsLeast {n | n ∈ numbersOf accepts (front ++ line :: back) ∧ front.length + 1 < n}
      (front.length + 1 + k) := by
  refine ⟨mem_numbersOf_behind.mpr ⟨k, h.1, rfl⟩, fun n hn => ?_⟩
  obtain ⟨j, hj, rfl⟩ := mem_numbersOf_behind.mp hn
  exact Nat.add_le_add_left (h.2 hj) _

theorem isLeast_numbersOf_first (hf : ∀ other ∈ front, accepts other = false)
    (ha : accepts line = true) (back : List Line) :
    IsLeast {n | n ∈ numbersOf accepts (front ++ line :: back)} (front.length + 1) := by
  constructor
  · refine mem_numbersOf_append.mpr (Or.inr ⟨1, ?_, rfl⟩)
    exact mem_numbersOf.mpr ⟨line, rfl, ha⟩
  · intro n hn
    rcases mem_numbersOf_append.mp hn with hfront | ⟨k, hk, rfl⟩
    · rw [numbersOf_eq_empty hf] at hfront
      cases hfront
    · exact Nat.add_le_add_left (lt_of_mem_numbersOf hk).1 _

theorem numbersOf_eq_singleton (hf : ∀ other ∈ front, accepts other = false)
    (ha : accepts line = true) (hb : ∀ other ∈ back, accepts other = false) :
    numbersOf accepts (front ++ line :: back) = {front.length + 1} := by
  have hfirst := isLeast_numbersOf_first hf ha back
  refine Finset.eq_singleton_iff_unique_mem.mpr ⟨hfirst.1, fun n hn => ?_⟩
  apply Nat.le_antisymm _ (hfirst.2 hn)
  apply Nat.le_of_not_lt
  intro hlt
  obtain ⟨k, hk, _⟩ := mem_numbersOf_behind.mp ⟨hn, hlt⟩
  rw [numbersOf_eq_empty hb] at hk
  cases hk

end Cut

theorem exists_first_line (accepts : Line → Bool) (ls : List Line) :
    (∀ line ∈ ls, accepts line = false) ∨ ∃ front line back, ls = front ++ line :: back ∧
      (∀ other ∈ front, accepts other = false) ∧ accepts line = true := by
  cases hfind : ls.find? accepts with
  | none =>
    left
    intro line hl
    simpa using List.find?_eq_none.mp hfind line hl
  | some line =>
    obtain ⟨ha, front, back, rfl, hfront⟩ := List.find?_eq_some_iff_append.mp hfind
    exact Or.inr ⟨front, line, back, rfl, by simpa using hfront, ha⟩

end Numbers
end Text

namespace Region
open Text

def openings (source : String) : Finset Nat := numbersOf isBegin (lines source.toList)

def closings (source : String) : Finset Nat := numbersOf isEnd (lines source.toList)

/-- The region takes up the lines strictly between two numbers of a text, and its margin and line
ending are those of the first of the two lines. -/
structure LiesBetween (region : Region) (ls : List Line) (b e : Nat) : Prop where
  front : region.front = String.ofList (ls.take b).flatten
  inner : region.inner = String.ofList ((ls.take (e - 1)).drop b).flatten
  back : region.back = String.ofList (ls.drop (e - 1)).flatten
  opening : ∃ line, lineAt? ls b = some line ∧
    region.margin = String.ofList (leadingBlanks line) ∧
    (region.ending = .crlf ↔ ['\r', '\n'] <:+ line)

theorem liesBetween_allLines (region : Region) : region.LiesBetween region.allLines
    (region.before.length + 1) (region.before.length + 1 + region.body.length + 1) := by
  have hopening : region.allLines =
      (region.before ++ [region.opening]) ++ (region.body ++ region.after) := by
    simp [allLines]
  have hclosing : region.allLines =
      (region.before ++ [region.opening] ++ region.body) ++ region.after := by
    simp [allLines]
  have hlength : (region.before ++ [region.opening] ++ region.body).length =
      region.before.length + 1 + region.body.length := by
    simp [Nat.add_right_comm, Nat.add_assoc]
  have hhead : region.allLines.take (region.before.length + 1) =
      region.before ++ [region.opening] := by
    rw [hopening, List.take_left' (by simp)]
  have hupTo : region.allLines.take (region.before.length + 1 + region.body.length) =
      region.before ++ [region.opening] ++ region.body := by
    rw [hclosing, List.take_left' hlength]
  have hfrom : region.allLines.drop (region.before.length + 1 + region.body.length) =
      region.after := by
    rw [hclosing, List.drop_left' hlength]
  refine ⟨?_, ?_, ?_, region.opening, ?_, rfl, ?_⟩
  · rw [hhead, front]
    simp
  · rw [Nat.add_sub_cancel, hupTo, List.drop_left' (by simp), inner]
  · rw [Nat.add_sub_cancel, hfrom, back]
  · simp [lineAt?, allLines]
  · rw [ending, LineEnding.ofLine]
    simp

theorem ofLines_eq_noOpening {ls : List Line} (h : ∀ line ∈ ls, isBegin line = false) :
    ofLines ls = .error .noOpening := by
  have hnone : ls.dropWhile (!isBegin ·) = [] := List.dropWhile_eq_nil_iff.mpr (by simpa using h)
  simp only [ofLines, hnone]

section Opening

variable {before : List Line} {opening : Line}
  (hbefore : ∀ line ∈ before, isBegin line = false) (hopening : isBegin opening = true)

include hbefore hopening

theorem ofLines_eq_twoOpenings {between rest : List Line} {second : Line}
    (hbetween : ∀ line ∈ between, isBegin line = false) (hsecond : isBegin second = true) :
    ofLines (before ++ opening :: (between ++ second :: rest)) =
      .error (.twoOpenings (before.length + 1) (before.length + 2 + between.length)) := by
  have hfind : (between ++ second :: rest).findIdx? isBegin = some between.length := by
    rw [List.findIdx?_append, List.findIdx?_eq_none_iff.mpr hbetween, List.findIdx?_cons,
      if_pos hsecond]
    simp
  rw [ofLines_append_cons hbefore hopening, hfind]

theorem ofLines_eq_noClosing {rest : List Line} (hrest : ∀ line ∈ rest, isBegin line = false)
    (hend : ∀ line ∈ rest, isEnd line = false) :
    ofLines (before ++ opening :: rest) = .error (.noClosing (before.length + 1)) := by
  have hdrop : rest.dropWhile (!isEnd ·) = [] := List.dropWhile_eq_nil_iff.mpr (by simpa using hend)
  rw [ofLines_append_cons hbefore hopening, List.findIdx?_eq_none_iff.mpr hrest]
  simp only [hdrop]

end Opening

/-- The outcomes of the search, with the numbers of the marker lines that belong to each. -/
theorem ofLines_cases (ls : List Line) :
    (numbersOf isBegin ls = ∅ ∧ ofLines ls = .error .noOpening) ∨
    (∃ first second, IsLeast {n | n ∈ numbersOf isBegin ls} first ∧
      IsLeast {n | n ∈ numbersOf isBegin ls ∧ first < n} second ∧
      ofLines ls = .error (.twoOpenings first second)) ∨
    ∃ b, numbersOf isBegin ls = {b} ∧
      ((∀ e ∈ numbersOf isEnd ls, e ≤ b) ∧ ofLines ls = .error (.noClosing b) ∨
        ∃ e region, IsLeast {n | n ∈ numbersOf isEnd ls ∧ b < n} e ∧ ofLines ls = .ok region ∧
          region.LiesBetween ls b e) := by
  rcases exists_first_line isBegin ls with hnone | ⟨before, opening, rest, rfl, hbefore, hopening⟩
  · exact Or.inl ⟨numbersOf_eq_empty hnone, ofLines_eq_noOpening hnone⟩
  right
  rcases exists_first_line isBegin rest with hrest | ⟨between, second, rest, rfl, hbetween, hsecond⟩
  swap
  · left
    have hfirst := isLeast_numbersOf_first hbefore hopening (between ++ second :: rest)
    have hnext := isLeast_numbersOf_behind before opening
      (isLeast_numbersOf_first hbetween hsecond rest)
    have hsum : before.length + 1 + (between.length + 1) = before.length + 2 + between.length := by
      omega
    rw [hsum] at hnext
    exact ⟨_, _, hfirst, hnext, ofLines_eq_twoOpenings hbefore hopening hbetween hsecond⟩
  refine Or.inr ⟨_, numbersOf_eq_singleton hbefore hopening hrest, ?_⟩
  rcases exists_first_line isEnd rest with hend | ⟨body, closing, after, rfl, hbody, hclosing⟩
  · left
    refine ⟨fun e he => ?_, ofLines_eq_noClosing hbefore hopening hrest hend⟩
    apply Nat.le_of_not_lt
    intro hlt
    obtain ⟨k, hk, _⟩ := mem_numbersOf_behind.mp ⟨he, hlt⟩
    rw [numbersOf_eq_empty hend] at hk
    cases hk
  · right
    let region : Region := ⟨before, opening, body, closing :: after⟩
    have hnext := isLeast_numbersOf_behind before opening
      (isLeast_numbersOf_first hbody hclosing after)
    have hmarked : region.Marked := by
      refine ⟨hbefore, hopening, fun line hl => ?_, fun line hl => ?_,
        closing, after, rfl, hclosing⟩
      · have hbegin := hrest line (List.mem_append_left _ hl)
        simp [isMarker, hbegin, hbody line hl]
      · exact hrest line (List.mem_append_right _ hl)
    exact ⟨_, region, hnext, ofLines_allLines hmarked, liesBetween_allLines region⟩

/-- The search for a region in any text: two opening lines are refused first, then a text without
one, then one without a closing line behind it; otherwise the region reaches to the first closing
line behind the opening line, and nothing of the text is lost around it. -/
theorem ofText_finds_markers (source : String) :
    (2 ≤ (openings source).card → ∃ first second,
      IsLeast {n | n ∈ openings source} first ∧
      IsLeast {n | n ∈ openings source ∧ first < n} second ∧
      ofText source = .error (.twoOpenings first second)) ∧
    (openings source = ∅ → ofText source = .error .noOpening) ∧
    ∀ b, openings source = {b} →
      ((∀ e ∈ closings source, e ≤ b) → ofText source = .error (.noClosing b)) ∧
      ((∃ e ∈ closings source, b < e) → ∃ e region,
        IsLeast {n | n ∈ closings source ∧ b < n} e ∧ ofText source = .ok region ∧
        region.LiesBetween (lines source.toList) b e ∧
        region.front ++ region.inner ++ region.back = source) := by
  unfold openings closings
  rcases ofLines_cases (lines source.toList) with ⟨hb, hsearch⟩ |
    ⟨first, second, hfirst, hsecond, hsearch⟩ | ⟨b, hb, hsearch⟩
  · rw [hb]
    refine ⟨fun hcard => ?_, fun _ => hsearch, fun b hone => ?_⟩
    · simp at hcard
    · exact absurd hone.symm (Finset.singleton_ne_empty b)
  · refine ⟨fun _ => ⟨first, second, hfirst, hsecond, hsearch⟩, fun hnone => ?_, fun b hone => ?_⟩
    · exact absurd hfirst.1 (by simp [hnone])
    · have heq : first = b := by simpa [hone] using hfirst.1
      have heq' : second = b := by simpa [hone] using hsecond.1.1
      exact absurd hsecond.1.2 (by simp [heq, heq'])
  · rw [hb]
    refine ⟨fun hcard => ?_, fun hnone => absurd hnone (Finset.singleton_ne_empty b),
      fun c hone => ?_⟩
    · simp at hcard
    obtain rfl := Finset.singleton_injective hone
    rcases hsearch with ⟨hle, hsearch⟩ | ⟨e, region, hleast, hsearch, hlies⟩
    · refine ⟨fun _ => hsearch, ?_⟩
      rintro ⟨e, he, hlt⟩
      exact absurd (hle e he) (Nat.not_le_of_lt hlt)
    · have htext := text_eq_of_ofText hsearch
      refine ⟨fun hle => ?_, fun _ => ⟨e, region, hleast, hsearch, hlies, htext⟩⟩
      exact absurd (hle e hleast.1.1) (Nat.not_le_of_lt hleast.1.2)

/-- A closing marker in front, letters of several bytes, two closing markers behind, and a last line
without a newline. -/
def crowdedLines : List Line :=
  ["// END automatically generated\n".toList, "é\n".toList,
    "\t// BEGIN automatically generated by hand\r\n".toList, "x\r\n".toList,
    "  // END automatically generated\n".toList, "// END automatically generated".toList]

/-- The lines as they stand, and with the first three of them in front once more. -/
theorem ofText_finds_markers_crowded :
    openings (.ofList crowdedLines.flatten) = {3} ∧
      closings (.ofList crowdedLines.flatten) = {1, 5, 6} ∧
      (∃ region, ofText (.ofList crowdedLines.flatten) = .ok region ∧ region.inner = "x\r\n" ∧
        region.margin = "\t" ∧ region.ending = .crlf) ∧
      openings (.ofList (crowdedLines.take 3 ++ crowdedLines).flatten) = {3, 6} ∧
      ofText (.ofList (crowdedLines.take 3 ++ crowdedLines).flatten) =
        .error (.twoOpenings 3 6) := by
  have hlines : lines (String.ofList crowdedLines.flatten).toList = crowdedLines := by
    rw [String.toList_ofList]
    decide +kernel
  have hagain : lines (String.ofList (crowdedLines.take 3 ++ crowdedLines).flatten).toList =
      crowdedLines.take 3 ++ crowdedLines := by
    rw [String.toList_ofList]
    decide +kernel
  have hopenings : openings (.ofList crowdedLines.flatten) = {3} := by
    rw [openings, hlines]
    decide +kernel
  have hclosings : closings (.ofList crowdedLines.flatten) = {1, 5, 6} := by
    rw [closings, hlines]
    decide +kernel
  have htwice : openings (.ofList (crowdedLines.take 3 ++ crowdedLines).flatten) = {3, 6} := by
    rw [openings, hagain]
    decide +kernel
  obtain ⟨_, _, hsearch⟩ := ofText_finds_markers (.ofList crowdedLines.flatten)
  obtain ⟨e, region, hleast, hregion, hlies, _⟩ :=
    (hsearch 3 hopenings).2 ⟨5, by rw [hclosings]; decide, by decide⟩
  obtain ⟨first, second, hfirst, hsecond, herror⟩ :=
    (ofText_finds_markers (.ofList (crowdedLines.take 3 ++ crowdedLines).flatten)).1
      (by rw [htwice]; decide)
  rw [hclosings] at hleast
  rw [htwice] at hfirst hsecond
  rw [hlines] at hlies
  obtain rfl : e = 5 := hleast.unique (by simp [IsLeast, lowerBounds])
  obtain rfl : first = 3 := hfirst.unique (by simp [IsLeast, lowerBounds])
  obtain rfl : second = 6 := hsecond.unique (by simp [IsLeast, lowerBounds])
  obtain ⟨line, hline, hmargin, hending⟩ := hlies.opening
  obtain rfl := Option.some.inj hline
  refine ⟨hopenings, hclosings, ⟨region, hregion, ?_, ?_, ?_⟩, htwice, herror⟩
  · rw [hlies.inner]
    decide
  · rw [hmargin]
    decide
  · exact hending.mpr (by decide)

end Region
end DispatchTree

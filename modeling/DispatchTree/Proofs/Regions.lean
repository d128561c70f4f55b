import Mathlib.Data.List.TakeWhile
import DispatchTree.Proofs.LineEndings
import DispatchTree.Region
/-! Regions filled anew.
A region is found in a text by its marker lines.  What is put between them is completed to whole
lines, and as long as none of these is a marker line itself the same region is found again, so that
of several texts put there one after the other only the last one counts. -/
namespace DispatchTree.Region
open Text

theorem isPrefixOf_append_of_not_mem {marker text tail : List Char} (h : ∀ c ∈ tail, c ∉ marker) :
    marker.isPrefixOf (text ++ tail) = marker.isPrefixOf text := by
  induction marker generalizing text with
  | nil => simp
  | cons m marker ih =>
    cases text with
    | nil =>
      cases tail with
      | nil => rfl
      | cons c tail =>
        have hne : m ≠ c := fun heq => h c (List.mem_cons_self ..) (heq ▸ List.mem_cons_self ..)
        rw [List.nil_append, List.isPrefixOf_cons_cons, beq_false_of_ne hne, Bool.false_and]
        rfl
    | cons c text =>
      rw [List.cons_append, List.isPrefixOf_cons_cons, List.isPrefixOf_cons_cons,
        ih fun d hd hm => h d hd (List.mem_cons_of_mem _ hm)]

section Terminator

variable {text tail : List Char} (h : ∀ c ∈ tail, c = '\r' ∨ c = '\n')

include h

theorem isPrefixOf_trimStart_append {marker : List Char} (hreturn : '\r' ∉ marker)
    (hnewline : '\n' ∉ marker) :
    marker.isPrefixOf (trimStart (text ++ tail)) = marker.isPrefixOf (trimStart text) := by
  have hblank : ∀ c ∈ tail, isBlank c = true := by
    intro c hc
    rcases h c hc with rfl | rfl
    · exact isBlank_return
    · exact isBlank_newline
  have hmarker : ∀ c ∈ tail, c ∉ marker := by
    intro c hc
    rcases h c hc with rfl | rfl
    · exact hreturn
    · exact hnewline
  unfold trimStart
  rw [List.dropWhile_append]
  split
  · rename_i hempty
    rw [List.dropWhile_eq_nil_iff.mpr hblank, List.isEmpty_iff.mp hempty]
  · exact isPrefixOf_append_of_not_mem hmarker

theorem isBegin_append : isBegin (text ++ tail) = isBegin text :=
  isPrefixOf_trimStart_append h (by decide) (by decide)

theorem isEnd_append : isEnd (text ++ tail) = isEnd text :=
  isPrefixOf_trimStart_append h (by decide) (by decide)

end Terminator

theorem isBegin_content (line : Line) : isBegin (content line) = isBegin line := by
  obtain ⟨terminator, ht, heq⟩ := exists_content_append line
  rw [← isBegin_append ht, heq]

theorem isEnd_content (line : Line) : isEnd (content line) = isEnd line := by
  obtain ⟨terminator, ht, heq⟩ := exists_content_append line
  rw [← isEnd_append ht, heq]

def isMarker (line : Line) : Bool := isBegin line || isEnd line

theorem isMarker_content_append (ending : LineEnding) (line : Line) :
    isMarker (content line ++ ending.chars) = isMarker line := by
  rw [isMarker, isBegin_append ending.mem_chars, isEnd_append ending.mem_chars, isBegin_content,
    isEnd_content, isMarker]

def allLines (region : Region) : List Line :=
  region.before ++ region.opening :: (region.body ++ region.after)

/-- The marker lines stand where a region has them, and nowhere else. -/
structure Marked (region : Region) : Prop where
  before : ∀ line ∈ region.before, isBegin line = false
  opening : isBegin region.opening = true
  body : ∀ line ∈ region.body, isMarker line = false
  after : ∀ line ∈ region.after, isBegin line = false
  closing : ∃ line rest, region.after = line :: rest ∧ isEnd line = true

theorem marked_of_ofLines {ls : List Line} {region : Region} (h : ofLines ls = .ok region) :
    region.Marked := by
  simp only [ofLines] at h
  split at h
  · cases h
  · rename_i opening rest houter
    split at h
    · cases h
    · rename_i hnone
      split at h
      · cases h
      · rename_i closing after hinner
        cases h
        have hrest : ∀ line ∈ rest, isBegin line = false := List.findIdx?_eq_none_iff.mp hnone
        have hbegin := List.head?_dropWhile_not (!isBegin ·) ls
        have hend := List.head?_dropWhile_not (!isEnd ·) rest
        rw [houter] at hbegin
        rw [hinner] at hend
        refine ⟨?_, by simpa using hbegin, ?_, ?_, closing, after, rfl, by simpa using hend⟩
        · intro line hl
          simpa using List.mem_takeWhile_imp hl
        · intro line hl
          have hbody : isEnd line = false := by simpa using List.mem_takeWhile_imp hl
          simp [isMarker, hbody, hrest line ((List.takeWhile_sublist _).subset hl)]
        · intro line hl
          exact hrest line ((List.dropWhile_sublist _).subset (hinner ▸ hl))

theorem ofLines_append_cons {before : List Line} {opening : Line}
    (hbefore : ∀ line ∈ before, isBegin line = false) (hopening : isBegin opening = true)
    (rest : List Line) : ofLines (before ++ opening :: rest) =
      match rest.findIdx? isBegin with
      | some skipped => .error (.twoOpenings (before.length + 1) (before.length + 2 + skipped))
      | none =>
        match rest.dropWhile (!isEnd ·) with
        | [] => .error (.noClosing (before.length + 1))
        | closing :: after =>
          .ok ⟨before, opening, rest.takeWhile (!isEnd ·), closing :: after⟩ := by
  have hfront : ∀ line ∈ before, (!isBegin line) = true := by
    intro line hl
    simp [hbefore line hl]
  have htake : (before ++ opening :: rest).takeWhile (!isBegin ·) = before := by
    rw [List.takeWhile_append_of_pos hfront]
    simp [hopening]
  have hdrop : (before ++ opening :: rest).dropWhile (!isBegin ·) = opening :: rest := by
    rw [List.dropWhile_append_of_pos hfront]
    simp [hopening]
  cases hfind : rest.findIdx? isBegin with
  | some skipped => simp only [ofLines, htake, hdrop, hfind]
  | none =>
    cases hafter : rest.dropWhile (!isEnd ·) with
    | nil => simp only [ofLines, htake, hdrop, hfind, hafter]
    | cons closing after => simp only [ofLines, htake, hdrop, hfind, hafter]

theorem ofLines_allLines {region : Region} (h : region.Marked) :
    ofLines region.allLines = .ok region := by
  obtain ⟨closing, after, hafter, hclosing⟩ := h.closing
  have hbody : ∀ line ∈ region.body, isBegin line = false ∧ isEnd line = false := by
    intro line hl
    simpa [isMarker] using h.body line hl
  have hinner : ∀ line ∈ region.body, (!isEnd line) = true := by
    intro line hl
    simp [(hbody line hl).2]
  have hnone : (region.body ++ closing :: after).findIdx? isBegin = none := by
    refine List.findIdx?_eq_none_iff.mpr fun line hl => ?_
    rcases List.mem_append.mp hl with hl | hl
    · exact (hbody line hl).1
    · exact h.after line (hafter ▸ hl)
  have hclose : (region.body ++ closing :: after).dropWhile (!isEnd ·) = closing :: after := by
    rw [List.dropWhile_append_of_pos hinner]
    simp [hclosing]
  have htake : (region.body ++ closing :: after).takeWhile (!isEnd ·) = region.body := by
    rw [List.takeWhile_append_of_pos hinner]
    simp [hclosing]
  rw [allLines, hafter, ofLines_append_cons h.before h.opening]
  simp only [hnone, hclose, htake]
  rw [← hafter]

/-- A region is found in its lines exactly where the marker lines stand as they should. -/
theorem ofLines_eq_ok_iff {ls : List Line} {region : Region} :
    ofLines ls = .ok region ↔ region.allLines = ls ∧ region.Marked := by
  constructor
  · intro h
    exact ⟨append_of_ofLines h, marked_of_ofLines h⟩
  · rintro ⟨rfl, h⟩
    exact ofLines_allLines h

def front (region : Region) : String :=
  String.ofList (region.before.flatten ++ region.opening)

def back (region : Region) : String := String.ofList region.after.flatten

def text (region : Region) : String := region.front ++ region.inner ++ region.back

theorem toList_text (region : Region) : region.text.toList = region.allLines.flatten := by
  simp [text, front, inner, back, allLines]

def withBody (region : Region) (body : List Line) : Region := { region with body }

theorem Marked.withBody {region : Region} (h : region.Marked) {body : List Line}
    (hb : ∀ line ∈ body, isMarker line = false) : (region.withBody body).Marked :=
  ⟨h.before, h.opening, hb, h.after, h.closing⟩

variable {source : String} {region : Region}

theorem text_eq_of_ofText (h : ofText source = .ok region) : region.text = source := by
  have hlines := (ofLines_eq_ok_iff.mp h).1
  rw [← String.toList_inj, toList_text, hlines, flatten_lines]

/-- With any full lines put between the markers that are no marker lines, the region is found in its
text again. -/
theorem ofText_withBody (h : ofText source = .ok region) {body : List Line}
    (hfull : ∀ line ∈ body, IsFull line) (hb : ∀ line ∈ body, isMarker line = false) :
    ofText (region.withBody body).text = .ok (region.withBody body) := by
  obtain ⟨hlines, hmarked⟩ := ofLines_eq_ok_iff.mp h
  obtain ⟨closing, rest, hafter, _⟩ := hmarked.closing
  have hcut : lines source.toList =
      (region.before ++ region.opening :: region.body) ++ region.after := by
    simp [← hlines, allLines]
  obtain ⟨hfront, hback⟩ := lines_eq_append hcut (by simp [hafter])
  have hfront' : ∀ line ∈ region.before ++ region.opening :: body, IsFull line := by
    intro line hl
    rcases List.mem_append.mp hl with hl | hl
    · exact hfront line (List.mem_append_left _ hl)
    · rcases List.mem_cons.mp hl with rfl | hl
      · exact hfront _ (List.mem_append_right _ (List.mem_cons_self ..))
      · exact hfull line hl
  have hall : (region.withBody body).allLines.flatten =
      (region.before ++ region.opening :: body).flatten ++ region.after.flatten := by
    simp [allLines, withBody]
  refine ofLines_eq_ok_iff.mpr ⟨?_, hmarked.withBody hb⟩
  rw [toList_text, hall, lines_flatten_append hfront', hback]
  simp [allLines, withBody]

theorem allBlank_margin (region : Region) : AllBlank region.margin := by
  intro c hc
  rw [margin, String.toList_ofList] at hc
  exact List.mem_takeWhile_imp hc

theorem newline_not_mem_margin (h : ofText source = .ok region) : '\n' ∉ region.margin.toList := by
  obtain ⟨hlines, hmarked⟩ := ofLines_eq_ok_iff.mp h
  obtain ⟨closing, rest, hafter, _⟩ := hmarked.closing
  have hcut : lines source.toList =
      (region.before ++ [region.opening]) ++ (region.body ++ region.after) := by
    simp [← hlines, allLines]
  have hfull := (lines_eq_append hcut (by simp [hafter])).1
  obtain ⟨front, hf, hopening⟩ := hfull region.opening (by simp)
  have hmarker : trimStart region.opening ≠ [] := by
    intro hnil
    have hbegin := hmarked.opening
    rw [isBegin, hnil] at hbegin
    revert hbegin
    decide
  have hfront : leadingBlanks region.opening ++ (trimStart region.opening).dropLast = front := by
    rw [← List.dropLast_append_of_ne_nil hmarker, leadingBlanks_append_trimStart, hopening,
      List.dropLast_concat]
  rw [margin, String.toList_ofList]
  exact fun hm => hf (hfront ▸ List.mem_append_left _ hm)

def filled (region : Region) (generated : String) : Region :=
  region.withBody (region.ending.completeLines generated.toList)

theorem newBody_eq_flatten (region : Region) (generated : String) :
    region.newBody generated = (region.ending.completeLines generated.toList).flatten := by
  rw [LineEnding.flatten_completeLines, newBody, LineEnding.spell_eq_respell]
  by_cases hends : EndsLine generated.toList
  · rw [if_pos hends, List.append_nil]
    exact if_pos ((LineEnding.endsLine_respell_iff _).mpr hends)
  · rw [if_neg hends]
    exact if_neg (mt (LineEnding.endsLine_respell_iff _).mp hends)

theorem fill_eq_text_filled (region : Region) (generated : String) :
    region.fill generated = (region.filled generated).text := by
  rw [← String.toList_inj, toList_text, fill, String.toList_ofList, newBody_eq_flatten]
  simp [filled, withBody, allLines]

theorem toList_spell (region : Region) (generated : String) :
    (region.spell generated).toList = region.ending.respell generated.toList := by
  rw [spell, String.toList_ofList, LineEnding.spell_eq_respell]

/-- What stands in a filled region: the generated text with the endings of the file, the last line
completed. -/
theorem inner_filled (region : Region) (generated : String) :
    (region.filled generated).inner = region.spell generated ++
      if EndsLine (region.spell generated).toList then ""
      else String.ofList region.ending.chars := by
  have hends : EndsLine (region.ending.respell generated.toList) ↔ EndsLine generated.toList :=
    LineEnding.endsLine_respell_iff _
  rw [← String.toList_inj, String.toList_append, toList_spell]
  show (String.ofList (region.ending.completeLines generated.toList).flatten).toList = _
  rw [String.toList_ofList, LineEnding.flatten_completeLines]
  by_cases h : EndsLine generated.toList
  · simp [h, hends]
  · simp [h, hends]

/-- No line of the text starts with a marker. -/
def HoldsNoMarker (generated : String) : Prop :=
  ∀ line ∈ lines generated.toList, isMarker line = false

instance (generated : String) : Decidable (HoldsNoMarker generated) :=
  inferInstanceAs (Decidable (∀ line ∈ lines generated.toList, isMarker line = false))

theorem isMarker_of_mem_completeLines {ending : LineEnding} {generated : String}
    (h : HoldsNoMarker generated) :
    ∀ line ∈ ending.completeLines generated.toList, isMarker line = false := by
  intro line hl
  obtain ⟨original, ho, rfl⟩ := List.mem_map.mp hl
  rw [isMarker_content_append]
  exact h original ho

theorem ofText_fill (h : ofText source = .ok region) {generated : String}
    (hg : HoldsNoMarker generated) :
    ofText (region.fill generated) = .ok (region.filled generated) := by
  rw [fill_eq_text_filled]
  exact ofText_withBody h (LineEnding.isFull_of_mem_completeLines _)
    (isMarker_of_mem_completeLines hg)

theorem inner_eq_spell_iff (h : ofText source = .ok region) {generated : String}
    (hg : EndsLine generated.toList) :
    region.inner = region.spell generated ↔ region.fill generated = source := by
  have hends : EndsLine (region.spell generated).toList := by
    rw [toList_spell]
    exact (LineEnding.endsLine_respell_iff _).mpr hg
  have hinner : (region.filled generated).inner = region.spell generated := by
    rw [inner_filled, if_pos hends, String.append_empty]
  have hfill : region.fill generated = region.front ++ region.spell generated ++ region.back := by
    rw [fill_eq_text_filled, text, hinner]
    rfl
  rw [hfill, ← text_eq_of_ofText h, text, String.append_left_inj, String.append_right_inj]
  exact eq_comm

def fillAll (source : String) : List String → Except RegionError String
  | [] => .ok source
  | generated :: rest =>
    match ofText source with
    | .error e => .error e
    | .ok region => fillAll (region.fill generated) rest

theorem fillAll_append_singleton (h : ofText source = .ok region) {earlier : List String}
    (he : ∀ generated ∈ earlier, HoldsNoMarker generated) (last : String) :
    fillAll source (earlier ++ [last]) = .ok (region.fill last) := by
  induction earlier generalizing source region with
  | nil => simp [fillAll, h]
  | cons generated earlier ih =>
    have hfilled := ofText_fill h (he generated (List.mem_cons_self ..))
    have hrest := ih hfilled fun other ho => he other (List.mem_cons_of_mem _ ho)
    simp only [List.cons_append, fillAll, h, hrest]
    rfl

/-- Filling a region rewrites what is between its markers and nothing else: the region is found
again where it was, it holds the generated text in the spelling of the file, and of several texts
put there in turn the last one counts. -/
theorem fill_rewrites_inner (h : ofText source = .ok region) {generated : String}
    (hg : HoldsNoMarker generated) :
    ∃ refilled, ofText (region.fill generated) = .ok refilled ∧
      refilled.margin = region.margin ∧ refilled.ending = region.ending ∧
      source = region.front ++ region.inner ++ region.back ∧
      region.fill generated = region.front ++ refilled.inner ++ region.back ∧
      refilled.front = region.front ∧ refilled.back = region.back ∧
      refilled.inner = region.spell generated ++
        (if EndsLine (region.spell generated).toList then ""
          else String.ofList region.ending.chars) ∧
      (∀ further, refilled.fill further = region.fill further) ∧
      (∀ earlier : List String, (∀ other ∈ earlier, HoldsNoMarker other) →
        ∀ last, fillAll source (earlier ++ [last]) = .ok (region.fill last)) ∧
      (EndsLine generated.toList →
        (region.inner = region.spell generated ↔ region.fill generated = source)) :=
  ⟨region.filled generated, ofText_fill h hg, rfl, rfl, (text_eq_of_ofText h).symm,
    fill_eq_text_filled region generated, rfl, rfl, inner_filled region generated, fun _ => rfl,
    fun _ he last => fillAll_append_singleton h he last, inner_eq_spell_iff h⟩

/-- A closing marker that does not count, an opening line with an odd margin and the line ending of
another system, and a last line without a newline. -/
def oddRegion : Region where
  before := ["// END automatically generated\n".toList]
  opening := "\t\r // BEGIN automatically generated\r\n".toList
  body := ["old\n".toList]
  after := ["  // END automatically generated\n".toList, "rest".toList]

theorem ofText_oddRegion : ofText oddRegion.text = .ok oddRegion := by
  rw [ofText, toList_text]
  decide +kernel

/-- A text with mixed line endings whose last line is left open. -/
theorem fill_rewrites_inner_odd :
    ofText oddRegion.text = .ok oddRegion ∧ HoldsNoMarker "a\r\n\nb" ∧
      ∃ refilled, ofText (oddRegion.fill "a\r\n\nb") = .ok refilled ∧
        refilled.margin = "\t\r " ∧ refilled.inner = "a\r\n\r\nb\r\n" ∧
        ∀ further, refilled.fill further = oddRegion.fill further := by
  have hplain : HoldsNoMarker "a\r\n\nb" := by decide
  obtain ⟨refilled, hrefilled, hmargin, _, _, _, _, _, hinner, hfurther, _⟩ :=
    fill_rewrites_inner ofText_oddRegion hplain
  refine ⟨ofText_oddRegion, hplain, refilled, hrefilled, ?_, ?_, hfurther⟩
  · rw [hmargin]
    decide
  · rw [hinner]
    decide

end DispatchTree.Region

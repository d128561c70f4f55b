import DispatchTree.Code.Spelling
import DispatchTree.Text
import DispatchTree.Tree.Code
/-! Two layouts of one program.
Layouts only choose blanks.  Each operation on a draft adds certain characters besides blanks, the
same ones in the compact and in the pretty layout and behind every blank margin, so two drafts that
differ in their layouts alone still hold the same text without blanks behind any session. -/
namespace DispatchTree
open Text

def Text.withoutBlanks (text : String) : String :=
  String.ofList (text.toList.filter fun c => !isBlank c)

@[simp] theorem Text.withoutBlanks_append (front back : String) :
    withoutBlanks (front ++ back) = withoutBlanks front ++ withoutBlanks back := by
  simp [withoutBlanks]

theorem Text.withoutBlanks_eq_empty {text : String} (h : AllBlank text) :
    withoutBlanks text = "" := by
  have hnil : text.toList.filter (fun c => !isBlank c) = [] := by
    rw [List.filter_eq_nil_iff]
    intro c hc
    simp [h c hc]
  rw [withoutBlanks, hnil]

theorem allBlank_spaces (n : Nat) : AllBlank (spaces n) := by
  intro c hc
  rw [toList_spaces] at hc
  rw [List.eq_of_mem_replicate hc]
  exact isBlank_space

def solidGuard (condition : String) : String := "if(" ++ withoutBlanks condition ++ ")" ++ openBrace

def solidBranch (condition piece : String) : String :=
  solidGuard condition ++ withoutBlanks piece ++ closeBrace

def Tree.solid (call : String → String) : Tree → String
  | leaf names => String.join (names.map fun name =>
    solidBranch (comparison name) (returnStatement (call name)))
  | split feature threshold left right =>
    solidGuard (feature.above threshold) ++ right.solid call ++ closeBrace ++ left.solid call

/-- What a step adds to a draft, blanks left out. -/
def Step.solid : Step → String
  | enter condition => solidGuard condition
  | leave => closeBrace
  | put piece => withoutBlanks piece
  | putUnder condition piece => solidBranch condition piece
  | putTree call tree => tree.solid call
  | take => ""

def Step.solidTaken (pending : String) : Step → Option String
  | take => some pending
  | _ => none

def Step.solidPending (pending : String) : Step → String
  | take => ""
  | s => pending ++ s.solid

namespace Draft

/-- Nothing but blanks stands in front of the lines of the draft, and this is its text without
blanks. -/
structure Holds (d : Draft) (solid : String) : Prop where
  margin : AllBlank d.margin
  text : withoutBlanks d.text = solid

namespace Holds

variable {d : Draft} {solid : String}

theorem append (h : d.Holds solid) (piece : String) :
    (d.append piece).Holds (solid ++ withoutBlanks piece) :=
  ⟨h.margin, by rw [text_append, withoutBlanks_append, h.text]⟩

theorem putLine (h : d.Holds solid) (indent : Nat) (piece : String) :
    (d.putLine indent piece).Holds (solid ++ withoutBlanks piece) := by
  have hnewline : AllBlank "\n" := by decide
  have hline := h.append (d.margin ++ spaces (d.level * indent) ++ piece ++ "\n")
  simp only [withoutBlanks_append, withoutBlanks_eq_empty h.margin,
    withoutBlanks_eq_empty (allBlank_spaces _), withoutBlanks_eq_empty hnewline,
    String.empty_append, String.append_empty] at hline
  exact hline

theorem atLevel (h : d.Holds solid) (level : Nat) : ({ d with level } : Draft).Holds solid :=
  ⟨h.margin, h.text⟩

theorem enter (h : d.Holds solid) (condition : String) :
    (d.enter condition).Holds (solid ++ solidGuard condition) := by
  have hcompact : withoutBlanks ("if(" ++ condition ++ ")" ++ openBrace) =
      solidGuard condition := by
    simp only [withoutBlanks_append]
    rfl
  have hpretty : withoutBlanks ("if (" ++ condition ++ ")") ++ withoutBlanks openBrace =
      solidGuard condition := by
    simp only [withoutBlanks_append]
    rfl
  unfold Draft.enter
  split
  · rw [← hcompact]
    exact h.append _
  · rename_i indent _
    rw [← hpretty, ← String.append_assoc]
    exact ((h.putLine indent _).putLine indent _).atLevel _

theorem leave (h : d.Holds solid) : d.leave.Holds (solid ++ closeBrace) := by
  unfold Draft.leave
  split
  · exact h.append _
  · rename_i indent _
    exact (h.atLevel (d.level - 1)).putLine indent _

theorem put (h : d.Holds solid) (piece : String) :
    (d.put piece).Holds (solid ++ withoutBlanks piece) := by
  unfold Draft.put
  split
  · exact h.append piece
  · rename_i indent _
    exact h.putLine indent piece

theorem putUnder (h : d.Holds solid) (condition piece : String) :
    (d.putUnder condition piece).Holds (solid ++ solidBranch condition piece) := by
  have hspace : AllBlank " " := by decide
  have hpadded : withoutBlanks (" " ++ piece ++ " ") = withoutBlanks piece := by
    simp only [withoutBlanks_append, withoutBlanks_eq_empty hspace, String.empty_append,
      String.append_empty]
  unfold Draft.putUnder solidBranch
  rw [← String.append_assoc, ← String.append_assoc]
  split
  · rw [← hpadded]
    exact ((h.enter condition).append _).leave
  · exact ((h.enter condition).put piece).leave

theorem putNames (h : d.Holds solid) (call : String → String) (names : List String) :
    (d.putNames call names).Holds (solid ++ (Tree.leaf names).solid call) := by
  induction names generalizing d solid with
  | nil => simpa [Tree.solid] using h
  | cons name names ih =>
    have hrest := ih (h.putUnder (comparison name) (returnStatement (call name)))
    simpa [Tree.solid, String.append_assoc] using hrest

theorem putTree (h : d.Holds solid) (call : String → String) (tree : Tree) :
    (d.putTree call tree).Holds (solid ++ tree.solid call) := by
  induction tree generalizing d solid with
  | leaf names => exact h.putNames call names
  | split f t left right ihl ihr =>
    have hright := ihr (h.enter (f.above t))
    have hleft := ihl hright.leave
    simpa [Tree.solid, String.append_assoc] using hleft

theorem step (h : d.Holds solid) (s : Step) :
    (d.step s).1.map withoutBlanks = s.solidTaken solid ∧
      (d.step s).2.Holds (s.solidPending solid) := by
  cases s with
  | enter condition => exact ⟨rfl, h.enter condition⟩
  | leave => exact ⟨rfl, h.leave⟩
  | put piece => exact ⟨rfl, h.put piece⟩
  | putUnder condition piece => exact ⟨rfl, h.putUnder condition piece⟩
  | putTree call tree => exact ⟨rfl, h.putTree call tree⟩
  | take => exact ⟨congrArg some h.text, h.margin, rfl⟩

end Holds

theorem holds_new (layout : Layout) {margin : String} (h : AllBlank margin) :
    (new layout margin).Holds "" := ⟨h, rfl⟩

def Report.withoutBlanks : Report → Report
  | taken text => taken (Text.withoutBlanks text)
  | pending text => pending (Text.withoutBlanks text)

theorem withoutBlanks_report (result : Option String × Draft) : (report result).withoutBlanks =
    (result.1.map Text.withoutBlanks).elim (.pending (Text.withoutBlanks result.2.text))
      .taken := by
  obtain ⟨taken, d⟩ := result
  cases taken <;> rfl

/-- Everything that a session hands out, one text after the other, and then what is pending. -/
def written (d : Draft) : List Step → String
  | [] => d.text
  | s :: rest => (d.step s).1.getD "" ++ (d.step s).2.written rest

section Session

variable {d : Draft} {solid : String} (h : d.Holds solid)

include h

theorem map_withoutBlanks_session {other : Draft} (ho : other.Holds solid) (steps : List Step) :
    (d.session steps).map Report.withoutBlanks =
      (other.session steps).map Report.withoutBlanks := by
  induction steps generalizing d other solid with
  | nil => rfl
  | cons s rest ih =>
    obtain ⟨htaken, hpending⟩ := h.step s
    obtain ⟨htaken', hpending'⟩ := ho.step s
    have hreport : (report (d.step s)).withoutBlanks = (report (other.step s)).withoutBlanks := by
      rw [withoutBlanks_report, withoutBlanks_report, htaken, htaken', hpending.text,
        hpending'.text]
    simp only [session, List.map_cons, hreport, ih hpending hpending']

theorem withoutBlanks_written (steps : List Step) :
    withoutBlanks (d.written steps) = solid ++ String.join (steps.map Step.solid) := by
  induction steps generalizing d solid with
  | nil =>
    rw [List.map_nil, String.join_nil, String.append_empty]
    exact h.text
  | cons s rest ih =>
    obtain ⟨htaken, hpending⟩ := h.step s
    have hstep : withoutBlanks ((d.step s).1.getD "") ++ s.solidPending solid =
        solid ++ s.solid := by
      cases s with
      | take => rw [← h.text]; simp [Draft.step, Draft.take, Step.solidPending, Step.solid]
      | _ => exact String.empty_append
    rw [written, withoutBlanks_append, ih hpending, ← String.append_assoc, hstep,
      List.map_cons, String.join_cons, String.append_assoc]

end Session
end Draft

/-- Deleting the blanks from the compact and from the pretty text of a session leaves the same, in
whatever a step hands out and in what is pending behind it, whether or not guards are closed that
were never opened; and it leaves the characters that the steps add. -/
theorem layouts_differ_in_blanks {margin : String} (h : AllBlank margin) (indent : Nat) :
    let compact := Draft.new .compact margin
    let pretty := Draft.new (.pretty indent) margin
    (∀ steps, (compact.session steps).map Draft.Report.withoutBlanks =
        (pretty.session steps).map Draft.Report.withoutBlanks ∧
      withoutBlanks (compact.written steps) = withoutBlanks (pretty.written steps) ∧
      withoutBlanks (pretty.written steps) = String.join (steps.map Step.solid)) ∧
    ∀ (call : String → String) (tree : Tree),
      withoutBlanks (tree.fullCode call .compact margin) =
        withoutBlanks (tree.fullCode call (.pretty indent) margin) := by
  intro compact pretty
  have hcompact : compact.Holds "" := Draft.holds_new .compact h
  have hpretty : pretty.Holds "" := Draft.holds_new (.pretty indent) h
  refine ⟨fun steps => ⟨?_, ?_, ?_⟩, fun call tree => ?_⟩
  · exact Draft.map_withoutBlanks_session hcompact hpretty steps
  · rw [Draft.withoutBlanks_written hcompact, Draft.withoutBlanks_written hpretty]
  · rw [Draft.withoutBlanks_written hpretty, String.empty_append]
  · have hcode := ((hcompact.putTree call tree).put noMatch).text
    exact hcode.trans ((hpretty.putTree call tree).put noMatch).text.symm

/-- A guard with blanks in its condition around a tree with an empty leaf, taken before the guard is
closed, and a statement of two lines. -/
def unevenSteps : List Step :=
  [.enter "length >\t2",
    .putTree CallForm.direct.call (.split .lastChar 39 (.leaf ["a"]) (.leaf [])), .take, .leave,
    .put "x;\n y;"]

theorem layouts_differ_in_blanks_uneven : AllBlank "\t\u3000" ∧
    ((Draft.new .compact "\t\u3000").session unevenSteps).map Draft.Report.withoutBlanks =
      ((Draft.new (.pretty 3) "\t\u3000").session unevenSteps).map Draft.Report.withoutBlanks ∧
    withoutBlanks ((Draft.new .compact "\t\u3000").written unevenSteps) =
      "if(length>2)" ++ openBrace ++ "if(last_char>'\\'')" ++ openBrace ++ closeBrace ++
        "if(view==\"a\")" ++ openBrace ++ "returnbuiltins::a(name);" ++ closeBrace ++ closeBrace ++
        "x;y;" := by
  have hblank : AllBlank "\t\u3000" := by decide
  obtain ⟨hsteps, -⟩ := layouts_differ_in_blanks hblank 3
  obtain ⟨hreports, hsame, hwritten⟩ := hsteps unevenSteps
  exact ⟨hblank, hreports, hsame.trans (hwritten.trans (by decide +kernel))⟩

end DispatchTree

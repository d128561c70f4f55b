import Mathlib.Data.List.Infix
import DispatchTree.Proofs.CodeLines
import DispatchTree.Proofs.Layouts
/-! Sessions piece by piece.
A session in the pretty layout writes one piece after the other, and where a piece stands depends
only on the guards that were opened and closed in front of it.  So the text of a session, with all
that was taken from it put together again, is known line by line from the pieces alone.  In the
compact layout each step adds a text of its own, whatever stands before it. -/
namespace DispatchTree

/-- A guard that is opened or closed, or a statement. -/
inductive Piece where
  | opening (condition : String)
  | closing
  | statement (text : String)
  deriving DecidableEq

namespace Piece

def isOpening : Piece → Bool
  | opening _ => true
  | _ => false

def isClosing : Piece → Bool
  | closing => true
  | _ => false

def opened (pieces : List Piece) : Nat := pieces.countP isOpening

def closed (pieces : List Piece) : Nat := pieces.countP isClosing

/-- The level behind several pieces: the guards that were opened less those that were closed. -/
def level (pieces : List Piece) : Nat := opened pieces - closed pieces

/-- The lines of a piece behind others; the brace of a closed guard stands on the level that it
returns to. -/
def codeLines (front : List Piece) : Piece → List CodeLine
  | opening condition => CodeLine.guard (level front) condition
  | closing => [⟨level (front ++ [closing]), closeBrace⟩]
  | statement text => [⟨level front, text⟩]

def linesBehind (front : List Piece) : List Piece → List CodeLine
  | [] => []
  | piece :: rest => piece.codeLines front ++ linesBehind (front ++ [piece]) rest

def branch (condition text : String) : List Piece := [opening condition, statement text, closing]

/-- No guard is closed that was not opened. -/
def Nested (pieces : List Piece) : Prop := closed pieces ≤ opened pieces

instance (pieces : List Piece) : Decidable (Nested pieces) :=
  inferInstanceAs (Decidable (closed pieces ≤ opened pieces))

end Piece

namespace Tree

def pieces (call : String → String) : Tree → List Piece
  | leaf names => names.flatMap fun name =>
    Piece.branch (comparison name) (returnStatement (call name))
  | split feature threshold left right =>
    .opening (feature.above threshold) :: (right.pieces call ++ .closing :: left.pieces call)

end Tree

namespace Step

def pieces : Step → List Piece
  | enter condition => [.opening condition]
  | leave => [.closing]
  | put text => [.statement text]
  | putUnder condition text => Piece.branch condition text
  | putTree call tree => tree.pieces call
  | take => []

def isTake : Step → Bool
  | take => true
  | _ => false

/-- No beginning of the session closes more guards than it opens. -/
def Nested (steps : List Step) : Prop :=
  ∀ front, front <+: steps → Piece.Nested (front.flatMap pieces)

instance (steps : List Step) : Decidable (Nested steps) :=
  decidable_of_iff (∀ front ∈ steps.inits, Piece.Nested (front.flatMap pieces)) (by
    simp only [List.mem_inits, Nested])

end Step

namespace Piece

section Counts

@[simp] theorem opened_opening (condition : String) : opened [opening condition] = 1 := rfl
@[simp] theorem closed_opening (condition : String) : closed [opening condition] = 0 := rfl
@[simp] theorem opened_closing : opened [closing] = 0 := rfl
@[simp] theorem closed_closing : closed [closing] = 1 := rfl
@[simp] theorem opened_branch (condition text : String) : opened (branch condition text) = 1 := rfl
@[simp] theorem closed_branch (condition text : String) : closed (branch condition text) = 1 := rfl

variable (front back : List Piece)

@[simp] theorem opened_append : opened (front ++ back) = opened front + opened back :=
  List.countP_append

@[simp] theorem closed_append : closed (front ++ back) = closed front + closed back :=
  List.countP_append

theorem level_append_of_eq (h : opened back = closed back) :
    level (front ++ back) = level front := by
  simp [level, h, Nat.add_sub_add_right]

theorem level_append_statement (text : String) : level (front ++ [statement text]) = level front :=
  level_append_of_eq front _ rfl

theorem level_append_closing : level (front ++ [closing]) = level front - 1 := by
  simp only [level, opened_append, closed_append, opened_closing, closed_closing]
  omega

variable {front}

theorem level_append_opening (h : Nested front) (condition : String) :
    level (front ++ [opening condition]) = level front + 1 := by
  simp only [level, opened_append, closed_append, opened_opening, closed_opening]
  exact Nat.sub_add_comm h

theorem Nested.append (h : Nested front) (hb : opened back = closed back) :
    Nested (front ++ back) := by
  rw [Nested, opened_append, closed_append, hb]
  exact Nat.add_le_add_right h _

theorem Nested.append_opening (h : Nested front) (condition : String) :
    Nested (front ++ [opening condition]) := by
  rw [Nested, opened_append, closed_append]
  exact Nat.le_add_right_of_le h

end Counts

@[simp] theorem linesBehind_nil (front : List Piece) : linesBehind front [] = [] := rfl
@[simp] theorem linesBehind_cons (front : List Piece) (piece : Piece) (rest : List Piece) :
    linesBehind front (piece :: rest) =
      piece.codeLines front ++ linesBehind (front ++ [piece]) rest := rfl

theorem linesBehind_append (front middle back : List Piece) :
    linesBehind front (middle ++ back) =
      linesBehind front middle ++ linesBehind (front ++ middle) back := by
  induction middle generalizing front with
  | nil => simp
  | cons piece middle ih => simp [ih, List.append_assoc]

theorem linesBehind_branch {front : List Piece} (h : Nested front) (condition text : String) :
    linesBehind front (branch condition text) =
      CodeLine.branch (level front) condition text := by
  show CodeLine.guard (level front) condition ++ ([⟨level (front ++ [opening condition]), text⟩] ++
    ([⟨level (front ++ [opening condition] ++ [statement text] ++ [closing]), closeBrace⟩] ++
      [])) = _
  rw [level_append_closing, level_append_statement, level_append_opening h, Nat.add_sub_cancel]
  rfl

end Piece

namespace Tree

open Piece

theorem opened_pieces (call : String → String) (tree : Tree) :
    opened (tree.pieces call) = closed (tree.pieces call) := by
  induction tree with
  | leaf names =>
    induction names with
    | nil => rfl
    | cons name names ih =>
      show opened (branch _ _ ++ (leaf names).pieces call) =
        closed (branch _ _ ++ (leaf names).pieces call)
      simp [ih]
  | split f t left right ihl ihr =>
    show opened ([opening _] ++ (right.pieces call ++ ([closing] ++ left.pieces call))) =
      closed ([opening _] ++ (right.pieces call ++ ([closing] ++ left.pieces call)))
    simp only [opened_append, closed_append, ihl, ihr, opened_opening, closed_opening,
      opened_closing, closed_closing]
    omega

/-- The lines of a tree are those of its pieces, on the level that it stands on. -/
theorem linesBehind_pieces {front : List Piece} (h : Nested front) (call : String → String)
    (tree : Tree) :
    linesBehind front (tree.pieces call) = tree.codeLines call (level front) := by
  induction tree generalizing front with
  | leaf names =>
    induction names generalizing front with
    | nil => rfl
    | cons name names ih =>
      have hnested := h.append (branch (comparison name) (returnStatement (call name))) rfl
      show linesBehind front (branch (comparison name) (returnStatement (call name)) ++
        (leaf names).pieces call) =
          CodeLine.branch (level front) _ _ ++ (leaf names).codeLines call _
      rw [linesBehind_append, linesBehind_branch h, ih hnested, level_append_of_eq front _ rfl]
  | split f t left right ihl ihr =>
    have hblock : opened ([opening (f.above t)] ++ right.pieces call ++ [closing]) =
        closed ([opening (f.above t)] ++ right.pieces call ++ [closing]) := by
      simp only [opened_append, closed_append, opened_pieces, opened_opening, closed_opening,
        opened_closing, closed_closing]
      omega
    have hnested := h.append _ hblock
    have hlevel := level_append_of_eq front _ hblock
    simp only [← List.append_assoc] at hnested hlevel
    show CodeLine.guard (level front) (f.above t) ++
      linesBehind (front ++ [opening (f.above t)])
        (right.pieces call ++ closing :: left.pieces call) = _
    rw [linesBehind_append, ihr (h.append_opening _), linesBehind_cons, ihl hnested,
      Piece.codeLines, hlevel, level_append_opening h]
    simp [Tree.codeLines]

end Tree

namespace Step

/-- No beginning of the session closes a guard that neither it nor the pieces in front of it
opened. -/
def NestedBehind (front : List Piece) (steps : List Step) : Prop :=
  ∀ part, part <+: steps → Piece.Nested (front ++ part.flatMap pieces)

section Nested

variable {front : List Piece} {s : Step} {steps : List Step}

theorem NestedBehind.first (h : NestedBehind front (s :: steps)) :
    Piece.Nested (front ++ s.pieces) := by
  simpa using h [s] (by simp)

theorem NestedBehind.rest (h : NestedBehind front (s :: steps)) :
    NestedBehind (front ++ s.pieces) steps := by
  intro part hpart
  have hlonger := h (s :: part) (List.cons_prefix_cons.mpr ⟨rfl, hpart⟩)
  rwa [List.flatMap_cons, ← List.append_assoc] at hlonger

end Nested
end Step

namespace Draft

def after (d : Draft) (steps : List Step) : Draft := steps.foldl (fun d s => (d.step s).2) d

/-- The draft is pretty and on the level that the pieces in front of it lead to. -/
structure IsBehind (d : Draft) (indent : Nat) (front : List Piece) : Prop where
  layout : d.layout = .pretty indent
  nested : Piece.Nested front
  level : d.level = Piece.level front

section Pretty

open Piece

variable {d : Draft} {indent : Nat} {front : List Piece}

theorem fst_step_eq_none (d : Draft) {s : Step} (hs : s.isTake = false) : (d.step s).1 = none := by
  cases s with
  | take => simp [Step.isTake] at hs
  | _ => rfl

theorem IsBehind.snd_step_eq_addLines (h : d.IsBehind indent front) {s : Step}
    (hs : s.isTake = false) : (d.step s).2 =
      d.addLines indent (linesBehind front s.pieces) (Piece.level (front ++ s.pieces)) := by
  obtain ⟨hlayout, hnested, hlevel⟩ := h
  cases s with
  | enter condition =>
    show d.enter condition =
      d.addLines indent (CodeLine.guard (Piece.level front) condition ++ []) _
    rw [enter_eq_addLines hlayout, hlevel, List.append_nil]
    exact congrArg _ (level_append_opening hnested condition).symm
  | leave =>
    show d.leave = d.addLines indent ([⟨Piece.level (front ++ [closing]), closeBrace⟩] ++ [])
      (Piece.level (front ++ [closing]))
    rw [leave_eq_addLines hlayout, hlevel, List.append_nil, level_append_closing]
  | put text =>
    show d.put text = d.addLines indent ([⟨Piece.level front, text⟩] ++ [])
      (Piece.level (front ++ [statement text]))
    rw [put_eq_addLines hlayout, hlevel, List.append_nil, level_append_statement]
  | putUnder condition text =>
    show d.putUnder condition text = d.addLines indent (linesBehind front (branch condition text))
      (Piece.level (front ++ branch condition text))
    rw [putUnder_eq_addLines hlayout, hlevel, linesBehind_branch hnested,
      level_append_of_eq front _ rfl]
  | putTree call tree =>
    show d.putTree call tree = d.addLines indent (linesBehind front (tree.pieces call))
      (Piece.level (front ++ tree.pieces call))
    rw [putTree_eq_addLines hlayout, hlevel, Tree.linesBehind_pieces hnested,
      level_append_of_eq front _ (tree.opened_pieces call)]
  | take => simp [Step.isTake] at hs

/-- A step writes the lines of its pieces behind the text, whether or not it hands them out. -/
theorem IsBehind.step (h : d.IsBehind indent front) (s : Step)
    (hs : Piece.Nested (front ++ s.pieces)) :
    (d.step s).2.IsBehind indent (front ++ s.pieces) ∧ (d.step s).2.margin = d.margin ∧
      (d.step s).1.getD "" ++ (d.step s).2.text =
        d.text ++ CodeLine.text indent d.margin (linesBehind front s.pieces) := by
  by_cases ht : s.isTake = true
  · cases s <;> simp [Step.isTake] at ht
    refine ⟨?_, rfl, ?_⟩
    · simpa [Step.pieces] using ⟨h.layout, h.nested, h.level⟩
    · simp [Draft.step, Draft.take, Step.pieces, CodeLine.text]
  · have ht' : s.isTake = false := Bool.eq_false_iff.mpr ht
    rw [h.snd_step_eq_addLines ht', fst_step_eq_none d ht']
    exact ⟨⟨h.layout, hs, rfl⟩, rfl, by simp⟩

theorem IsBehind.written_eq (h : d.IsBehind indent front) {steps : List Step}
    (hn : Step.NestedBehind front steps) :
    d.written steps =
      d.text ++ CodeLine.text indent d.margin (linesBehind front (steps.flatMap Step.pieces)) := by
  -- Only the pieces that were written are common to all drafts of a session, takes or not.
  induction steps generalizing d front with
  | nil => simp [written, CodeLine.text]
  | cons s rest ih =>
    obtain ⟨hbehind, hmargin, htext⟩ := h.step s hn.first
    have hrest := ih hbehind hn.rest
    rw [written, hrest, ← String.append_assoc, htext, hmargin, List.flatMap_cons,
      linesBehind_append, CodeLine.text_append, String.append_assoc]

theorem IsBehind.after (h : d.IsBehind indent front) {steps : List Step}
    (hn : Step.NestedBehind front steps) :
    (d.after steps).IsBehind indent (front ++ steps.flatMap Step.pieces) := by
  induction steps generalizing d front with
  | nil => simpa [Draft.after] using ⟨h.layout, h.nested, h.level⟩
  | cons s rest ih =>
    have hrest := ih (h.step s hn.first).1 hn.rest
    rwa [List.append_assoc, ← List.flatMap_cons] at hrest

end Pretty

theorem isBehind_new (indent : Nat) (margin : String) :
    (new (.pretty indent) margin).IsBehind indent [] := ⟨rfl, Nat.le_refl 0, rfl⟩

end Draft

def compactGuard (condition : String) : String := "if(" ++ condition ++ ")" ++ openBrace

def compactBranch (condition text : String) : String :=
  compactGuard condition ++ (" " ++ text ++ " ") ++ closeBrace

def Tree.compactCode (call : String → String) : Tree → String
  | leaf names => String.join (names.map fun name =>
    compactBranch (comparison name) (returnStatement (call name)))
  | split feature threshold left right =>
    compactGuard (feature.above threshold) ++ right.compactCode call ++ closeBrace ++
      left.compactCode call

def Step.compactText : Step → String
  | enter condition => compactGuard condition
  | leave => closeBrace
  | put text => text
  | putUnder condition text => compactBranch condition text
  | putTree call tree => tree.compactCode call
  | take => ""

namespace Draft

theorem append_append (d : Draft) (front back : String) :
    (d.append front).append back = d.append (front ++ back) := by
  simp [append, String.append_assoc]

section Compact

variable {d : Draft} (h : d.layout = .compact)

include h

theorem enter_eq_append (condition : String) :
    d.enter condition = d.append (compactGuard condition) := by
  simp [enter, h, compactGuard]

theorem leave_eq_append : d.leave = d.append closeBrace := by
  simp [leave, h]

theorem put_eq_append (text : String) : d.put text = d.append text := by
  simp [put, h]

theorem putUnder_eq_append (condition text : String) :
    d.putUnder condition text = d.append (compactBranch condition text) := by
  have hinside : ((d.enter condition).append (" " ++ text ++ " ")).layout = .compact := by
    simpa using h
  have hunder : d.putUnder condition text =
      ((d.enter condition).append (" " ++ text ++ " ")).leave := by
    simp [putUnder, h]
  rw [hunder, leave_eq_append hinside, enter_eq_append h, append_append, append_append]
  simp only [compactBranch, String.append_assoc]

theorem putNames_eq_append (call : String → String) (names : List String) :
    d.putNames call names = d.append ((Tree.leaf names).compactCode call) := by
  induction names generalizing d with
  | nil => simp [Tree.compactCode, append]
  | cons name names ih =>
    rw [putNames_cons, ih (by simpa using h), putUnder_eq_append h, append_append]
    simp [Tree.compactCode]

theorem putTree_eq_append (call : String → String) (tree : Tree) :
    d.putTree call tree = d.append (tree.compactCode call) := by
  induction tree generalizing d with
  | leaf names => exact putNames_eq_append h call names
  | split f t left right ihl ihr =>
    have hright : (d.append (compactGuard (f.above t) ++ right.compactCode call)).layout =
        .compact := by simpa using h
    rw [putTree_split, enter_eq_append h, ihr (by simpa using h), append_append,
      leave_eq_append hright, append_append, ihl (by simpa using h), append_append]
    rfl

theorem step_of_compact (s : Step) : (d.step s).2.layout = .compact ∧
    (d.step s).1.getD "" ++ (d.step s).2.text = d.text ++ s.compactText := by
  cases s with
  | enter condition => simp [step, enter_eq_append h, h, Step.compactText]
  | leave => simp [step, leave_eq_append h, h, Step.compactText]
  | put text => simp [step, put_eq_append h, h, Step.compactText]
  | putUnder condition text => simp [step, putUnder_eq_append h, h, Step.compactText]
  | putTree call tree => simp [step, putTree_eq_append h, h, Step.compactText]
  | take => simp [step, take, h, Step.compactText]

theorem written_of_compact (steps : List Step) :
    d.written steps = d.text ++ String.join (steps.map Step.compactText) := by
  induction steps generalizing d with
  | nil => simp [written]
  | cons s rest ih =>
    obtain ⟨hlayout, htext⟩ := step_of_compact h s
    rw [written, ih hlayout, ← String.append_assoc, htext, List.map_cons, String.join_cons,
      String.append_assoc]

end Compact

theorem level_putTree (call : String → String) (d : Draft) (tree : Tree) :
    (d.putTree call tree).level = d.level := by
  cases h : d.layout with
  | compact => rw [putTree_eq_append h, level_append]
  | pretty indent => rw [putTree_eq_addLines h, level_addLines]

end Draft

theorem Step.join_map_compactText_filter (steps : List Step) :
    String.join ((steps.filter (!·.isTake)).map compactText) =
      String.join (steps.map compactText) := by
  induction steps with
  | nil => rfl
  | cons s rest ih =>
    by_cases h : s.isTake = true
    · have hempty : s.compactText = "" := by
        cases s <;> simp [isTake] at h
        rfl
      simp [h, hempty, ih]
    · simp [h, ih]

/-- A session writes each piece as a line of its own, behind the margin and the spaces of the level
that the guards opened and closed before it lead to, and it makes no difference where text is taken.
In the compact layout neither the takes nor the margin make any. -/
theorem sessions_written_by_pieces (margin : String) (indent : Nat) :
    (∀ steps, Step.Nested steps →
      (Draft.new (.pretty indent) margin).written steps =
          CodeLine.text indent margin (Piece.linesBehind [] (steps.flatMap Step.pieces)) ∧
        ∀ front, front <+: steps → ((Draft.new (.pretty indent) margin).after front).level =
          Piece.level (front.flatMap Step.pieces)) ∧
    (∀ (d : Draft) (condition text : String), (d.putUnder condition text).level = d.level) ∧
    (∀ (d : Draft) (call : String → String) (tree : Tree), (d.putTree call tree).level = d.level) ∧
    ∀ (other : String) (steps others : List Step),
      steps.filter (!·.isTake) = others.filter (!·.isTake) →
        (Draft.new .compact margin).written steps = (Draft.new .compact other).written others := by
  have hstart := Draft.isBehind_new indent margin
  refine ⟨fun steps hn => ⟨?_, fun front hf => ?_⟩, Draft.level_putUnder, fun d call tree =>
    Draft.level_putTree call d tree, fun other steps others hsame => ?_⟩
  · have hwritten := hstart.written_eq hn
    rw [hwritten]
    exact String.empty_append
  · have hfront : Step.Nested front := fun shorter hs => hn shorter (hs.trans hf)
    exact (hstart.after hfront).level
  · rw [Draft.written_of_compact rfl, Draft.written_of_compact rfl,
      ← Step.join_map_compactText_filter steps, hsame, Step.join_map_compactText_filter]
    rfl

/-- Two guards, one around a statement and the other around a tree with an empty leaf, with takes
inside of both. -/
def guardedSteps : List Step :=
  [.enter "a", .put "b;", .take, .enter "c",
    .putTree CallForm.factory.call (.split .length 1 (.leaf []) (.leaf ["f"])), .take, .leave,
    .putUnder "d" "e;", .leave, .take]

theorem sessions_written_by_pieces_guarded :
    Step.Nested guardedSteps ∧
      (Draft.new (.pretty 1) "\t").written guardedSteps = CodeLine.text 1 "\t"
        [⟨0, "if (a)"⟩, ⟨0, openBrace⟩, ⟨1, "b;"⟩, ⟨1, "if (c)"⟩, ⟨1, openBrace⟩,
          ⟨2, "if (length > 1)"⟩, ⟨2, openBrace⟩, ⟨3, "if (view == \"f\")"⟩, ⟨3, openBrace⟩,
          ⟨4, "return f_factory();"⟩, ⟨3, closeBrace⟩, ⟨2, closeBrace⟩, ⟨1, closeBrace⟩,
          ⟨1, "if (d)"⟩, ⟨1, openBrace⟩, ⟨2, "e;"⟩, ⟨1, closeBrace⟩, ⟨0, closeBrace⟩] ∧
      (Draft.new .compact "\t").written guardedSteps =
        (Draft.new .compact "  ").written (.take :: guardedSteps.filter (!·.isTake)) := by
  have hnested : Step.Nested guardedSteps := by decide
  obtain ⟨hpretty, _, _, hcompact⟩ := sessions_written_by_pieces "\t" 1
  obtain ⟨hwritten, _⟩ := hpretty guardedSteps hnested
  exact ⟨hnested, hwritten.trans rfl, hcompact "  " guardedSteps _ rfl⟩

end DispatchTree

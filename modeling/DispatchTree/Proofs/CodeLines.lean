import DispatchTree.Code.Spelling
import DispatchTree.Proofs.Regions
import DispatchTree.Proofs.Thresholds
import DispatchTree.Tree.Code
/-! Pretty code line by line.
The pretty layout turns a tree into pieces, each on a level of nesting, and every piece becomes one
line: the margin, the spaces of its level, the piece and a newline.  The pieces of a tree whose
names are identifiers are printable and start no marker, so the lines of the code are known whatever
blank margin stands in front of them. -/
namespace DispatchTree
open Text

/-- A piece of pretty code on its level of nesting. -/
structure CodeLine where
  level : Nat
  piece : String

namespace CodeLine

def content (indent : Nat) (margin : String) (line : CodeLine) : List Char :=
  margin.toList ++ (List.replicate (line.level * indent) ' ' ++ line.piece.toList)

def text (indent : Nat) (margin : String) (pieces : List CodeLine) : String :=
  String.join (pieces.map fun line =>
    margin ++ spaces (line.level * indent) ++ line.piece ++ "\n")

theorem text_append (indent : Nat) (margin : String) (front back : List CodeLine) :
    text indent margin (front ++ back) = text indent margin front ++ text indent margin back := by
  rw [text, List.map_append, String.join_append, text, text]

theorem toList_text (indent : Nat) (margin : String) (pieces : List CodeLine) :
    (text indent margin pieces).toList =
      (pieces.map fun line => line.content indent margin ++ ['\n']).flatten := by
  induction pieces with
  | nil => rfl
  | cons line pieces ih =>
    rw [List.map_cons, List.flatten_cons, ← ih, text, List.map_cons, String.join_cons,
      String.toList_append, ← text]
    simp [content]

def guard (level : Nat) (condition : String) : List CodeLine :=
  [⟨level, "if (" ++ condition ++ ")"⟩, ⟨level, openBrace⟩]

def branch (level : Nat) (condition statement : String) : List CodeLine :=
  guard level condition ++ [⟨level + 1, statement⟩, ⟨level, closeBrace⟩]

end CodeLine

namespace Tree

def codeLines (call : String → String) (level : Nat) : Tree → List CodeLine
  | leaf names => names.flatMap fun name =>
    CodeLine.branch level (comparison name) (returnStatement (call name))
  | split feature threshold left right =>
    CodeLine.guard level (feature.above threshold) ++ right.codeLines call (level + 1) ++
      ⟨level, closeBrace⟩ :: left.codeLines call level

def fullCodeLines (call : String → String) (tree : Tree) : List CodeLine :=
  tree.codeLines call 0 ++ [⟨0, noMatch⟩]

end Tree

namespace Draft

/-- Adds the lines of several pieces and goes on at a level. -/
def addLines (d : Draft) (indent : Nat) (pieces : List CodeLine) (level : Nat) : Draft :=
  { d with level, text := d.text ++ CodeLine.text indent d.margin pieces }

variable (d : Draft) (indent : Nat)

@[simp] theorem layout_addLines (pieces : List CodeLine) (level : Nat) :
    (d.addLines indent pieces level).layout = d.layout := rfl
@[simp] theorem level_addLines (pieces : List CodeLine) (level : Nat) :
    (d.addLines indent pieces level).level = level := rfl
@[simp] theorem text_addLines (pieces : List CodeLine) (level : Nat) :
    (d.addLines indent pieces level).text = d.text ++ CodeLine.text indent d.margin pieces := rfl

theorem addLines_nil : d.addLines indent [] d.level = d := by
  simp [addLines, CodeLine.text]

theorem addLines_addLines (front back : List CodeLine) (middle level : Nat) :
    (d.addLines indent front middle).addLines indent back level =
      d.addLines indent (front ++ back) level := by
  simp [addLines, CodeLine.text_append, String.append_assoc]

theorem putLine_eq_addLines (piece : String) :
    d.putLine indent piece = d.addLines indent [⟨d.level, piece⟩] d.level := by
  simp [putLine, append, addLines, CodeLine.text]

variable {d indent}

theorem enter_eq_addLines (h : d.layout = .pretty indent) (condition : String) :
    d.enter condition = d.addLines indent (CodeLine.guard d.level condition) (d.level + 1) := by
  unfold enter
  rw [h]
  simp only [putLine_eq_addLines, addLines_addLines, level_addLines]
  rfl

theorem leave_eq_addLines (h : d.layout = .pretty indent) :
    d.leave = d.addLines indent [⟨d.level - 1, closeBrace⟩] (d.level - 1) := by
  unfold leave
  rw [h]
  simp only [putLine_eq_addLines]
  rw [← h]
  rfl

theorem put_eq_addLines (h : d.layout = .pretty indent) (piece : String) :
    d.put piece = d.addLines indent [⟨d.level, piece⟩] d.level := by
  unfold put
  rw [h]
  simp only [putLine_eq_addLines]

theorem putUnder_eq_addLines (h : d.layout = .pretty indent) (condition piece : String) :
    d.putUnder condition piece =
      d.addLines indent (CodeLine.branch d.level condition piece) d.level := by
  unfold putUnder
  rw [h]
  show ((d.enter condition).put piece).leave = _
  rw [enter_eq_addLines h, put_eq_addLines (by simpa using h), leave_eq_addLines (by simpa using h)]
  simp only [addLines_addLines, level_addLines]
  simp [CodeLine.branch]

theorem putNames_eq_addLines (h : d.layout = .pretty indent) (call : String → String)
    (names : List String) : d.putNames call names =
      d.addLines indent ((Tree.leaf names).codeLines call d.level) d.level := by
  induction names generalizing d with
  | nil => exact (addLines_nil d indent).symm
  | cons name names ih =>
    rw [putNames_cons, putUnder_eq_addLines h, ih (by simpa using h), addLines_addLines]
    rfl

theorem putTree_eq_addLines (h : d.layout = .pretty indent) (call : String → String)
    (tree : Tree) :
    d.putTree call tree = d.addLines indent (tree.codeLines call d.level) d.level := by
  induction tree generalizing d with
  | leaf names => exact putNames_eq_addLines h call names
  | split f t left right ihl ihr =>
    rw [putTree_split, enter_eq_addLines h, ihr (by simpa using h),
      leave_eq_addLines (by simpa using h), ihl (by simpa using h)]
    simp only [addLines_addLines, level_addLines, Nat.add_sub_cancel]
    simp [Tree.codeLines]

end Draft

namespace Tree

theorem fullCode_pretty (call : String → String) (indent : Nat) (margin : String) (tree : Tree) :
    tree.fullCode call (.pretty indent) margin =
      CodeLine.text indent margin (tree.fullCodeLines call) := by
  have hlayout : (Draft.new (.pretty indent) margin).layout = .pretty indent := rfl
  rw [fullCode, Draft.putTree_eq_addLines hlayout, Draft.put_eq_addLines (by simpa using hlayout),
    Draft.addLines_addLines, Draft.text_addLines]
  exact String.empty_append

end Tree

def IsPrintable (text : List Char) : Prop := ∀ c ∈ text, 32 ≤ c.toNat ∧ c.toNat ≤ 126

instance (text : List Char) : Decidable (IsPrintable text) :=
  decidable_of_iff (text.all fun c => decide (32 ≤ c.toNat) && decide (c.toNat ≤ 126)) (by
    simp [IsPrintable])

theorem IsPrintable.append {front back : List Char} (hf : IsPrintable front)
    (hb : IsPrintable back) : IsPrintable (front ++ back) := by
  intro c hc
  rcases List.mem_append.mp hc with hc | hc
  · exact hf c hc
  · exact hb c hc

theorem IsPrintable.newline_not_mem {text : List Char} (h : IsPrintable text) : '\n' ∉ text :=
  fun hm => absurd (h _ hm).1 (by decide)

theorem IsPrintable.return_not_mem {text : List Char} (h : IsPrintable text) : '\r' ∉ text :=
  fun hm => absurd (h _ hm).1 (by decide)

theorem isPrintable_of_isIdentifierRest {text : List Char}
    (h : ∀ c ∈ text, isIdentifierRest c = true) : IsPrintable text := by
  intro c hc
  have := code_of_isIdentifierRest (h c hc)
  omega

theorem isPrintable_hexDigits (n : Nat) : IsPrintable (hexDigits n) := by
  have hdigit : ∀ d < 16, 32 ≤ (Nat.digitChar d).toNat ∧ (Nat.digitChar d).toNat ≤ 126 := by decide
  have hdigits : IsPrintable (Nat.toDigits 16 n) := by
    intro c hc
    obtain ⟨d, hd, rfl⟩ := mem_toDigits_sixteen hc
    exact hdigit d hd
  unfold hexDigits
  split
  · have hzero : IsPrintable ['0'] := by decide
    exact hzero.append hdigits
  · exact hdigits

theorem isPrintable_charContent (code : Nat) : IsPrintable (charContent code) := by
  unfold charContent
  split
  · decide
  split
  · decide
  split
  · rename_i hp
    intro c hc
    rw [List.mem_singleton.mp hc, toNat_ofNat_of_printable hp]
    exact hp
  · have hescape : IsPrintable ['\\', 'x'] := by decide
    exact hescape.append (isPrintable_hexDigits code)

namespace Feature

theorem isPrintable_bound (f : Feature) (threshold : Nat) :
    IsPrintable (f.bound threshold).toList := by
  have hquote : IsPrintable ['\''] := by decide
  unfold bound
  split
  · rw [toList_charLiteral]
    exact hquote.append ((isPrintable_charContent threshold).append hquote)
  · rw [toList_decimal]
    exact isPrintable_of_isIdentifierRest fun c hc => isIdentifierRest_of_mem_toDigits hc

theorem isPrintable_above (f : Feature) (threshold : Nat) :
    IsPrintable (f.above threshold).toList := by
  have hsymbol : IsPrintable (f.symbol ++ " > ").toList := by cases f <;> decide
  have hall := hsymbol.append (f.isPrintable_bound threshold)
  rwa [← String.toList_append] at hall

end Feature

theorem isPrintable_of_isIdentifier {name : String} (h : isIdentifier name = true) :
    IsPrintable name.toList := isPrintable_of_isIdentifierRest (isIdentifierRest_of_mem h)

theorem CallForm.isPrintable_call (form : CallForm) {name : String}
    (h : isIdentifier name = true) : IsPrintable (form.call name).toList := by
  have hname := isPrintable_of_isIdentifier h
  cases form with
  | direct =>
    have hfront : IsPrintable "builtins::".toList := by decide
    have hback : IsPrintable "(name)".toList := by decide
    simpa [call] using (hfront.append hname).append hback
  | factory =>
    have hback : IsPrintable "_factory()".toList := by decide
    simpa [call] using hname.append hback

namespace CodeLine

/-- The piece is printable, and what it starts with is neither blank nor the slash of a marker. -/
structure IsPlain (line : CodeLine) : Prop where
  printable : IsPrintable line.piece.toList
  head : ∃ c rest, line.piece.toList = c :: rest ∧ isBlank c = false ∧ c ≠ '/'

theorem isPlain_of_append {level : Nat} {front back : String}
    (hfront : IsPrintable front.toList) (hback : IsPrintable back.toList)
    (hhead : ∃ c rest, front.toList = c :: rest ∧ isBlank c = false ∧ c ≠ '/') :
    IsPlain ⟨level, front ++ back⟩ := by
  obtain ⟨c, rest, heq, hc⟩ := hhead
  refine ⟨?_, c, rest ++ back.toList, ?_, hc⟩
  · simpa using hfront.append hback
  · simp [heq]

theorem isPlain_brace {level : Nat} {brace : Char} (h : brace = '{' ∨ brace = '}') :
    IsPlain ⟨level, String.ofList [brace]⟩ := by
  rcases h with rfl | rfl
  · exact ⟨by simp [IsPrintable], '{', [], by simp, by decide, by decide⟩
  · exact ⟨by simp [IsPrintable], '}', [], by simp, by decide, by decide⟩

theorem isPlain_of_mem_guard {level : Nat} {condition : String}
    (h : IsPrintable condition.toList) : ∀ line ∈ guard level condition, line.IsPlain := by
  have hopen : IsPrintable "if (".toList := by decide
  have hclose : IsPrintable ")".toList := by decide
  intro line hl
  simp only [guard, List.mem_cons, List.not_mem_nil, or_false] at hl
  rcases hl with rfl | rfl
  · rw [String.append_assoc]
    refine isPlain_of_append hopen ?_ ⟨'i', ['f', ' ', '('], rfl, by decide, by decide⟩
    simpa using h.append hclose
  · exact isPlain_brace (Or.inl rfl)

theorem isPlain_returnStatement {level : Nat} {expression : String}
    (h : IsPrintable expression.toList) : IsPlain ⟨level, returnStatement expression⟩ := by
  have hreturn : IsPrintable "return ".toList := by decide
  have hsemicolon : IsPrintable ";".toList := by decide
  rw [returnStatement, String.append_assoc]
  refine isPlain_of_append hreturn ?_
    ⟨'r', ['e', 't', 'u', 'r', 'n', ' '], rfl, by decide, by decide⟩
  simpa using h.append hsemicolon

end CodeLine

theorem isPrintable_comparison {name : String} (h : isIdentifier name = true) :
    IsPrintable (comparison name).toList := by
  have hopen : IsPrintable "view == \"".toList := by decide
  have hclose : IsPrintable "\"".toList := by decide
  simpa [comparison] using (hopen.append (isPrintable_of_isIdentifier h)).append hclose

namespace Tree

theorem isPlain_of_mem_codeLines {tree : Tree} (h : ∀ name ∈ tree.names, isIdentifier name = true)
    (form : CallForm) (level : Nat) : ∀ line ∈ tree.codeLines form.call level, line.IsPlain := by
  induction tree generalizing level with
  | leaf names =>
    intro line hl
    obtain ⟨name, hn, hl⟩ := List.mem_flatMap.mp hl
    have hname := h name hn
    rcases List.mem_append.mp hl with hl | hl
    · exact CodeLine.isPlain_of_mem_guard (isPrintable_comparison hname) line hl
    · simp only [List.mem_cons, List.not_mem_nil, or_false] at hl
      rcases hl with rfl | rfl
      · exact CodeLine.isPlain_returnStatement (form.isPrintable_call hname)
      · exact CodeLine.isPlain_brace (Or.inr rfl)
  | split f t left right ihl ihr =>
    intro line hl
    simp only [codeLines, List.mem_append, List.mem_cons] at hl
    rcases hl with (hl | hl) | rfl | hl
    · exact CodeLine.isPlain_of_mem_guard (f.isPrintable_above t) line hl
    · exact ihr (fun name hn => h name (List.mem_append_right _ hn)) (level + 1) line hl
    · exact CodeLine.isPlain_brace (Or.inr rfl)
    · exact ihl (fun name hn => h name (List.mem_append_left _ hn)) level line hl

theorem isPlain_of_mem_fullCodeLines {tree : Tree}
    (h : ∀ name ∈ tree.names, isIdentifier name = true) (form : CallForm) :
    ∀ line ∈ tree.fullCodeLines form.call, line.IsPlain := by
  have hnull : IsPrintable "nullptr".toList := by decide
  intro line hl
  rcases List.mem_append.mp hl with hl | hl
  · exact isPlain_of_mem_codeLines h form 0 line hl
  · rw [List.mem_singleton.mp hl]
    exact CodeLine.isPlain_returnStatement hnull

end Tree

namespace CodeLine

theorem content_eq_append (indent : Nat) (margin : String) (line : CodeLine) :
    line.content indent margin = margin.toList ++ line.content indent "" := by
  simp [content]

section Plain

variable {line : CodeLine} {indent : Nat} {margin : String}

theorem IsPlain.newline_not_mem_content (h : line.IsPlain) (hm : '\n' ∉ margin.toList) :
    '\n' ∉ line.content indent margin := by
  have hpiece := h.printable.newline_not_mem
  simp [content, hm, hpiece]

theorem IsPlain.isFull (h : line.IsPlain) (hm : '\n' ∉ margin.toList) :
    IsFull (line.content indent margin ++ ['\n']) :=
  ⟨_, h.newline_not_mem_content hm, rfl⟩

theorem IsPlain.content_append_newline (h : line.IsPlain) :
    Text.content (line.content indent margin ++ ['\n']) = line.content indent margin := by
  obtain ⟨c, rest, heq, _⟩ := h.head
  have hlast : (line.content indent margin).getLast? = line.piece.toList.getLast? := by
    simp [content, heq, List.getLast?_append, List.getLast?_cons]
  rw [Text.content_append_newline, hlast, if_neg]
  exact fun hr => h.printable.return_not_mem (List.mem_of_getLast? hr)

theorem IsPlain.isMarker_content (h : line.IsPlain) (hm : AllBlank margin) (tail : List Char) :
    Region.isMarker (line.content indent margin ++ tail) = false := by
  obtain ⟨c, rest, heq, hblank, hslash⟩ := h.head
  have hspaces : ∀ d ∈ List.replicate (line.level * indent) ' ', isBlank d = true :=
    fun d hd => (List.eq_of_mem_replicate hd) ▸ isBlank_space
  have htrim : trimStart (line.content indent margin ++ tail) = c :: (rest ++ tail) := by
    rw [trimStart, content, List.append_assoc, List.dropWhile_append_of_pos hm, List.append_assoc,
      List.dropWhile_append_of_pos hspaces, heq]
    simp [hblank]
  have hmarker : ∀ marker : List Char,
      ('/' :: marker).isPrefixOf (c :: (rest ++ tail)) = false := by
    intro marker
    rw [List.isPrefixOf_cons_cons, beq_false_of_ne (Ne.symm hslash), Bool.false_and]
  rw [Region.isMarker, Region.isBegin, Region.isEnd, htrim]
  exact Bool.or_eq_false_iff.mpr ⟨hmarker _, hmarker _⟩

end Plain

section Text

variable {pieces : List CodeLine} (hp : ∀ line ∈ pieces, line.IsPlain) (indent : Nat)
  {margin : String} (hm : '\n' ∉ margin.toList)

include hp hm

theorem isFull_of_mem_map :
    ∀ line ∈ pieces.map (fun line => line.content indent margin ++ ['\n']), IsFull line := by
  intro line hl
  obtain ⟨piece, hpiece, rfl⟩ := List.mem_map.mp hl
  exact (hp piece hpiece).isFull hm

theorem lines_text : lines (text indent margin pieces).toList =
    pieces.map fun line => line.content indent margin ++ ['\n'] := by
  rw [toList_text, lines_flatten (isFull_of_mem_map hp indent hm)]

theorem endsLine_text : EndsLine (text indent margin pieces).toList := by
  rw [toList_text]
  exact endsLine_flatten (isFull_of_mem_map hp indent hm)

theorem map_content_lines_text : (lines (text indent margin pieces).toList).map Text.content =
    pieces.map fun line => line.content indent margin := by
  rw [lines_text hp indent hm, List.map_map]
  exact List.map_congr_left fun line hl => (hp line hl).content_append_newline

end Text

end CodeLine

end DispatchTree

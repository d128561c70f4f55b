import DispatchTree.Proofs.Clauses
import DispatchTree.Tree.Fragment
/-! What drafts read as.
Each operation of a draft adds text that reads as certain items, in both layouts and behind every
blank margin, so that the code of a tree reads as the items of its fragment. -/
namespace DispatchTree
open Text Token Fragment

namespace Condition

def text : Condition → String
  | exceeds f threshold => f.above threshold
  | equals name => comparison name

/-- A name in the condition can stand between quotes. -/
def Quotable : Condition → Prop
  | exceeds .. => True
  | equals name => '"' ∉ name.toList

end Condition

theorem scans_bound (f : Feature) (threshold : Nat) :
    Scans .between ((f.bound threshold).toList ++ [')']) [f.boundToken threshold, .lexeme [')']]
      .between := by
  have closing : Scans .between [')'] [.lexeme [')']] .between := by decide
  cases hf : f.readsChar with
  | true =>
    have hc := (scans_charLiteral threshold).append closing
    simpa [Feature.bound, Feature.boundToken, hf] using hc
  | false =>
    have hd : ∀ c ∈ Nat.toDigits 10 threshold, kindOf c = some .word := fun c hc => by
      simp [kindOf, isIdentifierRest_of_mem_toDigits hc]
    have hw := (Scans.word Nat.toDigits_ne_nil hd).append (.within (by decide) closing)
    simpa [Feature.bound, Feature.boundToken, hf] using hw

theorem scans_condition {condition : Condition} (h : condition.Quotable) :
    Scans .between (condition.text.toList ++ [')']) (condition.tokens ++ [.lexeme [')']])
      .between := by
  cases condition with
  | exceeds f threshold =>
    have hs : Scans .between (f.symbol ++ " > ").toList [.lexeme f.symbol.toList, .lexeme ['>']]
        .between := by cases f <;> decide
    have hb := hs.append (scans_bound f threshold)
    simpa [Condition.text, Condition.tokens, Feature.above] using hb
  | equals name =>
    have hopen : Scans .between "view == \"".toList
        [.lexeme ['v', 'i', 'e', 'w'], .lexeme ['=', '=']] (.string []) := by decide
    have hclose : advance (.string name.toList) '"' =
        some ([.string name.toList], .between) := by simp [advance]
    have hend : Scans (.string name.toList) ['"', ')'] [.string name.toList, .lexeme [')']]
        .between := .cons hclose (by decide)
    have hn := hopen.append ((Scans.quoted [] h).append hend)
    simpa [Condition.text, Condition.tokens, comparison] using hn

theorem scans_returnStatement {expression : String}
    (h : ∀ c ∈ expression.toList, isExpressionChar c = true) :
    ∃ clause, Scans .between (returnStatement expression).toList clause .between ∧
      Item.Spelled clause (.ret expression) := by
  have hreturn : Scans .between "return ".toList [.lexeme ['r', 'e', 't', 'u', 'r', 'n']]
      .between := by decide
  have hheld : Mode.between.held? = some [] := rfl
  obtain ⟨words, hscan, hwords⟩ := scans_expression hheld h
  rw [List.nil_append] at hwords
  refine ⟨.lexeme ['r', 'e', 't', 'u', 'r', 'n'] :: (words.map lexeme ++ [.lexeme [';']]), ?_, ?_⟩
  · simpa [returnStatement] using hreturn.append hscan
  · have hs := Item.Spelled.ret words (hwords.symm ▸ h)
    rwa [hwords, String.ofList_toList] at hs

namespace Draft

/-- The margin is blank, and the text is that of the tokens. -/
structure Lexes (d : Draft) (tokens : List Token) : Prop where
  margin : AllBlank d.margin
  text : Scans .between d.text.toList tokens .between

namespace Lexes

variable {d : Draft} {tokens more : List Token}

theorem new (layout : Layout) {margin : String} (h : AllBlank margin) :
    (Draft.new layout margin).Lexes [] := ⟨h, .nil _⟩

theorem append (h : d.Lexes tokens) {piece : String}
    (hp : Scans .between piece.toList more .between) : (d.append piece).Lexes (tokens ++ more) := by
  refine ⟨h.margin, ?_⟩
  simpa using h.text.append hp

theorem putLine (h : d.Lexes tokens) (indent : Nat) (piece : String)
    (hp : Scans .between piece.toList more .between) :
    (d.putLine indent piece).Lexes (tokens ++ more) := by
  have hm : Scans .between d.margin.toList [] .between := .blanks h.margin
  have hs : Scans .between (List.replicate (d.level * indent) ' ') [] .between :=
    .blanks fun c hc => (List.eq_of_mem_replicate hc) ▸ isBlank_space
  have hn : Scans .between ['\n'] [] .between := by decide
  have hline := (hm.append hs).append (hp.append hn)
  exact h.append (by simpa using hline)

theorem atLevel (h : d.Lexes tokens) (level : Nat) : { d with level := level }.Lexes tokens :=
  ⟨h.margin, h.text⟩

theorem enter (h : d.Lexes tokens) {condition : Condition} (hc : condition.Quotable) :
    (d.enter condition.text).Lexes (tokens ++ .lexeme ['i', 'f'] :: .lexeme ['('] ::
      (condition.tokens ++ [.lexeme [')'], .lexeme ['{']])) := by
  have hcond := scans_condition hc
  have hbrace : Scans .between ['{'] [.lexeme ['{']] .between := by decide
  unfold Draft.enter
  split
  · have hopen : Scans .between ['i', 'f', '('] [.lexeme ['i', 'f'], .lexeme ['(']] .between := by
      decide
    have hpiece := hopen.append (hcond.append hbrace)
    exact h.append (by simpa using hpiece)
  · rename_i indent _
    have hopen : Scans .between ['i', 'f', ' ', '('] [.lexeme ['i', 'f'], .lexeme ['(']]
        .between := by decide
    have hhead := hopen.append hcond
    have hfirst := h.putLine indent ("if (" ++ condition.text ++ ")") (by simpa using hhead)
    have hboth := hfirst.putLine indent openBrace hbrace
    simpa using hboth.atLevel (d.level + 1)

theorem leave (h : d.Lexes tokens) : d.leave.Lexes (tokens ++ [.lexeme ['}']]) := by
  have hbrace : Scans .between closeBrace.toList [.lexeme ['}']] .between := by decide
  unfold Draft.leave
  split
  · exact h.append hbrace
  · exact (h.atLevel (d.level - 1)).putLine _ _ hbrace

theorem put (h : d.Lexes tokens) {piece : String}
    (hp : Scans .between piece.toList more .between) : (d.put piece).Lexes (tokens ++ more) := by
  unfold Draft.put
  split
  · exact h.append hp
  · exact h.putLine _ _ hp

theorem putUnder (h : d.Lexes tokens) {condition : Condition} (hc : condition.Quotable)
    {piece : String} (hp : Scans .between piece.toList more .between) :
    (d.putUnder condition.text piece).Lexes (tokens ++ .lexeme ['i', 'f'] :: .lexeme ['('] ::
      (condition.tokens ++ [.lexeme [')'], .lexeme ['{']]) ++ more ++ [.lexeme ['}']]) := by
  unfold Draft.putUnder
  split
  · have hblank : Scans .between [' '] [] .between := by decide
    have hpadded := (hblank.append hp).append hblank
    exact ((h.enter hc).append (by simpa using hpadded)).leave
  · exact ((h.enter hc).put hp).leave

end Lexes

/-- The margin is blank, and the text reads as the items. -/
def Reads (d : Draft) (items : List Item) : Prop := ∃ tokens, d.Lexes tokens ∧ Spells tokens items

namespace Reads

variable {d : Draft} {items : List Item}

theorem new (layout : Layout) {margin : String} (h : AllBlank margin) :
    (Draft.new layout margin).Reads [] := ⟨[], .new layout h, .nil⟩

theorem enter (h : d.Reads items) {condition : Condition} (hc : condition.Quotable) :
    (d.enter condition.text).Reads (items ++ [.opening condition]) := by
  obtain ⟨tokens, hl, hs⟩ := h
  exact ⟨_, hl.enter hc, hs.append (.single (.opening condition))⟩

theorem leave (h : d.Reads items) : d.leave.Reads (items ++ [.closing]) := by
  obtain ⟨tokens, hl, hs⟩ := h
  exact ⟨_, hl.leave, hs.append (.single .closing)⟩

theorem put (h : d.Reads items) {expression : String}
    (he : ∀ c ∈ expression.toList, isExpressionChar c = true) :
    (d.put (returnStatement expression)).Reads (items ++ [.ret expression]) := by
  obtain ⟨tokens, hl, hs⟩ := h
  obtain ⟨clause, hscan, hspelled⟩ := scans_returnStatement he
  exact ⟨_, hl.put hscan, hs.append (.single hspelled)⟩

theorem putUnder (h : d.Reads items) {condition : Condition} (hc : condition.Quotable)
    {expression : String} (he : ∀ c ∈ expression.toList, isExpressionChar c = true) :
    (d.putUnder condition.text (returnStatement expression)).Reads
      (items ++ [.opening condition, .ret expression, .closing]) := by
  obtain ⟨tokens, hl, hs⟩ := h
  obtain ⟨clause, hscan, hspelled⟩ := scans_returnStatement he
  refine ⟨_, hl.putUnder hc hscan, ?_⟩
  have hopen := hs.append (.single (.opening condition))
  simpa using (hopen.append (.single hspelled)).append (.single .closing)

variable {call : String → String}

theorem putNames {names : List String} (h : d.Reads items)
    (hn : ∀ name ∈ names, '"' ∉ name.toList)
    (hc : ∀ name ∈ names, ∀ c ∈ (call name).toList, isExpressionChar c = true) :
    (d.putNames call names).Reads (items ++ (Tree.leafFragment call names .done).items) := by
  induction names generalizing d items with
  | nil => simpa [Tree.leafFragment] using h
  | cons name names ih =>
    have hname : (Condition.equals name).Quotable := hn name (List.mem_cons_self ..)
    have hfirst := h.putUnder hname (hc name (List.mem_cons_self ..))
    have hrest := ih hfirst (fun n hm => hn n (List.mem_cons_of_mem _ hm))
      fun n hm => hc n (List.mem_cons_of_mem _ hm)
    simpa [Tree.leafFragment, Condition.text] using hrest

theorem putTree {tree : Tree} (h : d.Reads items) (hn : ∀ name ∈ tree.names, '"' ∉ name.toList)
    (hc : ∀ name ∈ tree.names, ∀ c ∈ (call name).toList, isExpressionChar c = true) :
    (d.putTree call tree).Reads (items ++ (tree.fragment call).items) := by
  induction tree generalizing d items with
  | leaf names => exact h.putNames hn hc
  | split f threshold left right ihl ihr =>
    have hguard : (Condition.exceeds f threshold).Quotable := trivial
    have hright := ihr (h.enter hguard) (fun n hm => hn n (List.mem_append_right _ hm))
      fun n hm => hc n (List.mem_append_right _ hm)
    have hleft := ihl hright.leave (fun n hm => hn n (List.mem_append_left _ hm))
      fun n hm => hc n (List.mem_append_left _ hm)
    simpa [Tree.fragment, Tree.fragmentBefore, Condition.text] using hleft

theorem ofText?_eq {fragment : Fragment} (h : d.Reads fragment.items) :
    Fragment.ofText? d.text = some fragment := by
  obtain ⟨tokens, hl, hs⟩ := h
  exact ofText?_of_scans hl.text hs

theorem append_blanks (h : d.Reads items) {blanks : String}
    (hb : AllBlank blanks) : (d.append blanks).Reads items := by
  obtain ⟨tokens, hl, hs⟩ := h
  exact ⟨tokens ++ [], hl.append (.blanks hb), by simpa using hs⟩

end Reads
end Draft
end DispatchTree

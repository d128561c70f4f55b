import DispatchTree.Proofs.Thresholds
import DispatchTree.Tree.Code
/-! Fragments read back from their tokens.
A fragment is flattened to items, the heads and ends of its blocks and its return statements, and
every item is spelled by a clause of tokens.  The reader finds the clauses, their items and the
fragment again, whatever else stands on its stack. -/
namespace DispatchTree
open Token

namespace Condition

def tokens : Condition → List Token
  | exceeds f threshold => [.lexeme f.symbol.toList, .lexeme ['>'], f.boundToken threshold]
  | equals name => [.lexeme ['v', 'i', 'e', 'w'], .lexeme ['=', '='], .string name.toList]

end Condition

namespace Fragment

theorem probeOf?_symbol (f : Feature) : probeOf? f.symbol.toList = some f := by
  cases f <;> decide

theorem conditionOf?_exceeds (f : Feature) (threshold : Nat) :
    conditionOf? f.symbol.toList ['>'] (f.boundToken threshold) =
      some (.exceeds f threshold) := by
  simp [conditionOf?, probeOf?_symbol, f.thresholdOf?_boundToken]

theorem conditionOf?_equals (name : String) :
    conditionOf? ['v', 'i', 'e', 'w'] ['=', '='] (.string name.toList) = some (.equals name) := by
  simp [conditionOf?]

theorem expressionOf?_lexemes (words : List (List Char)) :
    expressionOf? (words.map lexeme) = some (String.ofList words.flatten) := by
  have texts : (words.map lexeme).mapM lexeme? = some words := by
    induction words with
    | nil => rfl
    | cons word words ih => simp [lexeme?, ih]
  simp [expressionOf?, texts]

namespace Item

/-- The clause of tokens that spells an item. -/
inductive Spelled : List Token → Item → Prop
  | opening (condition : Condition) :
    Spelled (.lexeme ['i', 'f'] :: .lexeme ['('] ::
      (condition.tokens ++ [.lexeme [')'], .lexeme ['{']])) (.opening condition)
  | ret (words : List (List Char)) (h : ∀ c ∈ words.flatten, isExpressionChar c = true) :
    Spelled (.lexeme ['r', 'e', 't', 'u', 'r', 'n'] :: (words.map lexeme ++ [.lexeme [';']]))
      (.ret (String.ofList words.flatten))
  | closing : Spelled [.lexeme ['}']] .closing

theorem Spelled.ofClause?_eq {clause : List Token} {item : Item} (h : Spelled clause item) :
    ofClause? clause = some item := by
  cases h with
  | opening condition =>
    cases condition with
    | exceeds f threshold =>
      have hc := conditionOf?_exceeds f threshold
      simp [Condition.tokens, ofClause?, hc]
    | equals name =>
      have hc := conditionOf?_equals name
      simp [Condition.tokens, ofClause?, hc]
  | ret words _ => simp [ofClause?, expressionOf?_lexemes]
  | closing => rfl

theorem isDelimiter_lexeme {word : List Char} (h : ∀ c ∈ word, isExpressionChar c = true) :
    (lexeme word).isDelimiter = false := by
  have chars : word.all isExpressionChar = true := List.all_eq_true.mpr h
  apply Bool.eq_false_iff.mpr
  intro hd
  simp only [isDelimiter, Bool.or_eq_true, decide_eq_true_eq, lexeme.injEq] at hd
  rcases hd with (rfl | rfl) | rfl <;> revert chars <;> decide

theorem isDelimiter_boundToken (f : Feature) (threshold : Nat) :
    (f.boundToken threshold).isDelimiter = false := by
  by_cases hf : f.readsChar = true
  · rw [Feature.boundToken, if_pos hf]
    rfl
  · rw [Feature.boundToken, if_neg hf]
    apply isDelimiter_lexeme
    intro c hc
    exact isExpressionChar_of_isIdentifierRest (Text.isIdentifierRest_of_mem_toDigits hc)

theorem Spelled.delimited {clause : List Token} {item : Item} (h : Spelled clause item) :
    ∃ front last, clause = front ++ [last] ∧ last.isDelimiter = true ∧
      ∀ token ∈ front, token.isDelimiter = false := by
  cases h with
  | opening condition =>
    refine ⟨.lexeme ['i', 'f'] :: .lexeme ['('] :: (condition.tokens ++ [.lexeme [')']]),
      .lexeme ['{'], by simp, by decide, ?_⟩
    cases condition with
    | exceeds f threshold =>
      have hf : (lexeme f.symbol.toList).isDelimiter = false := by cases f <;> decide
      simpa [Condition.tokens, hf, isDelimiter_boundToken] using by decide
    | equals name =>
      have hn : (string name.toList).isDelimiter = false := by simp [isDelimiter]
      simpa [Condition.tokens, hn] using by decide
  | ret words hw =>
    refine ⟨.lexeme ['r', 'e', 't', 'u', 'r', 'n'] :: words.map lexeme, .lexeme [';'], by simp,
      by decide, ?_⟩
    intro token ht
    rcases List.mem_cons.mp ht with rfl | ht
    · decide
    obtain ⟨word, hword, rfl⟩ := List.mem_map.mp ht
    exact isDelimiter_lexeme fun c hc => hw c (List.mem_flatten.mpr ⟨word, hword, hc⟩)
  | closing => exact ⟨[], .lexeme ['}'], rfl, by decide, by simp⟩

end Item
end Fragment

namespace Token

theorem clauses_cons (token : Token) (tokens : List Token) :
    clauses (token :: tokens) = prependToClauses token (clauses tokens) := rfl

theorem clauses_append {front : List Token} {last : Token} (hl : last.isDelimiter = true)
    (hf : ∀ token ∈ front, token.isDelimiter = false) (rest : List Token) :
    clauses (front ++ last :: rest) = (front ++ [last]) :: clauses rest := by
  induction front with
  | nil =>
    rw [List.nil_append, clauses_cons]
    cases clauses rest <;> simp [prependToClauses, hl]
  | cons token front ih =>
    have ht := hf token (List.mem_cons_self ..)
    have hr := ih fun t h => hf t (List.mem_cons_of_mem _ h)
    rw [List.cons_append, clauses_cons, hr]
    simp [prependToClauses, ht]

end Token

namespace Fragment

/-- The tokens spell the items, clause by clause. -/
inductive Spells : List Token → List Item → Prop
  | nil : Spells [] []
  | cons {clause tokens : List Token} {item : Item} {items : List Item} :
    Item.Spelled clause item → Spells tokens items → Spells (clause ++ tokens) (item :: items)

namespace Spells

theorem single {clause : List Token} {item : Item} (h : Item.Spelled clause item) :
    Spells clause [item] := by simpa using cons h nil

theorem append {tokens more : List Token} {items others : List Item} (h : Spells tokens items)
    (hm : Spells more others) : Spells (tokens ++ more) (items ++ others) := by
  induction h with
  | nil => exact hm
  | cons hc _ ih =>
    rw [List.append_assoc]
    exact cons hc ih

theorem read {tokens : List Token} {items : List Item} (h : Spells tokens items) :
    (clauses tokens).mapM Item.ofClause? = some items := by
  induction h with
  | nil => rfl
  | @cons clause tokens item items hc _ ih =>
    have hitem := hc.ofClause?_eq
    obtain ⟨front, last, rfl, hl, hf⟩ := hc.delimited
    rw [List.append_assoc, List.singleton_append, clauses_append hl hf]
    simp [hitem, ih]

end Spells

def items : Fragment → List Item
  | done => []
  | block condition body rest => .opening condition :: (body.items ++ .closing :: rest.items)
  | ret expression rest => .ret expression :: rest.items

@[simp] theorem items_done : done.items = [] := rfl
@[simp] theorem items_block (condition : Condition) (body rest : Fragment) :
    (block condition body rest).items =
      .opening condition :: (body.items ++ .closing :: rest.items) := rfl
@[simp] theorem items_ret (expression : String) (rest : Fragment) :
    (ret expression rest).items = .ret expression :: rest.items := rfl

/-- In front of an empty fragment the items of a fragment build it, whatever lies below. -/
theorem nest_items (fragment : Fragment) (stack : List Fragment) :
    Item.nest fragment.items (some (done :: stack)) = some (fragment :: stack) := by
  induction fragment generalizing stack with
  | done => rfl
  | block condition body rest ihb ihr => simp [ihr, ihb, Item.prepend]
  | ret expression rest ih => simp [ih, Item.prepend]

theorem ofItems?_items (fragment : Fragment) : ofItems? fragment.items = some fragment := by
  simp [ofItems?, nest_items]

theorem ofText?_of_scans {text : String} {tokens : List Token} {fragment : Fragment}
    (h : Scans .between text.toList tokens .between) (hs : Spells tokens fragment.items) :
    ofText? text = some fragment := by
  have ht : Token.ofText? text = some tokens := by simp [Token.ofText?, h.readFrom_eq, finish]
  simp [ofText?, ht, hs.read, ofItems?_items]

end Fragment
end DispatchTree

import Mathlib.Data.List.Basic
import DispatchTree.Proofs.Drafts
import DispatchTree.Proofs.Trimming
/-! Code decoded to its tree.
Generated code reads as the fragment of its tree, whatever the layout, the indent and the blank
margin, and a fragment tells its tree without being told the call form.  So one reader recovers
every tree whose names are identifiers, and no two such trees share their code. -/
namespace DispatchTree
open Text Token Fragment

theorem isExpressionChar_of_mem_call {form : CallForm} {name : String}
    (h : isIdentifier name = true) : ∀ c ∈ (form.call name).toList, isExpressionChar c = true := by
  have hname : ∀ c ∈ name.toList, isExpressionChar c = true := fun c hc =>
    isExpressionChar_of_isIdentifierRest (isIdentifierRest_of_mem h c hc)
  intro c hc
  cases form with
  | direct =>
    have hfront : ∀ c ∈ "builtins::".toList, isExpressionChar c = true := List.all_eq_true.mp rfl
    have hback : ∀ c ∈ "(name)".toList, isExpressionChar c = true := List.all_eq_true.mp rfl
    simp only [CallForm.call, String.toList_append, List.mem_append] at hc
    rcases hc with (hc | hc) | hc
    · exact hfront c hc
    · exact hname c hc
    · exact hback c hc
  | factory =>
    have hback : ∀ c ∈ "_factory()".toList, isExpressionChar c = true := List.all_eq_true.mp rfl
    simp only [CallForm.call, String.toList_append, List.mem_append] at hc
    rcases hc with hc | hc
    · exact hname c hc
    · exact hback c hc

theorem quote_not_mem_of_isIdentifier {name : String} (h : isIdentifier name = true) :
    '"' ∉ name.toList := by
  intro hq
  have := isIdentifierRest_of_mem h _ hq
  revert this
  decide

namespace Tree

theorem items_leafFragment (call : String → String) (names : List String) (rest : Fragment) :
    (leafFragment call names rest).items = (leafFragment call names .done).items ++ rest.items := by
  induction names with
  | nil => simp [leafFragment]
  | cons name names ih => simp [leafFragment, ih]

theorem items_fragmentBefore (call : String → String) (tree : Tree) (rest : Fragment) :
    (tree.fragmentBefore call rest).items = (tree.fragment call).items ++ rest.items := by
  induction tree generalizing rest with
  | leaf names => exact items_leafFragment call names rest
  | split f threshold left right ihl ihr =>
    simp only [fragment, fragmentBefore, items_block]
    rw [ihl rest, ihl .done]
    simp

section Reading

variable {tree : Tree} {form : CallForm} {margin : String}

theorem reads_putTree (hn : ∀ name ∈ tree.names, isIdentifier name = true) (layout : Layout)
    (hm : AllBlank margin) :
    ((Draft.new layout margin).putTree form.call tree).Reads (tree.fragment form.call).items := by
  have hquote : ∀ name ∈ tree.names, '"' ∉ name.toList := fun name hname =>
    quote_not_mem_of_isIdentifier (hn name hname)
  have hcall : ∀ name ∈ tree.names, ∀ c ∈ (form.call name).toList, isExpressionChar c = true :=
    fun name hname => isExpressionChar_of_mem_call (hn name hname)
  simpa using (Draft.Reads.new layout hm).putTree hquote hcall

theorem ofText?_code (hn : ∀ name ∈ tree.names, isIdentifier name = true) (layout : Layout)
    (hm : AllBlank margin) :
    Fragment.ofText? (tree.code form.call layout margin) = some (tree.fragment form.call) :=
  (reads_putTree hn layout hm).ofText?_eq

theorem ofText?_fullCode (hn : ∀ name ∈ tree.names, isIdentifier name = true) (layout : Layout)
    (hm : AllBlank margin) :
    Fragment.ofText? (tree.fullCode form.call layout margin) =
      some (tree.fragmentBefore form.call (.ret "nullptr" .done)) := by
  have hnull : ∀ c ∈ "nullptr".toList, isExpressionChar c = true := List.all_eq_true.mp rfl
  have htree : ((Draft.new layout margin).putTree form.call tree).Reads
      (tree.fragment form.call).items := reads_putTree hn layout hm
  have hitems := items_fragmentBefore form.call tree (.ret "nullptr" .done)
  rw [items_ret, items_done] at hitems
  exact (hitems ▸ htree.put hnull).ofText?_eq

end Reading

theorem eq_of_ofFragment?_leafFragment {call other : String → String} {names : List String}
    {tree : Tree} (h : ofFragment? other (leafFragment call names .done) = some tree) :
    tree = leaf names := by
  induction names generalizing tree with
  | nil =>
    cases h
    rfl
  | cons name names ih =>
    simp only [leafFragment, ofFragment?] at h
    split at h
    · rename_i found heq
      split at h
      · cases h
        cases ih heq
        rfl
      · cases h
    · cases h

/-- Whichever call form the reader expects, it finds no other tree than the one written. -/
theorem eq_of_ofFragment?_fragment {call other : String → String} {tree found : Tree}
    (h : ofFragment? other (tree.fragment call) = some found) : found = tree := by
  induction tree generalizing found with
  | leaf names => exact eq_of_ofFragment?_leafFragment h
  | split f threshold left right ihl ihr =>
    simp only [fragment, fragmentBefore, ofFragment?] at h ihl ihr
    split at h
    · rename_i l r hl hr
      cases h
      rw [ihl hl, ihr hr]
    · cases h

def decode? (text : String) : Option Tree := (ofCode? .direct text).or (ofCode? .factory text)

theorem decode?_of_ofText? {tree : Tree} {form : CallForm} {text : String}
    (h : Fragment.ofText? text = some (tree.fragment form.call)) : decode? text = some tree := by
  have hform : ofCode? form text = some tree := by simp [ofCode?, h]
  have hother : ∀ other found, ofCode? other text = some found → found = tree := by
    intro other found ho
    simp only [ofCode?, h, Option.bind_some] at ho
    exact eq_of_ofFragment?_fragment ho
  unfold decode?
  cases hd : ofCode? .direct text with
  | some found => simp [hother .direct found hd]
  | none =>
    cases form with
    | direct => rw [hform] at hd; cases hd
    | factory => simpa using hform

/-- The text in front of the last statement; none where another statement stands last. -/
def withoutNoMatch? (text : String) : Option String :=
  (noMatch.toList.isSuffixOf? (trimEnd text.toList)).map String.ofList

theorem trimEnd_append_noMatch (text : List Char) :
    trimEnd (text ++ noMatch.toList) = text ++ noMatch.toList := by
  have hlast : noMatch.toList.reverse = ';' :: "return nullptr".toList.reverse := by decide
  have hblank : isBlank ';' = false := by decide
  have hdrop : (text ++ noMatch.toList).reverse.dropWhile isBlank =
      (text ++ noMatch.toList).reverse := by
    rw [List.reverse_append, hlast, List.cons_append, List.dropWhile_cons, hblank]
    rfl
  rw [trimEnd, hdrop, List.reverse_reverse]

theorem withoutNoMatch?_eq {text front : String} {blanks : List Char}
    (h : text.toList = front.toList ++ noMatch.toList ++ blanks)
    (hb : ∀ c ∈ blanks, isBlank c = true) : withoutNoMatch? text = some front := by
  have hs : noMatch.toList.isSuffixOf? (front.toList ++ noMatch.toList) = some front.toList := by
    rw [List.isSuffixOf?_eq_some_iff_append_eq]
  rw [withoutNoMatch?, h, trimEnd_append_blanks hb, trimEnd_append_noMatch, hs]
  simp

def decodeFull? (text : String) : Option Tree := (withoutNoMatch? text).bind decode?

theorem withoutNoMatch?_put {d : Draft} (hm : AllBlank d.margin) :
    ∃ blanks, AllBlank blanks ∧
      withoutNoMatch? (d.put noMatch).text = some (d.append blanks).text := by
  unfold Draft.put
  split
  · have htext : (d.append noMatch).text.toList =
        (d.append "").text.toList ++ noMatch.toList ++ [] := by simp
    exact ⟨"", by decide, withoutNoMatch?_eq htext (by simp)⟩
  · rename_i indent _
    have htext : (d.putLine indent noMatch).text.toList =
        (d.append (d.margin ++ spaces (d.level * indent))).text.toList ++ noMatch.toList ++
          ['\n'] := by simp
    have hend : ∀ c ∈ ['\n'], isBlank c = true := by simp [isBlank_newline]
    refine ⟨d.margin ++ spaces (d.level * indent), ?_, withoutNoMatch?_eq htext hend⟩
    intro c hc
    rcases List.mem_append.mp (String.toList_append ▸ hc) with hc | hc
    · exact hm c hc
    · rw [toList_spaces] at hc
      exact List.eq_of_mem_replicate hc ▸ isBlank_space

section Reading

variable {tree : Tree} {form : CallForm} {margin : String}

theorem decode?_code_eq (hn : ∀ name ∈ tree.names, isIdentifier name = true) (layout : Layout)
    (hm : AllBlank margin) : decode? (tree.code form.call layout margin) = some tree :=
  decode?_of_ofText? (ofText?_code hn layout hm)

theorem decodeFull?_fullCode_eq (hn : ∀ name ∈ tree.names, isIdentifier name = true)
    (layout : Layout) (hm : AllBlank margin) :
    decodeFull? (tree.fullCode form.call layout margin) = some tree := by
  have htree : ((Draft.new layout margin).putTree form.call tree).Reads
      (tree.fragment form.call).items := reads_putTree hn layout hm
  obtain ⟨tokens, hl, _⟩ := id htree
  obtain ⟨blanks, hb, hw⟩ := withoutNoMatch?_put hl.margin
  rw [decodeFull?, fullCode, hw, Option.bind_some]
  exact decode?_of_ofText? (htree.append_blanks hb).ofText?_eq

end Reading

/-- Code tells its tree: in either call form and layout, behind every blank margin, with or without
the last statement, it decodes to the tree that was written, so that other trees have other code. -/
theorem decode?_code {tree : Tree} (hn : ∀ name ∈ tree.names, isIdentifier name = true)
    (form : CallForm) (layout : Layout) {margin : String} (hm : AllBlank margin) :
    decode? (tree.code form.call layout margin) = some tree ∧
      decodeFull? (tree.fullCode form.call layout margin) = some tree ∧
      ∀ (other : Tree) (form' : CallForm) (layout' : Layout) (margin' : String),
        (∀ name ∈ other.names, isIdentifier name = true) → AllBlank margin' →
        (other.code form'.call layout' margin' = tree.code form.call layout margin ∨
          other.fullCode form'.call layout' margin' = tree.fullCode form.call layout margin) →
        other = tree := by
  have hcode : decode? (tree.code form.call layout margin) = some tree :=
    decode?_code_eq hn layout hm
  have hfull : decodeFull? (tree.fullCode form.call layout margin) = some tree :=
    decodeFull?_fullCode_eq hn layout hm
  refine ⟨hcode, hfull, ?_⟩
  rintro other form' layout' margin' hn' hm' (h | h)
  · have hother : decode? (other.code form'.call layout' margin') = some other :=
      decode?_code_eq hn' layout' hm'
    rw [h, hcode] at hother
    exact (Option.some.inj hother).symm
  · have hother : decodeFull? (other.fullCode form'.call layout' margin') = some other :=
      decodeFull?_fullCode_eq hn' layout' hm'
    rw [h, hfull] at hother
    exact (Option.some.inj hother).symm

/-- A tree with an empty leaf, a repeated name, and thresholds that are a quote, a surrogate, a
number above all characters and the largest length. -/
def unusual : Tree :=
  split .firstChar 39 (split .lastChar 55296 (leaf []) (leaf ["_a", "_a"]))
    (split .lastChar 1114112 (leaf ["x9"]) (split .length Feature.maxLength (leaf []) (leaf ["y"])))

theorem decode?_code_unusual :
    (∀ name ∈ unusual.names, isIdentifier name = true) ∧ AllBlank " \t" ∧
      decode? (unusual.code CallForm.direct.call (.pretty 3) " \t") = some unusual ∧
      decodeFull? (unusual.fullCode CallForm.direct.call (.pretty 3) " \t") = some unusual :=
  have h := decode?_code (by decide) .direct (.pretty 3) (by decide)
  ⟨by decide, by decide, h.1, h.2.1⟩

end Tree
end DispatchTree

import DispatchTree.Outline
import DispatchTree.Proofs.Clauses
import DispatchTree.Proofs.CodeLines
import DispatchTree.Proofs.SearchOrder
import DispatchTree.Tree.Leaves
/-! Outlines read back.
An outline is a list of lines with their levels, and each line can be read by itself: the names of a
leaf, or one side of a split.  The levels alone say where the outline of a subtree ends, so the
lines put together again give the tree. -/
namespace DispatchTree
open Text

def indented (level : Nat) (line : Line) : Line := List.replicate (2 * level) ' ' ++ line

theorem indented_indented (level more : Nat) (line : Line) :
    indented level (indented more line) = indented (level + more) line := by
  rw [indented, indented, indented, ← List.append_assoc, List.replicate_append_replicate,
    Nat.mul_add]

theorem mapM_map_eq_some {α β : Type} {write : α → β} {read : β → Option α} {items : List α}
    (h : ∀ item ∈ items, read (write item) = some item) :
    (items.map write).mapM read = some items := by
  induction items with
  | nil => rfl
  | cons item items ih =>
    have hitem := h item (List.mem_cons_self ..)
    have hitems := ih fun other ho => h other (List.mem_cons_of_mem _ ho)
    simp [hitem, hitems]

namespace OutlineLine

def text : OutlineLine → List Char
  | names listed => '[' :: ((", ".intercalate listed).toList ++ [']'])
  | lower feature threshold => (feature.atMost threshold).toList
  | upper feature threshold => (feature.above threshold).toList

def HoldsIdentifiers : OutlineLine → Prop
  | names listed => ∀ name ∈ listed, isIdentifier name = true
  | lower .. | upper .. => True

theorem boundOf?_bound (f : Feature) (threshold : Nat) :
    boundOf? f (f.bound threshold).toList = some threshold := by
  unfold boundOf? Feature.bound
  cases f.readsChar with
  | true =>
    rw [if_pos rfl, if_pos rfl, toList_charLiteral]
    simp [readCharContent_charContent]
  | false => simp [readDecimal_toDigits]

theorem toList_atMost (f : Feature) (threshold : Nat) : (f.atMost threshold).toList =
    f.symbol.toList ++ ' ' :: '<' :: '=' :: ' ' :: (f.bound threshold).toList := by
  simp [Feature.atMost]

theorem toList_above (f : Feature) (threshold : Nat) : (f.above threshold).toList =
    f.symbol.toList ++ ' ' :: '>' :: ' ' :: (f.bound threshold).toList := by
  simp [Feature.above]

theorem takeWhile_symbol (f : Feature) (rest : List Char) :
    (f.symbol.toList ++ ' ' :: rest).takeWhile (· ≠ ' ') = f.symbol.toList := by
  have hword : ∀ c ∈ f.symbol.toList, decide (c ≠ ' ') = true :=
    List.all_eq_true.mp (by cases f <;> rfl)
  rw [List.takeWhile_append_of_pos hword]
  simp

theorem conditionOf?_atMost (f : Feature) (threshold : Nat) :
    conditionOf? (f.atMost threshold).toList = some (lower f threshold) := by
  rw [toList_atMost, conditionOf?]
  simp only [takeWhile_symbol, Fragment.probeOf?_symbol, Option.bind_some, List.drop_left,
    boundOf?_bound, Option.map_some]

theorem conditionOf?_above (f : Feature) (threshold : Nat) :
    conditionOf? (f.above threshold).toList = some (upper f threshold) := by
  rw [toList_above, conditionOf?]
  simp only [takeWhile_symbol, Fragment.probeOf?_symbol, Option.bind_some, List.drop_left,
    boundOf?_bound, Option.map_some]

theorem intercalate_cons_char (separator : List Char) (c : Char) (word : List Char)
    (rest : List (List Char)) :
    separator.intercalate ((c :: word) :: rest) = c :: separator.intercalate (word :: rest) := by
  cases rest with
  | nil => simp
  | cons second rest => simp [List.intercalate_cons_cons]

theorem intercalate_comma_space (first : List Char) (rest : List (List Char)) :
    [',', ' '].intercalate (first :: rest) =
      [','].intercalate (first :: rest.map (' ' :: ·)) := by
  induction rest generalizing first with
  | nil => simp
  | cons second rest ih =>
    rw [List.map_cons, List.intercalate_cons_cons, List.intercalate_cons_cons, ih,
      intercalate_cons_char]
    simp

theorem comma_not_mem_of_isIdentifier {name : String} (h : isIdentifier name = true) :
    ',' ∉ name.toList := by
  intro hm
  have hc := isIdentifierRest_of_mem h _ hm
  revert hc
  decide

theorem splitOn_names {first : String} {rest : List String}
    (h : ∀ name ∈ first :: rest, isIdentifier name = true) :
    (", ".intercalate (first :: rest)).toList.splitOn ',' =
      first.toList :: rest.map (' ' :: ·.toList) := by
  have hcomma : ", ".toList = [',', ' '] := rfl
  have hwords : ∀ word ∈ first.toList :: rest.map (' ' :: ·.toList), ',' ∉ word := by
    intro word hw
    rcases List.mem_cons.mp hw with rfl | hw
    · exact comma_not_mem_of_isIdentifier (h first (List.mem_cons_self ..))
    · obtain ⟨name, hn, rfl⟩ := List.mem_map.mp hw
      have hname := comma_not_mem_of_isIdentifier (h name (List.mem_cons_of_mem _ hn))
      simpa using hname
  rw [String.toList_intercalate, hcomma, List.map_cons, intercalate_comma_space, List.map_map]
  exact List.splitOn_intercalate ',' hwords (List.cons_ne_nil _ _)

theorem namesOf?_intercalate {listed : List String}
    (h : ∀ name ∈ listed, isIdentifier name = true) :
    namesOf? (", ".intercalate listed).toList = some listed := by
  cases listed with
  | nil => rfl
  | cons first rest =>
    have hne : (", ".intercalate (first :: rest)).toList ≠ [] := by
      intro hnil
      have hsplit := splitOn_names h
      rw [hnil, List.splitOn_nil, List.cons.injEq] at hsplit
      obtain ⟨_, _, hfirst, _⟩ := isIdentifier_iff.mp (h first (List.mem_cons_self ..))
      rw [← hsplit.1] at hfirst
      cases hfirst
    rw [namesOf?, if_neg hne, splitOn_names h]
    simp only
    rw [mapM_map_eq_some fun name _ => by simp]
    simp

theorem exists_symbol_eq_cons (f : Feature) :
    ∃ c rest, f.symbol.toList = c :: rest ∧ c ≠ '[' ∧ c ≠ ' ' := by
  cases f <;> exact ⟨_, _, rfl, by decide, by decide⟩

theorem ofText?_symbol (f : Feature) (rest : List Char) :
    ofText? (f.symbol.toList ++ rest) = conditionOf? (f.symbol.toList ++ rest) := by
  obtain ⟨c, word, hsymbol, hc, _⟩ := exists_symbol_eq_cons f
  rw [hsymbol, List.cons_append]
  unfold ofText?
  split
  · rename_i heq
    cases heq
    exact absurd rfl hc
  · rfl

theorem ofText?_text {line : OutlineLine} (h : line.HoldsIdentifiers) :
    ofText? line.text = some line := by
  cases line with
  | names listed =>
    rw [text, ofText?, List.getLast?_concat, if_pos rfl, List.dropLast_concat,
      namesOf?_intercalate h, Option.map_some]
  | lower f threshold =>
    rw [text, toList_atMost, ofText?_symbol, ← toList_atMost, conditionOf?_atMost]
  | upper f threshold =>
    rw [text, toList_above, ofText?_symbol, ← toList_above, conditionOf?_above]

/-- A line as it stands in an outline, some levels deep. -/
def fullText (level : Nat) (line : OutlineLine) : Line := indented level (line.text ++ ['\n'])

theorem fullText_add (level more : Nat) (line : OutlineLine) :
    line.fullText (level + more) = indented more (line.fullText level) := by
  rw [fullText, fullText, indented_indented, Nat.add_comm]

theorem exists_text_eq_cons (line : OutlineLine) :
    ∃ c rest, line.text = c :: rest ∧ c ≠ ' ' := by
  cases line with
  | names listed => exact ⟨'[', _, rfl, by decide⟩
  | lower f threshold =>
    obtain ⟨c, word, hsymbol, _, hc⟩ := exists_symbol_eq_cons f
    exact ⟨c, _, by rw [text, toList_atMost, hsymbol, List.cons_append], hc⟩
  | upper f threshold =>
    obtain ⟨c, word, hsymbol, _, hc⟩ := exists_symbol_eq_cons f
    exact ⟨c, _, by rw [text, toList_above, hsymbol, List.cons_append], hc⟩

theorem isPrintable_intercalate {separator : List Char} {words : List (List Char)}
    (hs : IsPrintable separator) (h : ∀ word ∈ words, IsPrintable word) :
    IsPrintable (separator.intercalate words) := by
  induction words with
  | nil => simp [IsPrintable]
  | cons word words ih =>
    have hword := h word (List.mem_cons_self ..)
    have hwords := ih fun other ho => h other (List.mem_cons_of_mem _ ho)
    cases words with
    | nil => rwa [List.intercalate_singleton]
    | cons second words =>
      rw [List.intercalate_cons_cons]
      exact (hword.append hs).append hwords

theorem isPrintable_text {line : OutlineLine} (h : line.HoldsIdentifiers) :
    IsPrintable line.text := by
  cases line with
  | names listed =>
    have hopen : IsPrintable ['['] := by decide
    have hclose : IsPrintable [']'] := by decide
    have hcomma : IsPrintable ", ".toList := by decide
    have hnames : IsPrintable (", ".intercalate listed).toList := by
      rw [String.toList_intercalate]
      refine isPrintable_intercalate hcomma (List.forall_mem_map.mpr fun name hn => ?_)
      exact isPrintable_of_isIdentifier (h name hn)
    exact hopen.append (hnames.append hclose)
  | lower f threshold =>
    have hsymbol : IsPrintable (f.symbol ++ " <= ").toList := by cases f <;> decide
    have hall := hsymbol.append (f.isPrintable_bound threshold)
    rwa [← String.toList_append] at hall
  | upper f threshold => exact f.isPrintable_above threshold

theorem dropWhile_fullText (level : Nat) (line : OutlineLine) :
    (line.fullText level).dropWhile (· = ' ') = line.text ++ ['\n'] := by
  obtain ⟨c, rest, htext, hc⟩ := line.exists_text_eq_cons
  rw [fullText, indented, htext]
  simp [hc]

theorem ofLine?_fullText (level : Nat) {line : OutlineLine} (h : line.HoldsIdentifiers) :
    ofLine? (line.fullText level) = some (level, line) := by
  have hindent : (line.fullText level).length - (line.text ++ ['\n']).length = 2 * level := by
    simp [fullText, indented]
  have hterminated : isTerminated (line.fullText level) = true := by
    rw [fullText, indented, ← List.append_assoc]
    exact isTerminated_append_newline _
  have hcontent : content (line.text ++ ['\n']) = line.text := by
    have hreturn : line.text.getLast? ≠ some '\r' := fun hlast =>
      (isPrintable_text h).return_not_mem (List.mem_of_getLast? hlast)
    rw [content_append_newline, if_neg hreturn]
  have heven : 2 * level % 2 = 0 := Nat.mul_mod_right 2 level
  have hlevel : 2 * level / 2 = level := Nat.mul_div_cancel_left level Nat.two_pos
  rw [ofLine?]
  simp only [dropWhile_fullText, hindent]
  rw [if_pos ⟨hterminated, heven⟩, hcontent, ofText?_text h, hlevel, Option.map_some]

theorem isFull_fullText (level : Nat) {line : OutlineLine} (h : line.HoldsIdentifiers) :
    IsFull (line.fullText level) := by
  refine ⟨List.replicate (2 * level) ' ' ++ line.text, ?_, (List.append_assoc ..).symm⟩
  intro hm
  rcases List.mem_append.mp hm with hm | hm
  · exact absurd (List.eq_of_mem_replicate hm) (by decide)
  · exact (isPrintable_text h).newline_not_mem hm

end OutlineLine

namespace Tree

/-- The lines of the outline of a tree that lies so many levels deep, with their levels. -/
def outlineEntries (level : Nat) : Tree → List (Nat × OutlineLine)
  | leaf names => [(level, .names names)]
  | split feature threshold left right =>
    (level, .lower feature threshold) :: left.outlineEntries (level + 1) ++
      (level, .upper feature threshold) :: right.outlineEntries (level + 1)

theorem holdsIdentifiers_of_mem_outlineEntries {tree : Tree}
    (h : ∀ name ∈ tree.names, isIdentifier name = true) {level : Nat}
    {entry : Nat × OutlineLine} (he : entry ∈ tree.outlineEntries level) :
    entry.2.HoldsIdentifiers := by
  induction tree generalizing level with
  | leaf names =>
    rw [List.mem_singleton.mp he]
    exact h
  | split f t left right ihl ihr =>
    rw [outlineEntries, List.mem_append, List.mem_cons, List.mem_cons] at he
    rcases he with (rfl | he) | rfl | he
    · trivial
    · exact ihl (fun name hn => h name (List.mem_append_left _ hn)) he
    · trivial
    · exact ihr (fun name hn => h name (List.mem_append_right _ hn)) he

theorem toList_of_mem_outlineLines (level : Nat) (tree : Tree) :
    (tree.outlineLines level).map (fun line => (line ++ "\n").toList) =
      (tree.outlineEntries level).map fun entry => entry.2.fullText entry.1 := by
  induction tree generalizing level with
  | leaf names =>
    simp [outlineLines, outlineEntries, OutlineLine.fullText, indented, OutlineLine.text]
  | split f t left right ihl ihr =>
    rw [outlineLines, outlineEntries, List.map_append, List.map_append, List.map_cons,
      List.map_cons, List.map_cons, List.map_cons, ihl, ihr]
    simp [OutlineLine.fullText, indented, OutlineLine.text]

/-- The levels of the lines say how they belong together. -/
theorem assemble_outlineEntries (tree : Tree) (level : Nat) (parts : List OutlinePart) :
    OutlineLine.assemble (tree.outlineEntries level) (some parts) =
      some (.tree level tree :: parts) := by
  induction tree generalizing level parts with
  | leaf names => rfl
  | split f t left right ihl ihr =>
    simp [outlineEntries, ihl, ihr, OutlineLine.prepend]

/-- The subtrees with the levels that they lie below the root, which is at a certain level. -/
def placed (level : Nat) : Tree → List (Nat × Tree)
  | leaf names => [(level, leaf names)]
  | split feature threshold left right => (level, split feature threshold left right) ::
    (left.placed (level + 1) ++ right.placed (level + 1))

theorem map_snd_placed (level : Nat) (tree : Tree) :
    (tree.placed level).map Prod.snd = tree.subtrees := by
  induction tree generalizing level with
  | leaf names => rfl
  | split f t left right ihl ihr => simp [placed, ihl, ihr]

/-- The outline of a subtree is a block of the outline of the tree. -/
theorem exists_outlineEntries_eq_append {tree sub : Tree} {level depth : Nat}
    (h : (depth, sub) ∈ tree.placed level) : ∃ before after,
      tree.outlineEntries level = before ++ sub.outlineEntries depth ++ after := by
  induction tree generalizing level with
  | leaf names =>
    cases List.mem_singleton.mp h
    exact ⟨[], [], by simp⟩
  | split f t left right ihl ihr =>
    rw [placed, List.mem_cons, List.mem_append] at h
    rcases h with h | h | h
    · cases h
      exact ⟨[], [], by simp⟩
    · obtain ⟨before, after, heq⟩ := ihl h
      refine ⟨(level, .lower f t) :: before,
        after ++ (level, .upper f t) :: right.outlineEntries (level + 1), ?_⟩
      rw [outlineEntries, heq]
      simp
    · obtain ⟨before, after, heq⟩ := ihr h
      refine ⟨(level, .lower f t) :: left.outlineEntries (level + 1) ++
        (level, .upper f t) :: before, after, ?_⟩
      rw [outlineEntries, heq]
      simp

theorem outlineEntries_add (tree : Tree) (level more : Nat) : tree.outlineEntries (level + more) =
    (tree.outlineEntries level).map fun entry => (entry.1 + more, entry.2) := by
  induction tree generalizing level with
  | leaf names => rfl
  | split f t left right ihl ihr =>
    have hnext : level + more + 1 = level + 1 + more := Nat.add_right_comm level more 1
    rw [outlineEntries, outlineEntries, hnext, ihl, ihr]
    simp

theorem length_outlineEntries (tree : Tree) (level : Nat) :
    (tree.outlineEntries level).length = 2 * tree.numSplits + tree.leafLists.length := by
  induction tree generalizing level with
  | leaf names => rfl
  | split f t left right ihl ihr =>
    rw [outlineEntries, List.length_append, List.length_cons, List.length_cons, ihl, ihr,
      numSplits_split, leafLists_split, List.length_append]
    omega

section Reading

variable {tree : Tree}

theorem lines_outline (h : ∀ name ∈ tree.names, isIdentifier name = true) :
    lines tree.outline.toList =
      (tree.outlineEntries 0).map fun entry => entry.2.fullText entry.1 := by
  have hfull : ∀ line ∈ (tree.outlineEntries 0).map (fun entry => entry.2.fullText entry.1),
      IsFull line :=
    List.forall_mem_map.mpr fun entry he =>
      entry.2.isFull_fullText entry.1 (holdsIdentifiers_of_mem_outlineEntries h he)
  have htext : tree.outline.toList =
      ((tree.outlineEntries 0).map fun entry => entry.2.fullText entry.1).flatten := by
    rw [← toList_of_mem_outlineLines, outline, String.toList_join, List.flatMap_def, List.map_map]
    rfl
  rw [htext, lines_flatten hfull]

theorem ofOutline?_outline (h : ∀ name ∈ tree.names, isIdentifier name = true) :
    ofOutline? tree.outline = some tree := by
  have hread : (lines tree.outline.toList).mapM OutlineLine.ofLine? =
      some (tree.outlineEntries 0) := by
    rw [lines_outline h]
    exact mapM_map_eq_some fun entry he =>
      OutlineLine.ofLine?_fullText entry.1 (holdsIdentifiers_of_mem_outlineEntries h he)
  rw [ofOutline?, hread]
  simp only [assemble_outlineEntries]

theorem map_fullText_outlineEntries (h : ∀ name ∈ tree.names, isIdentifier name = true)
    (depth : Nat) : ((tree.outlineEntries depth).map fun entry => entry.2.fullText entry.1) =
      (lines tree.outline.toList).map (indented depth) := by
  have hadd := outlineEntries_add tree 0 depth
  rw [Nat.zero_add] at hadd
  rw [hadd, lines_outline h, List.map_map, List.map_map]
  exact List.map_congr_left fun entry _ => OutlineLine.fullText_add entry.1 depth entry.2

end Reading

/-- An outline tells its tree.  Each split of the tree has two lines, which stand equally deep and
name the same threshold, and behind each of them comes the outline of one side, a level deeper; each
leaf has one line, and there are no others. -/
theorem outline_lossless {tree : Tree} (h : ∀ name ∈ tree.names, isIdentifier name = true) :
    ofOutline? tree.outline = some tree ∧
      (lines tree.outline.toList).length = 2 * tree.numSplits + tree.leaves.length ∧
      ∀ depth f t l r, (depth, split f t l r) ∈ tree.placed 0 → ∃ before after,
        lines tree.outline.toList = before ++
          (indented depth (f.symbol ++ " <= " ++ f.bound t ++ "\n").toList ::
              (lines l.outline.toList).map (indented (depth + 1)) ++
            indented depth (f.symbol ++ " > " ++ f.bound t ++ "\n").toList ::
              (lines r.outline.toList).map (indented (depth + 1))) ++ after := by
  refine ⟨ofOutline?_outline h, ?_, ?_⟩
  · rw [lines_outline h, List.length_map, length_outlineEntries, leaves_eq_leafLists]
  · intro depth f t l r hsplit
    have hmem : split f t l r ∈ tree.subtrees :=
      map_snd_placed 0 tree ▸ List.mem_map_of_mem (f := Prod.snd) hsplit
    have hl : ∀ name ∈ l.names, isIdentifier name = true := fun name hn =>
      h name ((sublist_names_of_mem_subtrees hmem).subset (List.mem_append_left _ hn))
    have hr : ∀ name ∈ r.names, isIdentifier name = true := fun name hn =>
      h name ((sublist_names_of_mem_subtrees hmem).subset (List.mem_append_right _ hn))
    obtain ⟨before, after, heq⟩ := exists_outlineEntries_eq_append hsplit
    refine ⟨before.map fun entry => entry.2.fullText entry.1,
      after.map fun entry => entry.2.fullText entry.1, ?_⟩
    rw [lines_outline h, heq, List.map_append, List.map_append, outlineEntries, List.map_append,
      List.map_cons, List.map_cons, map_fullText_outlineEntries hl,
      map_fullText_outlineEntries hr]
    simp [OutlineLine.fullText, OutlineLine.text, Feature.atMost, Feature.above]

/-- A tree with empty leaves, and thresholds that are a space, a backslash, a line feed and a number
above all characters. -/
def awkward : Tree :=
  split .firstChar 32 (split .lastChar 92 (leaf []) (leaf ["a", "b_1"]))
    (split .lastChar 10 (leaf ["x"]) (split .firstChar 1114112 (leaf []) (leaf [])))

/-- The outline reads back, and the left side of the root stands in it two spaces deep. -/
theorem outline_lossless_awkward :
    (∀ name ∈ awkward.names, isIdentifier name = true) ∧ ofOutline? awkward.outline = some awkward ∧
      ∃ before after, lines awkward.outline.toList = before ++
        ["  last_char <= '\\\\'\n".toList, "    []\n".toList, "  last_char > '\\\\'\n".toList,
          "    [a, b_1]\n".toList] ++ after := by
  have hnames : ∀ name ∈ awkward.names, isIdentifier name = true := by decide
  obtain ⟨hread, _, hsplits⟩ := outline_lossless hnames
  obtain ⟨before, after, hblock⟩ :=
    hsplits 1 .lastChar 92 (leaf []) (leaf ["a", "b_1"]) (by decide)
  exact ⟨hnames, hread, before, after, hblock⟩

end Tree
end DispatchTree

import DispatchTree.Proofs.Cuts
import DispatchTree.Proofs.Dispatch
import DispatchTree.Proofs.FallThrough
import DispatchTree.Proofs.Shapes
/-! What a lookup costs.
A name that generated code looks up passes exactly the guards on the way to the leaf that holds it,
since the other guards are in blocks that it never enters or behind the return of its leaf.  In the
leaf it is compared with the names in front of it and with itself, and that ends the run. -/
namespace DispatchTree
open Text

theorem countP_isProbe_append {probes comparisons : List Condition}
    (hp : ∀ test ∈ probes, test.isProbe = true)
    (hc : ∀ test ∈ comparisons, test.isProbe = false) :
    (probes ++ comparisons).countP (·.isProbe) = probes.length ∧
      (probes ++ comparisons).countP (!·.isProbe) = comparisons.length := by
  have hall : probes.countP (·.isProbe) = probes.length := List.countP_eq_length.mpr hp
  have hnone : comparisons.countP (·.isProbe) = 0 :=
    List.countP_eq_zero.mpr fun test ht => by simp [hc test ht]
  have hnone' : probes.countP (!·.isProbe) = 0 :=
    List.countP_eq_zero.mpr fun test ht => by simp [hp test ht]
  have hall' : comparisons.countP (!·.isProbe) = comparisons.length :=
    List.countP_eq_length.mpr fun test ht => by simp [hc test ht]
  rw [List.countP_append, List.countP_append, hall, hnone, hnone', hall']
  exact ⟨Nat.add_zero _, Nat.zero_add _⟩

/-- The comparisons with the names of a leaf, up to a certain one. -/
def comparisonsUpTo (name : String) (names : List String) : List Condition :=
  (names.take (names.idxOf name + 1)).map .equals

@[simp] theorem comparisonsUpTo_cons_self (name : String) (names : List String) :
    comparisonsUpTo name (name :: names) = [.equals name] := by
  simp [comparisonsUpTo]

theorem comparisonsUpTo_cons_of_ne {name other : String} (h : other ≠ name)
    (names : List String) :
    comparisonsUpTo name (other :: names) = .equals other :: comparisonsUpTo name names := by
  have hidx : (other :: names).idxOf name = names.idxOf name + 1 := by
    rw [List.idxOf_cons, beq_false_of_ne h, cond_false]
  rw [comparisonsUpTo, hidx, List.take_succ_cons, List.map_cons, comparisonsUpTo]

theorem isProbe_of_mem_comparisonsUpTo {name : String} {names : List String} {test : Condition}
    (h : test ∈ comparisonsUpTo name names) : test.isProbe = false := by
  obtain ⟨other, _, rfl⟩ := List.mem_map.mp h
  rfl

theorem length_comparisonsUpTo {name : String} {names : List String} (h : name ∈ names) :
    (comparisonsUpTo name names).length = names.idxOf name + 1 := by
  have hlt : names.idxOf name < names.length := List.idxOf_lt_length_of_mem h
  rw [comparisonsUpTo, List.length_map, List.length_take, Nat.min_eq_left hlt]

namespace Tree

variable {call : String → String} {c : Candidate} {name : String}

theorem exec_leafFragment (hc : ∀ other, c.isName other = (other == name)) {names : List String}
    (hn : name ∈ names) (rest : Fragment) :
    (leafFragment call names rest).exec c =
      (comparisonsUpTo name names, some (call name)) := by
  induction names with
  | nil => cases hn
  | cons other names ih =>
    by_cases h : other = name
    · subst h
      have hs : c.satisfies (.equals other) = true := by simp [hc]
      rw [leafFragment, Fragment.exec, if_pos hs, comparisonsUpTo_cons_self]
      rfl
    · have hs : ¬ c.satisfies (.equals other) = true := by simp [hc, h]
      have hrest : name ∈ names := (List.mem_cons.mp hn).resolve_left (Ne.symm h)
      rw [leafFragment, Fragment.exec, if_neg hs, ih hrest, comparisonsUpTo_cons_of_ne h]

/-- The run of a name of the tree: the tests on its way, its comparisons, and its call. -/
theorem exec_fragmentBefore {tree : Tree} (ho : tree.Ordered) (hr : tree.Respects c)
    (hc : ∀ other, c.isName other = (other == name)) (hn : name ∈ tree.names) (rest : Fragment) :
    (tree.fragmentBefore call rest).exec c =
      (tree.routeTests c ++ comparisonsUpTo name (tree.route c), some (call name)) := by
  have hself : c.isName name = true := by simp [hc]
  induction tree generalizing rest with
  | leaf names => exact exec_leafFragment hc hn rest
  | split f t left right ihl ihr =>
    rw [fragmentBefore, Fragment.exec, routeTests, route_split]
    cases hs : c.satisfies (.exceeds f t) with
    | true =>
      have hright : name ∈ right.names := mem_right_names ho hr hs hn hself
      simp [ihr ho.2.2.2 hr.right hright]
    | false =>
      have hleft : name ∈ left.names := mem_left_names ho hr hs hn hself
      simp [ihl ho.2.2.1 hr.left hleft]

theorem isProbe_of_mem_routeTests {tree : Tree} {test : Condition} (h : test ∈ tree.routeTests c) :
    test.isProbe = true := by
  induction tree with
  | leaf names => cases h
  | split f t left right ihl ihr =>
    rw [routeTests, List.mem_cons] at h
    rcases h with rfl | h
    · rfl
    · split at h
      · exact ihr h
      · exact ihl h

theorem exists_way_route (c : Candidate) (tree : Tree) :
    ∃ way ∈ tree.ways, way.tests.map Prod.fst = tree.routeTests c ∧ way.names = tree.route c := by
  induction tree with
  | leaf names => exact ⟨⟨[], names⟩, List.mem_singleton.mpr rfl, rfl, rfl⟩
  | split f t left right ihl ihr =>
    rw [ways, routeTests, route_split]
    cases c.satisfies (.exceeds f t) with
    | true =>
      obtain ⟨way, hw, htests, hnames⟩ := ihr
      refine ⟨way.behind (.exceeds f t, true),
        List.mem_append_right _ (List.mem_map_of_mem hw), ?_, hnames⟩
      exact congrArg (List.cons (Condition.exceeds f t)) htests
    | false =>
      obtain ⟨way, hw, htests, hnames⟩ := ihl
      refine ⟨way.behind (.exceeds f t, false),
        List.mem_append_left _ (List.mem_map_of_mem hw), ?_, hnames⟩
      exact congrArg (List.cons (Condition.exceeds f t)) htests

def waysTo (name : String) (tree : Tree) : List Way := tree.ways.filter (name ∈ ·.names)

theorem waysTo_split {f : Feature} {t : Nat} {l r : Tree} :
    (split f t l r).waysTo name = (l.waysTo name).map (Way.behind (.exceeds f t, false)) ++
      (r.waysTo name).map (Way.behind (.exceeds f t, true)) := by
  rw [waysTo, ways, List.filter_append, List.filter_map, List.filter_map]
  rfl

theorem waysTo_eq_nil {tree : Tree} (h : name ∉ tree.names) : tree.waysTo name = [] := by
  have hways : ∀ way ∈ tree.ways, ∀ other ∈ way.names, other ≠ name :=
    forall_mem_names_iff.mp fun other ho heq => h (heq ▸ ho)
  refine List.filter_eq_nil_iff.mpr fun way hw hn => ?_
  exact hways way hw name (of_decide_eq_true hn) rfl

theorem exists_waysTo_eq_singleton {tree : Tree} (ho : tree.Ordered) (hn : name ∈ tree.names) :
    ∃ way, tree.waysTo name = [way] := by
  induction tree with
  | leaf names =>
    exact ⟨⟨[], names⟩, List.filter_eq_self.mpr (List.forall_mem_singleton.mpr (decide_eq_true hn))⟩
  | split f t left right ihl ihr =>
    obtain ⟨hbelow, habove, hleft, hright⟩ := ordered_split.mp ho
    rcases List.mem_append.mp hn with hl | hr
    · have hnot : name ∉ right.names := fun hr =>
        Nat.not_lt.mpr (hbelow name hl) (habove name hr)
      obtain ⟨way, hw⟩ := ihl hleft hl
      exact ⟨_, by rw [waysTo_split, hw, waysTo_eq_nil hnot]; rfl⟩
    · have hnot : name ∉ left.names := fun hl =>
        Nat.not_lt.mpr (hbelow name hl) (habove name hr)
      obtain ⟨way, hw⟩ := ihr hright hr
      exact ⟨_, by rw [waysTo_split, hw, waysTo_eq_nil hnot]; rfl⟩

theorem waysTo_eq_singleton {tree : Tree} (ho : tree.Ordered) {way : Way} (hw : way ∈ tree.ways)
    (hn : name ∈ way.names) : tree.waysTo name = [way] := by
  have hmem : way ∈ tree.waysTo name := List.mem_filter.mpr ⟨hw, decide_eq_true hn⟩
  have hname : name ∈ tree.names := by
    by_contra hnot
    rw [waysTo_eq_nil hnot] at hmem
    cases hmem
  obtain ⟨only, honly⟩ := exists_waysTo_eq_singleton ho hname
  rw [honly] at hmem ⊢
  rw [List.mem_singleton.mp hmem]

end Tree

theorem isName_ofBytes_nameBytes (signed : Bool) (name other : String) :
    (Candidate.ofBytes signed (nameBytes name)).isName other = (other == name) := by
  rw [Bool.eq_iff_iff, isName_ofBytes_iff, nameBytes_inj, beq_iff_eq]

/-- A lookup of a name makes the tests on the only way to a leaf that holds it, then compares it
with the names of that leaf up to itself, and returns its call: at most as many probes as the tree
is high, and at most as many comparisons as its largest leaf has names. -/
theorem exec_code_of_name {α : Type} (scale : Evenness α) {label : String} {names : List String}
    {catalog : Catalog} (h : Catalog.ofNames label names = .ok catalog) {name : String}
    (hn : name ∈ names) (form : CallForm) (layout : Layout) {margin : String}
    (hm : AllBlank margin) (signed : Bool) :
    ∃ fragment way, Fragment.ofText?
        ((Tree.ofCatalogWith scale catalog).fullCode form.call layout margin) = some fragment ∧
      (Tree.ofCatalogWith scale catalog).waysTo name = [way] ∧
      fragment.exec (.ofBytes signed (nameBytes name)) =
        (way.tests.map Prod.fst ++ comparisonsUpTo name way.names, some (form.call name)) ∧
      (fragment.tests (.ofBytes signed (nameBytes name))).countP (·.isProbe) = way.tests.length ∧
      way.tests.length ≤ (Shape.ofTree (Tree.ofCatalogWith scale catalog)).height ∧
      (fragment.tests (.ofBytes signed (nameBytes name))).countP (!·.isProbe) =
        way.names.idxOf name + 1 ∧
      way.names.idxOf name + 1 ≤ (Shape.ofTree (Tree.ofCatalogWith scale catalog)).largest := by
  obtain rfl : catalog.names = names := Catalog.eq_of_ofNames h
  have hmem : name ∈ (Tree.ofCatalogWith scale catalog).names := Tree.mem_names_grow.mpr hn
  have hid : ∀ other ∈ (Tree.ofCatalogWith scale catalog).names, isIdentifier other = true :=
    fun other ho => catalog.identifiers other (Tree.mem_names_grow.mp ho)
  have hr : (Tree.ofCatalogWith scale catalog).Respects (.ofBytes signed (nameBytes name)) :=
    Tree.respects_ofBytes (fun other ho => isAscii_of_isIdentifier (catalog.identifiers other ho))
      signed (nameBytes name)
  have ho : (Tree.ofCatalogWith scale catalog).Ordered := Tree.ordered_grow catalog.names
  have hc := isName_ofBytes_nameBytes signed name
  have hroute :
      name ∈ (Tree.ofCatalogWith scale catalog).route (.ofBytes signed (nameBytes name)) :=
    Tree.mem_route ho hr hmem (by simp [hc])
  obtain ⟨way, hw, htests, hnames⟩ := Tree.exists_way_route
    (.ofBytes signed (nameBytes name)) (Tree.ofCatalogWith scale catalog)
  have hleaf : way.names ∈ (Tree.ofCatalogWith scale catalog).leaves := by
    rw [hnames, Tree.leaves_eq_leafLists]
    exact Tree.route_mem_leafLists _ _
  rw [← hnames] at hroute
  have hexec : ((Tree.ofCatalogWith scale catalog).fragmentBefore form.call
      (.ret "nullptr" .done)).exec (.ofBytes signed (nameBytes name)) =
        (way.tests.map Prod.fst ++ comparisonsUpTo name way.names, some (form.call name)) := by
    rw [htests, hnames]
    exact Tree.exec_fragmentBefore ho hr hc hmem _
  have hprobe : ∀ test ∈ way.tests.map Prod.fst, test.isProbe = true := fun test ht =>
    Tree.isProbe_of_mem_routeTests (htests ▸ ht)
  have hcomparison : ∀ test ∈ comparisonsUpTo name way.names, test.isProbe = false :=
    fun test ht => isProbe_of_mem_comparisonsUpTo ht
  obtain ⟨hprobes, hcomparisons⟩ := countP_isProbe_append hprobe hcomparison
  have hheight : way.tests.length ≤ (Tree.ofCatalogWith scale catalog).height := by
    rw [← List.length_map, htests]
    exact Tree.length_routeTests_le _ _
  refine ⟨_, way, Tree.ofText?_fullCode hid layout hm, Tree.waysTo_eq_singleton ho hw hroute,
    hexec, ?_, hheight, ?_, ?_⟩
  · rw [Fragment.tests, hexec, hprobes, List.length_map]
  · rw [Fragment.tests, hexec, hcomparisons, length_comparisonsUpTo hroute]
  · exact Nat.le_trans (List.idxOf_lt_length_of_mem hroute) (Shape.length_le_largest hleaf)

/-- The second of two names that only their middle tells apart: one probe and two comparisons. -/
theorem exec_code_of_name_twins :
    ∃ catalog fragment, Catalog.ofNames "twins" ["a", "bcd", "bxd"] = .ok catalog ∧
      "bxd" ∈ ["a", "bcd", "bxd"] ∧ AllBlank "\t" ∧ Fragment.ofText?
        ((Tree.ofCatalogWith .smallerSide catalog).fullCode CallForm.factory.call .compact "\t") =
          some fragment ∧
      fragment.exec (.ofBytes true (nameBytes "bxd")) =
        ([.exceeds .length 1, .equals "bcd", .equals "bxd"], some "bxd_factory()") := by
  have hpick : SplitChoice.pick .smallerSide ["a", "bcd", "bxd"] = ⟨.length, 1⟩ := by
    simp (disch := decide) only [SplitChoice.pick, Cut.best_of_pairwise]
    decide
  have htwins : Tree.grow .smallerSide ["bcd", "bxd"] = .leaf ["bcd", "bxd"] := by
    refine Tree.grow_leaf (Or.inr ?_)
    simp (disch := decide) only [SplitChoice.pick, Cut.best_of_pairwise]
    decide
  have htree : Tree.grow .smallerSide ["a", "bcd", "bxd"] =
      .split .length 1 (.leaf ["a"]) (.leaf ["bcd", "bxd"]) :=
    Tree.grow_eq_split_iff.mpr
      ⟨hpick, by decide, by decide, (Tree.grow_singleton "a").symm, htwins.symm⟩
  obtain ⟨catalog, hc⟩ : ∃ catalog, Catalog.ofNames "twins" ["a", "bcd", "bxd"] = .ok catalog :=
    ⟨_, rfl⟩
  have hn : "bxd" ∈ ["a", "bcd", "bxd"] := by decide
  have hm : AllBlank "\t" := by decide
  obtain ⟨fragment, way, hread, hway, hexec, _⟩ :=
    exec_code_of_name .smallerSide hc hn .factory .compact hm true
  have hways : (Tree.ofCatalogWith .smallerSide catalog).waysTo "bxd" =
      [⟨[(.exceeds .length 1, true)], ["bcd", "bxd"]⟩] := by
    rw [Tree.ofCatalogWith, Catalog.eq_of_ofNames hc, htree]
    decide
  rw [hways] at hway
  cases hway
  exact ⟨catalog, fragment, hc, hn, hm, hread, hexec⟩

end DispatchTree

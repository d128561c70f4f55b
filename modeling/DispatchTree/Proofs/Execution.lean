import DispatchTree.Proofs.SearchOrder
import DispatchTree.Tree.Fragment
/-! Running a fragment against routing a candidate.
A fragment has no else, so a candidate that enters a guard and matches nothing there goes on with
the names below the threshold.  In an ordered tree none of those can match it either, and the run
returns what strict routing finds. -/
namespace DispatchTree

theorem Candidate.lt_value_ofName_iff {f : Feature} {threshold : Nat} {name : String} :
    (threshold : Int) < (Candidate.ofName name).value f ↔ threshold < f.value name := Int.ofNat_lt

namespace Tree

variable {call : String → String} {c : Candidate}

/-- The guards of the tree do not tell the candidate from a name of the tree that it is. -/
def Respects (c : Candidate) (tree : Tree) : Prop :=
  ∀ name ∈ tree.names, c.isName name = true → ∀ guard ∈ tree.guards,
    ((guard.2 : Int) < c.value guard.1 ↔ guard.2 < guard.1.value name)

theorem respects_ofName (candidate : String) (tree : Tree) :
    tree.Respects (.ofName candidate) := by
  intro name _ hc guard _
  rw [Candidate.lt_value_ofName_iff, beq_iff_eq.mp hc]

section Split

variable {f : Feature} {t : Nat} {l r : Tree}

theorem Respects.left (h : (split f t l r).Respects c) : l.Respects c :=
  fun name hn hc guard hg => h name (List.mem_append_left _ hn) hc guard
    (List.mem_cons_of_mem _ (List.mem_append_left _ hg))

theorem Respects.right (h : (split f t l r).Respects c) : r.Respects c :=
  fun name hn hc guard hg => h name (List.mem_append_right _ hn) hc guard
    (List.mem_cons_of_mem _ (List.mem_append_right _ hg))

theorem Respects.root (h : (split f t l r).Respects c) {name : String}
    (hn : name ∈ (split f t l r).names) (hc : c.isName name = true) :
    c.satisfies (.exceeds f t) = true ↔ t < f.value name := by
  rw [Candidate.satisfies_exceeds, decide_eq_true_eq]
  exact h name hn hc (f, t) (List.mem_cons_self ..)

theorem isName_left_eq_false (ho : (split f t l r).Ordered) (hr : (split f t l r).Respects c)
    (hs : c.satisfies (.exceeds f t) = true) : ∀ name ∈ l.names, c.isName name = false := by
  intro name hn
  apply Bool.eq_false_iff.mpr
  intro hc
  have hgt := (hr.root (List.mem_append_left _ hn) hc).mp hs
  have hle := ho.1 name hn
  omega

theorem isName_right_eq_false (ho : (split f t l r).Ordered) (hr : (split f t l r).Respects c)
    (hs : c.satisfies (.exceeds f t) = false) : ∀ name ∈ r.names, c.isName name = false := by
  intro name hn
  apply Bool.eq_false_iff.mpr
  intro hc
  have hsat := (hr.root (List.mem_append_right _ hn) hc).mpr (ho.2.1 name hn)
  rw [hs] at hsat
  cases hsat

/-- A name of the tree that the candidate is lies on the side that the candidate is sent to. -/
theorem mem_right_names (ho : (split f t l r).Ordered) (hr : (split f t l r).Respects c)
    (hs : c.satisfies (.exceeds f t) = true) {name : String}
    (hn : name ∈ (split f t l r).names) (hc : c.isName name = true) : name ∈ r.names := by
  rcases List.mem_append.mp hn with hl | hright
  · rw [isName_left_eq_false ho hr hs name hl] at hc
    cases hc
  · exact hright

theorem mem_left_names (ho : (split f t l r).Ordered) (hr : (split f t l r).Respects c)
    (hs : c.satisfies (.exceeds f t) = false) {name : String}
    (hn : name ∈ (split f t l r).names) (hc : c.isName name = true) : name ∈ l.names := by
  rcases List.mem_append.mp hn with hleft | hright
  · exact hleft
  · rw [isName_right_eq_false ho hr hs name hright] at hc
    cases hc

theorem lookup_split : (split f t l r).lookup call c =
    if c.satisfies (.exceeds f t) then r.lookup call c else l.lookup call c := by
  by_cases hs : c.satisfies (.exceeds f t) = true
  · rw [lookup, route_split, if_pos hs, if_pos hs]
    rfl
  · rw [lookup, route_split, if_neg hs, if_neg hs]
    rfl

end Split

theorem mem_route {tree : Tree} {name : String} (ho : tree.Ordered) (hr : tree.Respects c)
    (hn : name ∈ tree.names) (hc : c.isName name = true) : name ∈ tree.route c := by
  induction tree with
  | leaf names => exact hn
  | split f t left right ihl ihr =>
    rw [route_split]
    cases hs : c.satisfies (.exceeds f t) with
    | true => exact ihr ho.2.2.2 hr.right (mem_right_names ho hr hs hn hc)
    | false => exact ihl ho.2.2.1 hr.left (mem_left_names ho hr hs hn hc)

theorem mem_names_of_mem_route {tree : Tree} {name : String} (h : name ∈ tree.route c) :
    name ∈ tree.names := by
  rw [← flatten_leafLists]
  exact List.mem_flatten.mpr ⟨tree.route c, route_mem_leafLists c tree, h⟩

theorem lookup_eq_none {tree : Tree} (h : ∀ name ∈ tree.names, c.isName name = false) :
    tree.lookup call c = none := by
  have hnone : (tree.route c).find? c.isName = none :=
    List.find?_eq_none.mpr fun name hn => by simp [h name (mem_names_of_mem_route hn)]
  rw [lookup, hnone, Option.map_none]

theorem lookup_eq_some {tree : Tree} {name : String} (ho : tree.Ordered) (hr : tree.Respects c)
    (hn : name ∈ tree.names) (hc : c.isName name = true)
    (honly : ∀ other ∈ tree.names, c.isName other = true → other = name) :
    tree.lookup call c = some (call name) := by
  have hsome : ((tree.route c).find? c.isName).isSome = true :=
    List.find?_isSome.mpr ⟨name, mem_route ho hr hn hc, hc⟩
  obtain ⟨found, hf⟩ := Option.isSome_iff_exists.mp hsome
  have hmem : found ∈ tree.names := mem_names_of_mem_route (List.mem_of_find?_eq_some hf)
  rw [lookup, hf, honly found hmem (List.find?_some hf), Option.map_some]

theorem run_leafFragment (names : List String) (rest : Fragment) :
    (leafFragment call names rest).run c =
      ((names.find? c.isName).map call).or (rest.run c) := by
  induction names with
  | nil => rfl
  | cons name names ih =>
    rw [leafFragment, Fragment.run_block, Candidate.satisfies_equals, List.find?_cons, ih]
    cases hc : c.isName name with
    | true => simp
    | false => simp

/-- Leaving out the else changes no result: the run returns what routing finds, or goes on behind
the fragment where it finds nothing. -/
theorem run_fragmentBefore {tree : Tree} (ho : tree.Ordered) (hr : tree.Respects c)
    (rest : Fragment) :
    (tree.fragmentBefore call rest).run c = (tree.lookup call c).or (rest.run c) := by
  induction tree generalizing rest with
  | leaf names => exact run_leafFragment names rest
  | split f t left right ihl ihr =>
    rw [fragmentBefore, Fragment.run_block, ihl ho.2.2.1 hr.left, ihr ho.2.2.2 hr.right,
      lookup_split]
    cases hs : c.satisfies (.exceeds f t) with
    | true =>
      have hleft : left.lookup call c = none := lookup_eq_none (isName_left_eq_false ho hr hs)
      simp [hleft]
    | false => simp

end Tree
end DispatchTree

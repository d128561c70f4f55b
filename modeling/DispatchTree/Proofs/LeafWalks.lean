import DispatchTree.Tree.Leaves
/-! What a walk over leaves gives.
A walk takes its pending subtrees in rounds: a leaf is passed on, a split is replaced by its two
halves.  A round may leave more subtrees pending than there were, but one leaf or split less in
them, and what it passes on together with the leaves behind it are the leaves that were owed before.
So the calls of a walk give the leaves one by one, and then none. -/
namespace DispatchTree.LeafWalk

/-- The next round: the leaf that it passes on, if it meets one, and the walk behind it. -/
def round? : LeafWalk → Option (Option (List String) × LeafWalk)
  | ⟨[]⟩ => none
  | ⟨.leaf names :: rest⟩ => some (some names, ⟨rest⟩)
  | ⟨.split _ _ left right :: rest⟩ => some (none, ⟨left :: right :: rest⟩)

def rounds : Nat → LeafWalk → List (List String) × LeafWalk
  | 0, walk => ([], walk)
  | n + 1, walk =>
    match walk.round? with
    | none => ([], walk)
    | some (found, after) => (found.toList ++ (after.rounds n).1, (after.rounds n).2)

/-- The walk behind several calls, each of which takes the next leaf where there is one. -/
def drop : Nat → LeafWalk → LeafWalk
  | 0, walk => walk
  | n + 1, walk =>
    match walk.next? with
    | none => walk
    | some (_, after) => after.drop n

variable {walk after : LeafWalk} {found : Option (List String)} {names : List String}

theorem round?_eq_none_iff : walk.round? = none ↔ walk.pending = [] := by
  obtain ⟨pending⟩ := walk
  rcases pending with _ | ⟨_ | _, rest⟩ <;> simp [round?]

theorem remaining_eq_zero_iff : walk.remaining = 0 ↔ walk.pending = [] := by
  obtain ⟨pending⟩ := walk
  cases pending with
  | nil => simp [remaining]
  | cons tree rest =>
    have hpos := tree.size_pos
    simp only [remaining, List.foldr_cons, reduceCtorEq, iff_false]
    omega

/-- A round loses no leaf and takes one leaf or split away. -/
theorem round_spec (h : walk.round? = some (found, after)) :
    walk.toList = found.toList ++ after.toList ∧ walk.remaining = after.remaining + 1 := by
  obtain ⟨pending⟩ := walk
  rcases pending with _ | ⟨names | ⟨f, t, left, right⟩, rest⟩
  · cases h
  · cases h
    refine ⟨toList_leaf names rest, ?_⟩
    simp only [remaining, List.foldr_cons, Tree.size_leaf]
    omega
  · cases h
    refine ⟨toList_split f t left right rest, ?_⟩
    simp only [remaining, List.foldr_cons, Tree.size_split]
    omega

@[simp] theorem rounds_zero : walk.rounds 0 = ([], walk) := rfl

theorem rounds_of_round?_eq_none (h : walk.round? = none) (n : Nat) :
    walk.rounds n = ([], walk) := by
  cases n with
  | zero => rfl
  | succ n => rw [rounds, h]

theorem rounds_succ (h : walk.round? = some (found, after)) (n : Nat) :
    walk.rounds (n + 1) = (found.toList ++ (after.rounds n).1, (after.rounds n).2) := by
  rw [rounds, h]

theorem rounds_add (m n : Nat) (walk : LeafWalk) : walk.rounds (m + n) =
    ((walk.rounds m).1 ++ ((walk.rounds m).2.rounds n).1, ((walk.rounds m).2.rounds n).2) := by
  induction m generalizing walk with
  | zero => simp
  | succ m ih =>
    cases h : walk.round? with
    | none => simp [rounds_of_round?_eq_none h]
    | some step => rw [Nat.add_right_comm, rounds_succ h, rounds_succ h, ih, List.append_assoc]

theorem toList_eq_append_rounds (n : Nat) (walk : LeafWalk) :
    walk.toList = (walk.rounds n).1 ++ (walk.rounds n).2.toList := by
  induction n generalizing walk with
  | zero => rfl
  | succ n ih =>
    cases h : walk.round? with
    | none => rw [rounds_of_round?_eq_none h, List.nil_append]
    | some step =>
      rw [rounds_succ h, (round_spec h).1, List.append_assoc]
      exact congrArg _ (ih step.2)

theorem remaining_rounds (n : Nat) (walk : LeafWalk) :
    (walk.rounds n).2.remaining = walk.remaining - n := by
  induction n generalizing walk with
  | zero => rfl
  | succ n ih =>
    cases h : walk.round? with
    | none =>
      have hzero := remaining_eq_zero_iff.mpr (round?_eq_none_iff.mp h)
      rw [rounds_of_round?_eq_none h, hzero, Nat.zero_sub]
    | some step => rw [rounds_succ h, ih, (round_spec h).2, Nat.add_sub_add_right]

/-- Nothing is pending as soon as there were as many rounds as leaves and splits. -/
theorem pending_rounds_eq_nil_iff (n : Nat) (walk : LeafWalk) :
    (walk.rounds n).2.pending = [] ↔ walk.remaining ≤ n := by
  rw [← remaining_eq_zero_iff, remaining_rounds, Nat.sub_eq_zero_iff_le]

theorem exists_rounds_of_next? (h : walk.next? = some (names, after)) :
    ∃ n, walk.rounds n = ([names], after) ∧ walk.remaining = after.remaining + n := by
  fun_induction next? walk with
  | case1 => cases h
  | case2 names rest =>
    cases h
    exact ⟨1, rfl, (round_spec rfl).2⟩
  | case3 f t left right rest ih =>
    obtain ⟨n, hrounds, hremaining⟩ := ih h
    have hround : round? ⟨.split f t left right :: rest⟩ = some (none, ⟨left :: right :: rest⟩) :=
      rfl
    refine ⟨n + 1, ?_, ?_⟩
    · rw [rounds_succ hround, hrounds]
      rfl
    · rw [(round_spec hround).2, hremaining]
      rfl

theorem head?_toList (walk : LeafWalk) : walk.toList.head? = walk.next?.map Prod.fst := by
  cases h : walk.next? with
  | none => rw [toList_of_next?_eq_none h]; rfl
  | some step => rw [toList_of_next?_eq_some h]; rfl

theorem drop_of_next?_eq_none (h : walk.next? = none) (n : Nat) : walk.drop n = walk := by
  cases n with
  | zero => rfl
  | succ n => rw [drop, h]

theorem drop_succ (h : walk.next? = some (names, after)) (n : Nat) :
    walk.drop (n + 1) = after.drop n := by
  rw [drop, h]

/-- Calls are made of rounds: the first of them give the first leaves, and together make one round
for each leaf and split that they pass. -/
theorem exists_rounds_eq_drop (n : Nat) (walk : LeafWalk) :
    ∃ m, walk.rounds m = (walk.toList.take n, walk.drop n) ∧
      walk.remaining = (walk.drop n).remaining + m := by
  induction n generalizing walk with
  | zero => exact ⟨0, rfl, rfl⟩
  | succ n ih =>
    cases h : walk.next? with
    | none =>
      rw [toList_of_next?_eq_none h, drop_of_next?_eq_none h]
      exact ⟨0, rfl, rfl⟩
    | some step =>
      obtain ⟨names, after⟩ := step
      obtain ⟨first, hfirst, hpassed⟩ := exists_rounds_of_next? h
      obtain ⟨others, hothers, hrest⟩ := ih after
      rw [toList_of_next?_eq_some h, drop_succ h]
      refine ⟨first + others, ?_, ?_⟩
      · rw [rounds_add, hfirst, hothers]
        rfl
      · rw [hpassed, hrest]
        omega

theorem toList_drop (n : Nat) (walk : LeafWalk) : (walk.drop n).toList = walk.toList.drop n := by
  obtain ⟨m, hrounds, _⟩ := exists_rounds_eq_drop n walk
  have happend := toList_eq_append_rounds m walk
  rw [hrounds] at happend
  have hsplit := happend.symm.trans (List.take_append_drop n walk.toList).symm
  exact List.append_cancel_left hsplit

/-- The call behind several others gives the leaf with their number, and none past the last one. -/
theorem next?_drop (n : Nat) (walk : LeafWalk) :
    (walk.drop n).next?.map Prod.fst = walk.toList[n]? := by
  rw [← head?_toList, toList_drop, List.head?_drop]

end DispatchTree.LeafWalk

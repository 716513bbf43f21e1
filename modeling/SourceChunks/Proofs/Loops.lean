import SourceChunks.Proofs.ChunkNodes
import SourceChunks.Proofs.Decision
import SourceChunks.SyntaxTree.Yields

/-!
# The loops that rely on the check

Two loops go down a tree with a stack and keep no count of what they have visited: the one that
makes chunks below the units (`Descends`), and the one that looks for a yielding expression
(`Searches`). They end because the tree has passed the check. The check takes a step for every
path from the file, so all paths together unfold to an ordered tree with no more nodes than the
table (`Unfolds`), and a loop takes at most a turn for each of its nodes. What the loops find is
what the recursion over that tree finds.

* `unfolds_root` — a tree that passes unfolds to no more nodes than the table has
* `exists_descends_units`, `exists_searches_yieldsWithin` — the loops end with what is found by
  recursion
* `check_decides` — what the check decides and what follows for the loops
-/

namespace SourceChunks.SyntaxTree

open RoseTree

variable {t : SyntaxTree} {src : Source} {cfg : Config} {lines : LineIndex}

/-! ## Unfolding -/

/-- All that lies below some nodes, as ordered trees that are not cut off anywhere. -/
inductive Unfolds (t : SyntaxTree) : List Nat → List (RoseTree Nat) → Prop
  | nil : Unfolds t [] []
  | cons {id : Nat} {ids : List Nat} {below forest : List (RoseTree Nat)}
      (inside : Unfolds t (t.children id) below) (after : Unfolds t ids forest) :
      Unfolds t (id :: ids) (.node id below :: forest)

namespace Unfolds

variable {ids ids' : List Nat} {forest forest' : List (RoseTree Nat)}

theorem append (h : t.Unfolds ids forest) (h' : t.Unfolds ids' forest') :
    t.Unfolds (ids ++ ids') (forest ++ forest') := by
  induction h with
  | nil => exact h'
  | cons inside _ _ iha => exact cons inside iha

theorem of_append (h : t.Unfolds (ids ++ ids') forest) :
    ∃ f f', forest = f ++ f' ∧ t.Unfolds ids f ∧ t.Unfolds ids' f' := by
  induction ids generalizing forest with
  | nil => exact ⟨[], forest, rfl, nil, h⟩
  | cons id ids ih =>
    cases h with
    | cons inside after =>
      obtain ⟨f, f', rfl, hf, hf'⟩ := ih after
      exact ⟨_ :: f, f', rfl, cons inside hf, hf'⟩

theorem reverse (h : t.Unfolds ids forest) : t.Unfolds ids.reverse forest.reverse := by
  induction h with
  | nil => exact nil
  | cons inside _ _ iha =>
    rw [List.reverse_cons, List.reverse_cons]
    exact iha.append (cons inside nil)

theorem flatMap {α : Type} {as : List α} {I : α → List Nat} {F : α → List (RoseTree Nat)}
    (h : ∀ a ∈ as, t.Unfolds (I a) (F a)) : t.Unfolds (as.flatMap I) (as.flatMap F) := by
  induction as with
  | nil => exact nil
  | cons a as ih =>
    obtain ⟨ha, has⟩ := List.forall_mem_cons.mp h
    exact ha.append (ih has)

theorem inside_of_mem (h : t.Unfolds ids forest) {b : RoseTree Nat} (hb : b ∈ forest) :
    b.label ∈ ids ∧ t.Unfolds (t.children b.label) b.children := by
  induction h with
  | nil => cases hb
  | cons inside _ _ iha =>
    rcases List.mem_cons.mp hb with rfl | hb
    · exact ⟨List.mem_cons_self, inside⟩
    · obtain ⟨hmem, hinside⟩ := iha hb
      exact ⟨List.mem_cons_of_mem _ hmem, hinside⟩

theorem exists_of_mem (h : t.Unfolds ids forest) {id : Nat} (hid : id ∈ ids) :
    ∃ b ∈ forest, b.label = id := by
  induction h with
  | nil => cases hid
  | cons _ _ _ iha =>
    rcases List.mem_cons.mp hid with rfl | hid
    · exact ⟨_, List.mem_cons_self, rfl⟩
    · obtain ⟨b, hb, hlabel⟩ := iha hid
      exact ⟨b, List.mem_cons_of_mem _ hb, hlabel⟩

/-- Whatever can be reached is unfolded somewhere. -/
theorem exists_of_reachable (h : t.Unfolds ids forest) {id x : Nat} (hid : id ∈ ids)
    (hx : t.Reachable id x) :
    ∃ below, t.Unfolds (t.children x) below ∧ forestCount below + 1 ≤ forestCount forest := by
  induction hx using Relation.ReflTransGen.head_induction_on generalizing ids forest with
  | refl =>
    obtain ⟨b, hb, rfl⟩ := h.exists_of_mem hid
    have hle := count_le_of_mem hb
    cases b with
    | node a ts => exact ⟨ts, (h.inside_of_mem hb).2, hle⟩
  | head hc _ ih =>
    obtain ⟨b, hb, rfl⟩ := h.exists_of_mem hid
    obtain ⟨below, hbelow, hle⟩ := ih (h.inside_of_mem hb).2 hc
    have hcount := count_le_of_mem hb
    cases b with
    | node a ts =>
      rw [count] at hcount
      rw [children_node] at hle
      exact ⟨below, hbelow, by omega⟩

/-- Enough depth brings all that lies below. -/
theorem map_branch (h : t.Unfolds ids forest) {m : Nat} (hm : forestCount forest ≤ m) :
    ids.map (t.branch m) = forest := by
  induction h generalizing m with
  | nil => rfl
  | @cons id ids below forest inside after ihi iha =>
    rw [forestCount, count] at hm
    obtain ⟨k, rfl⟩ : ∃ k, m = k + 1 := ⟨m - 1, by omega⟩
    rw [List.map_cons, iha (by omega), branch, ihi (by omega)]

end Unfolds

/-- The check takes a step for every node of what it unfolds. -/
theorem exists_unfolds_of_visit {steps : Nat} {stack : List Nat}
    (h : t.visit src steps stack = none) :
    ∃ forest, t.Unfolds stack forest ∧ forestCount forest ≤ steps := by
  induction steps generalizing stack with
  | zero =>
    cases stack with
    | nil => exact ⟨[], .nil, Nat.le_refl _⟩
    | cons id stack => cases h
  | succ steps ih =>
    cases stack with
    | nil => exact ⟨[], .nil, Nat.zero_le _⟩
    | cons id stack =>
      rw [visit] at h
      split at h
      · cases h
      · obtain ⟨forest, hforest, hle⟩ := ih h
        obtain ⟨below, rest, rfl, hbelow, hrest⟩ := hforest.of_append
        have hinside := hbelow.reverse
        rw [List.reverse_reverse] at hinside
        refine ⟨.node id below.reverse :: rest, .cons hinside hrest, ?_⟩
        rw [forestCount_append] at hle
        rw [forestCount, count, forestCount_reverse]
        omega

/-- **A tree that passes unfolds to no more nodes than its table has.** -/
theorem unfolds_root (hcons : t.inconsistency? src = none) :
    t.Unfolds [0] [t.root] ∧ t.root.count ≤ t.size := by
  have hvisit : t.visit src t.size [0] = none := by
    rw [inconsistency?] at hcons
    split at hcons
    · cases hcons
    · exact hcons
  obtain ⟨forest, hforest, hle⟩ := exists_unfolds_of_visit hvisit
  have hroot : [t.root] = forest := hforest.map_branch hle
  subst hroot
  rw [forestCount, forestCount, Nat.add_zero] at hle
  exact ⟨hforest, hle⟩

theorem unfolds_children_root (hcons : t.inconsistency? src = none) :
    t.Unfolds (t.children 0) t.root.children := by
  have h := ((unfolds_root hcons).1.inside_of_mem List.mem_cons_self).2
  rwa [root, label_branch] at h

/-! ## Chunks below the units -/

/-- The loop that makes the chunks below units. Every node on the stack comes with the depth that a
chunk of its own gets. A look outside the table has no turn. -/
inductive Descends (t : SyntaxTree) (cfg : Config) (lines : LineIndex) :
    Nat → List (Nat × Nat) → List Chunk → Prop
  | done : Descends t cfg lines 0 [] []
  | pass {turns id depth : Nat} {stack : List (Nat × Nat)} {chunks : List Chunk}
      (look : t.InTable id) (none : nestedOrigin? cfg (t.node id) = none)
      (rest : Descends t cfg lines turns ((t.children id).map (·, depth) ++ stack) chunks) :
      Descends t cfg lines (turns + 1) ((id, depth) :: stack) chunks
  | chunk {turns id depth : Nat} {stack : List (Nat × Nat)} {chunks : List Chunk} {origin : Origin}
      (look : t.InTable id) (some : nestedOrigin? cfg (t.node id) = some origin)
      (rest : Descends t cfg lines turns ((t.children id).map (·, depth + 1) ++ stack) chunks) :
      Descends t cfg lines (turns + 1) ((id, depth) :: stack)
        (t.chunkOf lines depth origin (t.outerStart (t.node id)) (t.node id).range.stop id
          :: chunks)

theorem Descends.unique {turns turns' : Nat} {stack : List (Nat × Nat)}
    {chunks chunks' : List Chunk} (h : t.Descends cfg lines turns stack chunks)
    (h' : t.Descends cfg lines turns' stack chunks') : turns = turns' ∧ chunks = chunks' := by
  induction h generalizing turns' chunks' with
  | done =>
    cases h'
    exact ⟨rfl, rfl⟩
  | pass _ none _ ih =>
    cases h' with
    | pass _ _ rest =>
      obtain ⟨hturns, hchunks⟩ := ih rest
      exact ⟨congrArg (· + 1) hturns, hchunks⟩
    | chunk _ some => cases none.symm.trans some
  | chunk _ some _ ih =>
    cases h' with
    | pass _ none => cases some.symm.trans none
    | chunk _ some' rest =>
      obtain ⟨hturns, hchunks⟩ := ih rest
      cases some.symm.trans some'
      exact ⟨congrArg (· + 1) hturns, congrArg _ hchunks⟩

/-- Nodes at a depth take a turn for each node of what they unfold to, and leave its chunks. -/
theorem descends_append (hclosed : t.Closed) {ids : List Nat} {forest : List (RoseTree Nat)}
    (h : t.Unfolds ids forest) (hids : ∀ id ∈ ids, id < t.size) (depth : Nat) {turns : Nat}
    {stack : List (Nat × Nat)} {chunks : List Chunk}
    (hrest : t.Descends cfg lines turns stack chunks) :
    t.Descends cfg lines (forestCount forest + turns) (ids.map (·, depth) ++ stack)
      (forestPreorder (t.nestedAll cfg lines depth forest) ++ chunks) := by
  induction h generalizing depth turns stack chunks with
  | nil =>
    rw [forestCount, Nat.zero_add]
    exact hrest
  | @cons id ids below forest _ _ ihi iha =>
    obtain ⟨hid, hrest'⟩ := List.forall_mem_cons.mp hids
    have hlater := iha hrest' depth hrest
    have hinside := fun depth' => ihi (hclosed.children id hid) depth' hlater
    have hturns : forestCount (.node id below :: forest) + turns
        = forestCount below + (forestCount forest + turns) + 1 := by
      rw [forestCount, count]
      omega
    rw [hturns, nestedAll, forestPreorder_append, nested, List.append_assoc]
    cases horigin : nestedOrigin? cfg (t.node id) with
    | none => exact .pass (hclosed.inTable hid) horigin (hinside depth)
    | some origin =>
      simp only [forestPreorder, preorder, List.append_nil, List.cons_append]
      exact .chunk (hclosed.inTable hid) horigin (hinside (depth + 1))

/-- The nodes that a unit puts on the stack: its children, with that of the function it names in
the place of that function. -/
def pushed (t : SyntaxTree) (u : TopUnit) : List Nat :=
  (t.children u.id).flatMap fun c => if some c == t.skipped u then t.children c else [c]

/-- What they unfold to. -/
def pushedBranches (t : SyntaxTree) (u : TopUnit) : List (RoseTree Nat) :=
  u.branch.children.flatMap fun b => if some b.label == t.skipped u then b.children else [b]

theorem unitChildren_eq_nestedAll (t : SyntaxTree) (cfg : Config) (lines : LineIndex)
    (u : TopUnit) : t.unitChildren cfg lines u = t.nestedAll cfg lines 1 (t.pushedBranches u) := by
  rw [unitChildren_eq, pushedBranches, nestedAll_eq_flatMap, List.flatMap_assoc]
  refine List.flatMap_congr fun b _ => ?_
  unfold childChunks
  split
  · exact nestedAll_eq_flatMap ..
  · rw [List.flatMap_singleton]

theorem unfolds_pushed (hcons : t.inconsistency? src = none) {u : TopUnit}
    (hu : u ∈ t.topUnits cfg) : t.Unfolds (t.pushed u) (t.pushedBranches u) := by
  have hbranch : u.branch ∈ t.root.children :=
    (t.branches_topUnits_sublist cfg).subset (List.mem_map_of_mem hu)
  have hinside := ((unfolds_children_root hcons).inside_of_mem hbranch).2
  have hlabel : u.branch.label = u.id := rfl
  rw [hlabel] at hinside
  unfold pushed pushedBranches
  generalize t.children u.id = ids at hinside
  generalize u.branch.children = forest at hinside
  induction hinside with
  | nil => exact .nil
  | @cons id ids below forest inside _ _ iha =>
    rw [List.flatMap_cons, List.flatMap_cons, label_node]
    refine Unfolds.append ?_ iha
    split
    · exact inside
    · exact .cons inside .nil

theorem forestCount_le_of_sublist {α : Type} {f g : List (RoseTree α)} (h : f.Sublist g) :
    forestCount f ≤ forestCount g := by
  induction h with
  | slnil => exact Nat.le_refl _
  | cons b _ ih => exact Nat.le_add_left_of_le ih
  | cons_cons b _ ih => exact Nat.add_le_add_left ih _

theorem forestCount_children_lt {α : Type} (b : RoseTree α) : forestCount b.children < b.count := by
  cases b with
  | node a ts => exact Nat.lt_succ_self _

theorem forestCount_pushedBranches_le (t : SyntaxTree) (u : TopUnit) :
    forestCount (t.pushedBranches u) ≤ u.branch.count := by
  have hle : forestCount (t.pushedBranches u) ≤ forestCount u.branch.children := by
    unfold pushedBranches
    induction u.branch.children with
    | nil => exact Nat.le_refl _
    | cons b bs ih =>
      rw [List.flatMap_cons, forestCount_append, forestCount]
      refine Nat.add_le_add ?_ ih
      cases b with
      | node a ts =>
        split
        · exact Nat.le_succ _
        · exact Nat.le_refl _
  exact Nat.le_trans hle (Nat.le_of_lt (forestCount_children_lt u.branch))

theorem reachable_of_mem_pushed {u : TopUnit} (hu : u ∈ t.topUnits cfg) {id : Nat}
    (hid : id ∈ t.pushed u) : t.Reachable 0 id := by
  obtain ⟨c, hc, hid⟩ := List.mem_flatMap.mp hid
  have hreach : t.Reachable 0 c := (reachable_of_mem_topUnits hu).tail hc
  split at hid
  · exact hreach.tail hid
  · rw [List.mem_singleton.mp hid]
    exact hreach

/-- The stack after all units have been made: the nodes of the last unit are on top. -/
def unitStack (t : SyntaxTree) (cfg : Config) : List (Nat × Nat) :=
  ((t.topUnits cfg).reverse.flatMap t.pushed).map (·, 1)

/-- The units together unfold to fewer nodes than the table has. -/
theorem forestCount_units_lt (hcons : t.inconsistency? src = none) (cfg : Config) :
    forestCount ((t.topUnits cfg).reverse.flatMap t.pushedBranches) < t.size := by
  have hpushed : ∀ us : List TopUnit,
      forestCount (us.flatMap t.pushedBranches) ≤ forestCount (us.map TopUnit.branch) := by
    intro us
    induction us with
    | nil => exact Nat.le_refl _
    | cons u us ih =>
      rw [List.flatMap_cons, forestCount_append, List.map_cons, forestCount]
      exact Nat.add_le_add (t.forestCount_pushedBranches_le u) ih
  calc forestCount ((t.topUnits cfg).reverse.flatMap t.pushedBranches)
      ≤ forestCount ((t.topUnits cfg).reverse.map TopUnit.branch) := hpushed _
    _ = forestCount ((t.topUnits cfg).map TopUnit.branch) := by
        rw [List.map_reverse, forestCount_reverse]
    _ ≤ forestCount t.root.children := forestCount_le_of_sublist (t.branches_topUnits_sublist cfg)
    _ < t.root.count := forestCount_children_lt t.root
    _ ≤ t.size := (unfolds_root hcons).2

/-- **The loop below the units ends, with the chunks that the recursion makes.** -/
theorem exists_descends_units (hclosed : t.Closed) (hcons : t.inconsistency? src = none)
    (cfg : Config) (lines : LineIndex) :
    ∃ turns ≤ t.size, t.Descends cfg lines turns (t.unitStack cfg)
      ((t.topUnits cfg).reverse.flatMap fun u => forestPreorder (t.unitChildren cfg lines u)) := by
  have hunfolds : t.Unfolds ((t.topUnits cfg).reverse.flatMap t.pushed)
      ((t.topUnits cfg).reverse.flatMap t.pushedBranches) :=
    Unfolds.flatMap fun u hu => unfolds_pushed hcons (List.mem_reverse.mp hu)
  have hids : ∀ id ∈ (t.topUnits cfg).reverse.flatMap t.pushed, id < t.size := by
    intro id hid
    obtain ⟨u, hu, hid⟩ := List.mem_flatMap.mp hid
    exact lt_size_of_reachable hclosed.file hclosed.children
      (reachable_of_mem_pushed (List.mem_reverse.mp hu) hid)
  have hdone : t.Descends cfg lines 0 [] [] := .done
  have hrun := descends_append hclosed hunfolds hids 1 hdone
  rw [List.append_nil, List.append_nil] at hrun
  have hchunks : forestPreorder (t.nestedAll cfg lines 1
        ((t.topUnits cfg).reverse.flatMap t.pushedBranches))
      = (t.topUnits cfg).reverse.flatMap fun u => forestPreorder (t.unitChildren cfg lines u) := by
    simp only [unitChildren_eq_nestedAll, nestedAll_eq_flatMap, forestPreorder_eq_flatMap,
      List.flatMap_assoc]
  rw [hchunks] at hrun
  exact ⟨_, Nat.le_of_lt (forestCount_units_lt hcons cfg), hrun⟩

/-! ## Yielding expressions -/

/-- The loop that looks for a yielding expression in the own body of a callable. A look outside the
table has no turn. -/
inductive Searches (t : SyntaxTree) : Nat → List Nat → Bool → Prop
  | done : Searches t 0 [] false
  | found {id : Nat} {stack : List Nat} (look : id < t.size)
      (yields : (t.node id).flags.yields = true) : Searches t 1 (id :: stack) true
  | pass {turns id : Nat} {stack : List Nat} {answer : Bool} (look : id < t.size)
      (yields : (t.node id).flags.yields = false) (own : (t.node id).hasOwnBody = true)
      (rest : Searches t turns stack answer) : Searches t (turns + 1) (id :: stack) answer
  | enter {turns id : Nat} {stack : List Nat} {answer : Bool} (look : id < t.size)
      (yields : (t.node id).flags.yields = false) (own : (t.node id).hasOwnBody = false)
      (rest : Searches t turns ((t.children id).reverse ++ stack) answer) :
      Searches t (turns + 1) (id :: stack) answer

theorem Searches.unique {turns turns' : Nat} {stack : List Nat} {answer answer' : Bool}
    (h : t.Searches turns stack answer) (h' : t.Searches turns' stack answer') :
    turns = turns' ∧ answer = answer' := by
  induction h generalizing turns' with
  | done =>
    cases h'
    exact ⟨rfl, rfl⟩
  | found _ yields =>
    cases h' with
    | found => exact ⟨rfl, rfl⟩
    | pass _ yields' | enter _ yields' => cases yields.symm.trans yields'
  | pass _ yields own _ ih =>
    cases h' with
    | found _ yields' => cases yields.symm.trans yields'
    | pass _ _ _ rest =>
      obtain ⟨hturns, hanswer⟩ := ih rest
      exact ⟨congrArg (· + 1) hturns, hanswer⟩
    | enter _ _ own' => cases own.symm.trans own'
  | enter _ yields own _ ih =>
    cases h' with
    | found _ yields' => cases yields.symm.trans yields'
    | pass _ _ own' => cases own.symm.trans own'
    | enter _ _ _ rest =>
      obtain ⟨hturns, hanswer⟩ := ih rest
      exact ⟨congrArg (· + 1) hturns, hanswer⟩

/-- Whether a node yields, itself or in a body that is not its own. -/
def yieldsAt (t : SyntaxTree) (depth id : Nat) : Bool :=
  (t.node id).flags.yields || (!(t.node id).hasOwnBody && t.yieldsBelow depth id)

theorem yieldsBelow_succ (t : SyntaxTree) (depth id : Nat) :
    t.yieldsBelow (depth + 1) id = (t.children id).reverse.any (t.yieldsAt depth) := rfl

/-- Nodes on the stack take at most a turn for each node of what they unfold to. -/
theorem exists_searches_append (hclosed : t.Closed) {ids : List Nat}
    {forest : List (RoseTree Nat)} (h : t.Unfolds ids forest) (hids : ∀ id ∈ ids, id < t.size)
    {depth : Nat} (hdepth : forestCount forest ≤ depth) {turns : Nat} {stack : List Nat}
    {answer : Bool} (hrest : t.Searches turns stack answer) :
    ∃ turns' ≤ forestCount forest + turns,
      t.Searches turns' (ids.reverse ++ stack) (ids.reverse.any (t.yieldsAt depth) || answer) := by
  induction h generalizing depth turns stack answer with
  | nil => exact ⟨turns, Nat.le_add_left _ _, hrest⟩
  | @cons id ids below forest _ _ ihi iha =>
    obtain ⟨hid, hids'⟩ := List.forall_mem_cons.mp hids
    rw [forestCount, count] at hdepth ⊢
    obtain ⟨k, rfl⟩ : ∃ k, depth = k + 1 := ⟨depth - 1, by omega⟩
    -- the node at the bottom, with all that it puts on the stack
    obtain ⟨n, hn, hnode⟩ : ∃ n ≤ forestCount below + 1 + turns,
        t.Searches n (id :: stack) (t.yieldsAt (k + 1) id || answer) := by
      unfold yieldsAt
      rw [yieldsBelow_succ]
      cases hyields : (t.node id).flags.yields with
      | true => exact ⟨1, by omega, .found hid hyields⟩
      | false =>
        cases hown : (t.node id).hasOwnBody with
        | true => exact ⟨turns + 1, by omega, .pass hid hyields hown hrest⟩
        | false =>
          have hbelow : forestCount below ≤ k := by omega
          obtain ⟨n, hn, hinside⟩ := ihi (hclosed.children id hid) hbelow hrest
          exact ⟨n + 1, by omega, .enter hid hyields hown hinside⟩
    have hafter : forestCount forest ≤ k + 1 := by omega
    obtain ⟨n', hn', hrun⟩ := iha hids' hafter hnode
    refine ⟨n', by omega, ?_⟩
    rw [List.reverse_cons, List.append_assoc, List.any_append, Bool.or_assoc]
    simpa using hrun

/-- **The search below a node that can be reached ends, with the answer of the recursion.** -/
theorem exists_searches_yieldsWithin (hclosed : t.Closed) (hcons : t.inconsistency? src = none)
    {x : Nat} (hx : t.Reachable 0 x) :
    ∃ turns ≤ t.size, t.Searches turns (t.children x).reverse (t.yieldsWithin x) := by
  obtain ⟨hroot, hle⟩ := unfolds_root hcons
  obtain ⟨below, hbelow, hcount⟩ := hroot.exists_of_reachable List.mem_cons_self hx
  rw [forestCount, forestCount, Nat.add_zero] at hcount
  have hxlt := lt_size_of_reachable hclosed.file hclosed.children hx
  obtain ⟨k, hk⟩ : ∃ k, t.size = k + 1 := ⟨t.size - 1, by omega⟩
  have hdepth : forestCount below ≤ k := by omega
  obtain ⟨turns, hturns, hrun⟩ :=
    exists_searches_append hclosed hbelow (hclosed.children x hxlt) hdepth .done
  rw [List.append_nil, Bool.or_false, ← yieldsBelow_succ, ← hk] at hrun
  exact ⟨turns, by omega, hrun⟩

/-! ## What the check decides -/

/-- **What the check decides.** It ends after at most one visit more than there are nodes, whatever
the links; a circle does not pass; a table whose links form a tree passes if and only if it fits the
text; and below a table that passes, the loops that make chunks and look for yielding expressions
end. -/
theorem check_decides (t : SyntaxTree) (src : Source) (hclosed : t.Closed) :
    (∃ turns ≤ t.size + 1, t.CheckRuns src turns (t.inconsistency? src)
      ∧ ∀ turns' answer, t.CheckRuns src turns' answer →
        turns' = turns ∧ answer = t.inconsistency? src)
    ∧ (∀ x, t.Reachable 0 x → t.Below x x → t.inconsistency? src ≠ none)
    ∧ (t.IsTree → (t.inconsistency? src = none ↔ t.FitsText src))
    ∧ (t.inconsistency? src = none → ∀ (cfg : Config) (lines : LineIndex),
      ∃ turns ≤ t.size, ∃ chunks, t.Descends cfg lines turns (t.unitStack cfg) chunks
        ∧ chunks = ((t.topUnits cfg).reverse.flatMap fun u =>
          forestPreorder (t.unitChildren cfg lines u))
        ∧ ∀ turns' chunks', t.Descends cfg lines turns' (t.unitStack cfg) chunks' →
          turns' = turns ∧ chunks' = chunks)
    ∧ (t.inconsistency? src = none → ∀ x, t.Reachable 0 x →
      ∃ turns ≤ t.size, t.Searches turns (t.children x).reverse (t.yieldsWithin x)
        ∧ ∀ turns' answer, t.Searches turns' (t.children x).reverse answer →
          turns' = turns ∧ answer = t.yieldsWithin x) := by
  refine ⟨?_, ?_, ?_, ?_, ?_⟩
  · obtain ⟨turns, hle, hrun⟩ := exists_checkRuns hclosed src
    exact ⟨turns, hle, hrun, fun _ _ h => h.unique hrun⟩
  · intro x hx hcycle
    exact inconsistency?_ne_none_of_cycle hx hcycle
  · intro htree
    exact inconsistency?_eq_none_iff hclosed htree
  · intro hcons cfg lines
    obtain ⟨turns, hle, hrun⟩ := exists_descends_units hclosed hcons cfg lines
    exact ⟨turns, hle, _, hrun, rfl, fun _ _ h => h.unique hrun⟩
  · intro hcons x hx
    obtain ⟨turns, hle, hrun⟩ := exists_searches_yieldsWithin hclosed hcons hx
    exact ⟨turns, hle, hrun, fun _ _ h => h.unique hrun⟩

/-- A function that yields. -/
def yieldingFunction : SyntaxTree where
  nodes := #[
    { kind := .moduleDef, range := ⟨0, 3⟩, children := [1] },
    { kind := .functionDef, range := ⟨0, 3⟩, children := [2] },
    { kind := .expression, range := ⟨1, 2⟩, flags := { yields := true } }]
  language := .python
  length := 3

/-- A function that is listed below its own body. -/
def circularFunction : SyntaxTree :=
  yieldingFunction.modifyNode 2 fun n => { n with children := [1] }

theorem check_decides_yieldingFunction :
    (yieldingFunction.inconsistency? { text := "f()" } = none
        ↔ yieldingFunction.FitsText { text := "f()" })
      ∧ (∃ turns ≤ 3, yieldingFunction.Searches turns [2] true)
      ∧ circularFunction.inconsistency? { text := "f()" } ≠ none := by
  have hclosed : yieldingFunction.Closed := ⟨by decide, by decide, by decide⟩
  have hcircular : circularFunction.Closed := ⟨by decide, by decide, by decide⟩
  obtain ⟨-, -, hiff, -, hsearch⟩ := check_decides yieldingFunction { text := "f()" } hclosed
  obtain ⟨-, hcycle, -⟩ := check_decides circularFunction { text := "f()" } hcircular
  refine ⟨hiff (isTree_of_nodup hclosed (by decide)), ?_, ?_⟩
  · obtain ⟨turns, hle, hrun, -⟩ := hsearch (by decide) 1 (.single (by decide))
    exact ⟨turns, hle, hrun⟩
  · exact hcycle 1 (.single (by decide)) (.tail (.single (b := 2) (by decide)) (by decide))

end SourceChunks.SyntaxTree

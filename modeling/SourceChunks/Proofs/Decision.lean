import SourceChunks.Proofs.Ancestry

/-!
# What the check decides

The check is a loop with a stack and a count of the nodes it has visited, and nothing is known of
the links when it starts: they may share nodes or run in circles. `Checks` is that loop as it
runs, a turn for every node it takes from the stack. It always ends, since it gives up as soon as
it has visited more nodes than there are. Where the links form a tree (`IsTree`) it never gives up:
the nodes visited and the nodes on the stack are all different. So there it passes exactly the
trees that fit the text (`FitsText`).

* `exists_checkRuns`, `CheckRuns.unique` — the loop ends, with the answer of the check
* `inconsistency?_ne_none_of_cycle` — a circle does not pass
* `inconsistency?_eq_none_iff` — a tree passes if and only if it fits the text
-/

namespace SourceChunks.SyntaxTree

variable {t : SyntaxTree} {src : Source}

/-! ## The loop -/

/-- The table has a node for the file, and no link to a child or a modifier leaves it. -/
structure Closed (t : SyntaxTree) : Prop where
  file : 0 < t.size
  children : ∀ id < t.size, ∀ c ∈ t.children id, c < t.size
  modifiers : ∀ id < t.size, ∀ m ∈ (t.node id).modifiers, m < t.size

/-- A node and its modifiers stand in the table. -/
def InTable (t : SyntaxTree) (id : Nat) : Prop :=
  id < t.size ∧ ∀ m ∈ (t.node id).modifiers, m < t.size

theorem Closed.inTable (h : t.Closed) {id : Nat} (hid : id < t.size) : t.InTable id :=
  ⟨hid, h.modifiers id hid⟩

/-- The loop of the check from a state, given by the number of nodes visited and the nodes on the
stack: how many turns it takes and what it answers. A look outside the table has no turn. -/
inductive Checks (t : SyntaxTree) (src : Source) :
    Nat → List Nat → Nat → Option Inconsistency → Prop
  | done {visited : Nat} : Checks t src visited [] 0 none
  | cycle {visited id : Nat} {stack : List Nat} (full : t.size < visited + 1) :
      Checks t src visited (id :: stack) 1 (some .cycle)
  | problem {visited id : Nat} {stack : List Nat} {p : Inconsistency}
      (room : visited + 1 ≤ t.size) (look : t.InTable id ∧ ∀ c ∈ t.children id, t.InTable c)
      (found : t.nodeProblem src id = some p) : Checks t src visited (id :: stack) 1 (some p)
  | visit {visited id turns : Nat} {stack : List Nat} {answer : Option Inconsistency}
      (room : visited + 1 ≤ t.size) (look : t.InTable id ∧ ∀ c ∈ t.children id, t.InTable c)
      (passes : t.nodeProblem src id = none)
      (rest : Checks t src (visited + 1) ((t.children id).reverse ++ stack) turns answer) :
      Checks t src visited (id :: stack) (turns + 1) answer

/-- From a state the loop runs in one way only. -/
theorem Checks.unique {visited turns turns' : Nat} {stack : List Nat}
    {answer answer' : Option Inconsistency} (h : t.Checks src visited stack turns answer)
    (h' : t.Checks src visited stack turns' answer') : turns = turns' ∧ answer = answer' := by
  induction h generalizing turns' with
  | done =>
    cases h'
    exact ⟨rfl, rfl⟩
  | cycle full =>
    cases h' with
    | cycle => exact ⟨rfl, rfl⟩
    | problem room | visit room => omega
  | problem room _ found =>
    cases h' with
    | cycle full => omega
    | problem _ _ found' => exact ⟨rfl, found.symm.trans found'⟩
    | visit _ _ passes => cases found.symm.trans passes
  | visit room _ passes _ ih =>
    cases h' with
    | cycle full => omega
    | problem _ _ found => cases found.symm.trans passes
    | visit _ _ _ rest =>
      obtain ⟨hturns, hanswer⟩ := ih rest
      exact ⟨congrArg (· + 1) hturns, hanswer⟩

/-- The steps that the check has left are those that the loop has not taken. -/
theorem exists_checks_visit (hclosed : t.Closed) (src : Source) {steps visited : Nat}
    {stack : List Nat}
    (hsteps : steps + visited = t.size) (hstack : ∀ id ∈ stack, id < t.size) :
    ∃ turns ≤ steps + 1, t.Checks src visited stack turns (t.visit src steps stack) := by
  induction steps generalizing visited stack with
  | zero =>
    cases stack with
    | nil => exact ⟨0, Nat.zero_le _, .done⟩
    | cons id stack => exact ⟨1, Nat.le_refl _, .cycle (by omega)⟩
  | succ steps ih =>
    cases stack with
    | nil => exact ⟨0, Nat.zero_le _, .done⟩
    | cons id stack =>
      obtain ⟨hid, hrest⟩ := List.forall_mem_cons.mp hstack
      have hchildren := hclosed.children id hid
      have hlook : t.InTable id ∧ ∀ c ∈ t.children id, t.InTable c :=
        ⟨hclosed.inTable hid, fun c hc => hclosed.inTable (hchildren c hc)⟩
      rw [visit]
      cases hproblem : t.nodeProblem src id with
      | some p => exact ⟨1, by omega, .problem (by omega) hlook hproblem⟩
      | none =>
        have hnext : ∀ x ∈ (t.children id).reverse ++ stack, x < t.size :=
          List.forall_mem_append.mpr ⟨fun c hc => hchildren c (List.mem_reverse.mp hc), hrest⟩
        have hleft : steps + (visited + 1) = t.size := by omega
        obtain ⟨turns, hle, hrun⟩ := ih hleft hnext
        exact ⟨turns + 1, by omega, .visit (by omega) hlook hproblem hrun⟩

/-- A run of the check: it looks at the lengths first. -/
inductive CheckRuns (t : SyntaxTree) (src : Source) : Nat → Option Inconsistency → Prop
  | length (differs : t.length ≠ src.size) :
      CheckRuns t src 0 (some (.length t.length src.size))
  | loop {turns : Nat} {answer : Option Inconsistency} (agrees : t.length = src.size)
      (run : Checks t src 0 [0] turns answer) : CheckRuns t src turns answer

theorem CheckRuns.unique {turns turns' : Nat} {answer answer' : Option Inconsistency}
    (h : t.CheckRuns src turns answer) (h' : t.CheckRuns src turns' answer') :
    turns = turns' ∧ answer = answer' := by
  cases h with
  | length differs =>
    cases h' with
    | length => exact ⟨rfl, rfl⟩
    | loop agrees => exact absurd agrees differs
  | loop agrees run =>
    cases h' with
    | length differs => exact absurd agrees differs
    | loop _ run' => exact run.unique run'

/-- **Whatever the links, the check ends after at most one visit more than there are nodes.** -/
theorem exists_checkRuns (hclosed : t.Closed) (src : Source) :
    ∃ turns ≤ t.size + 1, t.CheckRuns src turns (t.inconsistency? src) := by
  by_cases hlength : t.length = src.size
  · have hanswer : t.inconsistency? src = t.visit src t.size [0] := by
      simp [inconsistency?, hlength]
    rw [hanswer]
    obtain ⟨turns, hle, hrun⟩ := exists_checks_visit hclosed src
      (Nat.add_zero t.size) (List.forall_mem_singleton.mpr hclosed.file)
    exact ⟨turns, hle, .loop hlength hrun⟩
  · have hanswer : t.inconsistency? src = some (.length t.length src.size) := by
      simp [inconsistency?, hlength]
    rw [hanswer]
    exact ⟨0, Nat.zero_le _, .length hlength⟩

/-- A circle that can be reached does not pass. -/
theorem inconsistency?_ne_none_of_cycle {x : Nat} (hx : t.Reachable 0 x) (hcycle : t.Below x x) :
    t.inconsistency? src ≠ none :=
  fun hcons => not_below_self hcons hx hcycle

/-! ## Trees that fit the text -/

/-- A tree fits a text: it was made for a text of that length, the nodes that can be reached lie in
it on character boundaries, and each has its children inside it, one after another, with their
modifiers and comments. -/
structure FitsText (t : SyntaxTree) (src : Source) : Prop where
  length : t.length = src.size
  bounds : ∀ id, t.Reachable 0 id →
    (t.node id).range.start ≤ (t.node id).range.stop ∧ (t.node id).range.stop ≤ src.size
  boundaries : ∀ id, t.Reachable 0 id →
    src.isBoundary (t.node id).range.start = true ∧ src.isBoundary (t.node id).range.stop = true
  inside : ∀ id, t.Reachable 0 id → ∀ c ∈ t.children id,
    (t.node id).range.start ≤ (t.node c).range.start
      ∧ (t.node c).range.stop ≤ (t.node id).range.stop
  outerInside : ∀ id, t.Reachable 0 id → ∀ c ∈ t.children id,
    (t.node id).range.start ≤ t.outerStart (t.node c)
  siblings : ∀ id, t.Reachable 0 id →
    (t.children id).IsChain fun a b => (t.node a).range.stop ≤ t.outerStart (t.node b)

/-- When the children of a node have no problem, given where the last of them ended. -/
theorem siblingProblem_eq_none_iff {parent prev : Nat} {within : ByteRange} {ids : List Nat} :
    t.siblingProblem parent within prev ids = none
      ↔ (∀ c ∈ ids, (within.start ≤ (t.node c).range.start ∧ (t.node c).range.stop ≤ within.stop)
          ∧ within.start ≤ t.outerStart (t.node c))
        ∧ (∀ c ∈ ids.head?, prev ≤ t.outerStart (t.node c))
        ∧ ids.IsChain fun a b => (t.node a).range.stop ≤ t.outerStart (t.node b) := by
  induction ids generalizing prev with
  | nil => simp [siblingProblem]
  | cons id ids ih =>
    rw [siblingProblem_cons_eq_none_iff, ih, List.forall_mem_cons, List.isChain_cons]
    simp only [List.head?_cons, Option.mem_some_iff, forall_eq']
    tauto

theorem nodeProblem_of_fitsText (h : t.FitsText src) {id : Nat} (hid : t.Reachable 0 id) :
    t.nodeProblem src id = none := by
  refine nodeProblem_eq_none_iff.mpr ⟨h.bounds id hid, h.boundaries id hid, ?_⟩
  refine siblingProblem_eq_none_iff.mpr ⟨fun c hc => ?_, fun c hc => ?_, h.siblings id hid⟩
  · exact ⟨h.inside id hid c hc, h.outerInside id hid c hc⟩
  · exact h.outerInside id hid c (List.mem_of_mem_head? hc)

/-- A tree that passes fits the text, whatever its links. -/
theorem fitsText_of_consistent (hcons : t.inconsistency? src = none) : t.FitsText src := by
  have hpasses : ∀ id, t.Reachable 0 id → _ := fun id hid =>
    nodeProblem_eq_none_iff.mp (nodeProblem_of_reachable hcons hid)
  have hsiblings : ∀ id, t.Reachable 0 id → _ := fun id hid =>
    siblingProblem_eq_none_iff.mp (hpasses id hid).2.2
  constructor
  · by_contra hlength
    simp [inconsistency?, hlength] at hcons
  · exact fun id hid => (hpasses id hid).1
  · exact fun id hid => (hpasses id hid).2.1
  · exact fun id hid c hc => ((hsiblings id hid).1 c hc).1
  · exact fun id hid c hc => ((hsiblings id hid).1 c hc).2
  · exact fun id hid => (hsiblings id hid).2.2

/-! ## Links that form a tree -/

/-- The links below the file form a tree: no node is listed twice, by one node or by two, and the
file is listed by none. -/
structure IsTree (t : SyntaxTree) : Prop where
  nodup : ∀ p, t.Reachable 0 p → (t.children p).Nodup
  parent_unique : ∀ p q c, t.Reachable 0 p → t.Reachable 0 q → c ∈ t.children p →
    c ∈ t.children q → p = q
  file : ∀ p, t.Reachable 0 p → 0 ∉ t.children p

/-- It is enough that no number occurs twice in the child lists of the table, and the file not at
all. -/
theorem isTree_of_nodup (hclosed : t.Closed)
    (h : (0 :: (List.range t.size).flatMap t.children).Nodup) : t.IsTree := by
  obtain ⟨hfile, hnodup⟩ := List.nodup_cons.mp h
  have honce := eachOnce_of_nodup hnodup
  refine ⟨fun p _ => honce.nodup p, fun p q c _ _ => honce.parent_unique p q c, ?_⟩
  intro p hp hc
  have hlt := lt_size_of_reachable hclosed.file hclosed.children hp
  exact hfile (List.mem_flatMap.mpr ⟨p, List.mem_range.mpr hlt, hc⟩)

/-- What the loop keeps where the links form a tree: the nodes visited and those on the stack are
different, and all but the file were put there by a node visited. -/
structure Progress (t : SyntaxTree) (visited stack : List Nat) : Prop where
  nodup : (visited ++ stack).Nodup
  reachable : ∀ id ∈ visited ++ stack, t.Reachable 0 id
  parent : ∀ id ∈ visited ++ stack, id = 0 ∨ ∃ p ∈ visited, id ∈ t.children p

theorem Progress.start (t : SyntaxTree) : t.Progress [] [0] where
  nodup := List.nodup_singleton 0
  reachable := List.forall_mem_singleton.mpr (.refl t 0)
  parent := List.forall_mem_singleton.mpr (Or.inl rfl)

/-- A child of a node on the stack has not been met before. -/
theorem Progress.child_fresh (htree : t.IsTree) {id c : Nat} {visited stack : List Nat}
    (h : t.Progress visited (id :: stack)) (hc : c ∈ t.children id) :
    c ∉ visited ++ id :: stack := by
  intro hmem
  have hid : id ∈ visited ++ id :: stack := List.mem_append_right _ List.mem_cons_self
  rcases h.parent c hmem with rfl | ⟨p, hp, hcp⟩
  · exact htree.file id (h.reachable id hid) hc
  · have hvisited : id ∈ visited := by
      rw [htree.parent_unique id p c (h.reachable id hid)
        (h.reachable p (List.mem_append_left _ hp)) hc hcp]
      exact hp
    exact (List.nodup_append.mp h.nodup).2.2 id hvisited id List.mem_cons_self rfl

/-- A visit makes progress. -/
theorem Progress.visit (htree : t.IsTree) {id : Nat} {visited stack : List Nat}
    (h : t.Progress visited (id :: stack)) :
    t.Progress (id :: visited) ((t.children id).reverse ++ stack) := by
  have hid : t.Reachable 0 id :=
    h.reachable id (List.mem_append_right _ List.mem_cons_self)
  have hsplit : ∀ {x}, x ∈ (id :: visited) ++ ((t.children id).reverse ++ stack) →
      x ∈ visited ++ id :: stack ∨ x ∈ t.children id := by
    intro x hx
    simp only [List.mem_append, List.mem_cons, List.mem_reverse] at hx ⊢
    tauto
  constructor
  · have hperm : ((id :: visited) ++ ((t.children id).reverse ++ stack)).Perm
        (t.children id ++ (visited ++ id :: stack)) :=
      (List.perm_append_comm_assoc _ _ _).trans
        ((List.reverse_perm _).append List.perm_middle.symm)
    refine hperm.nodup_iff.mpr (List.nodup_append.mpr ⟨htree.nodup id hid, h.nodup, ?_⟩)
    rintro c hc _ hx rfl
    exact h.child_fresh htree hc hx
  · intro x hx
    rcases hsplit hx with hx | hx
    · exact h.reachable x hx
    · exact hid.tail hx
  · intro x hx
    rcases hsplit hx with hx | hx
    · refine (h.parent x hx).imp_right ?_
      rintro ⟨p, hp, hxp⟩
      exact ⟨p, List.mem_cons_of_mem _ hp, hxp⟩
    · exact Or.inr ⟨id, List.mem_cons_self, hx⟩

/-- There are no more of them than the table has nodes. -/
theorem Progress.length_le (hclosed : t.Closed) {visited stack : List Nat}
    (h : t.Progress visited stack) : visited.length + stack.length ≤ t.size := by
  have hsubset : visited ++ stack ⊆ List.range t.size := by
    intro id hid
    rw [List.mem_range]
    exact lt_size_of_reachable hclosed.file hclosed.children (h.reachable id hid)
  have hle := (List.subperm_of_subset h.nodup hsubset).length_le
  rwa [List.length_append, List.length_range] at hle

/-- Where the links form a tree the check does not run out of steps. -/
theorem visit_eq_none_of_isTree (hclosed : t.Closed) (htree : t.IsTree)
    (hpasses : ∀ id, t.Reachable 0 id → t.nodeProblem src id = none) {steps : Nat}
    {visited stack : List Nat} (hprogress : t.Progress visited stack)
    (hsteps : steps + visited.length = t.size) : t.visit src steps stack = none := by
  induction steps generalizing visited stack with
  | zero =>
    cases stack with
    | nil => rfl
    | cons id stack =>
      have hle := hprogress.length_le hclosed
      rw [List.length_cons] at hle
      omega
  | succ steps ih =>
    cases stack with
    | nil => rfl
    | cons id stack =>
      have hid := hprogress.reachable id (List.mem_append_right _ List.mem_cons_self)
      rw [visit, hpasses id hid]
      refine ih (hprogress.visit htree) ?_
      rw [List.length_cons]
      omega

/-- **A table whose links form a tree passes if and only if it fits the text.** -/
theorem inconsistency?_eq_none_iff (hclosed : t.Closed) (htree : t.IsTree) :
    t.inconsistency? src = none ↔ t.FitsText src := by
  constructor
  · exact fitsText_of_consistent
  · intro hfits
    have hvisit : t.visit src t.size [0] = none :=
      visit_eq_none_of_isTree hclosed htree (fun id hid => nodeProblem_of_fitsText hfits hid)
        (Progress.start t) (Nat.add_zero t.size)
    simp [inconsistency?, hfits.length, hvisit]

end SourceChunks.SyntaxTree

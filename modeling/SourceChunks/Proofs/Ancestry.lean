import Mathlib.Data.Set.Card
import SourceChunks.Proofs.Units

/-!
# Ancestors of a node

A consistent tree has no circles: the check takes a step for every node on a path, so a path from
the file is shorter than the table (`Path.lt_of_visit`). Where moreover no node is listed twice,
every node has one parent, its ancestors form a chain, and the ordered tree read from the table
shows every node once.

* `not_below_self` — no node lies below itself
* `mem_preorder_root_iff`, `nodup_preorder_branch` — the ordered tree shows every node once
* `Through.eq_or_below`, `Through.ncard_marked` — the nearest ancestor of a kind, and how many
  there are
-/

namespace SourceChunks.SyntaxTree

open RoseTree

variable {t : SyntaxTree} {src : Source}

/-- A node lies strictly below another. -/
def Below (t : SyntaxTree) : Nat → Nat → Prop :=
  Relation.TransGen fun p c => c ∈ t.children p

/-- No node is listed as a child of two nodes, or twice as a child of one. -/
structure EachOnce (t : SyntaxTree) : Prop where
  parent_unique : ∀ p q c, c ∈ t.children p → c ∈ t.children q → p = q
  nodup : ∀ p, (t.children p).Nodup

/-- It is enough that no number occurs twice in the child lists of the table. -/
theorem eachOnce_of_nodup (h : ((List.range t.size).flatMap t.children).Nodup) : t.EachOnce := by
  obtain ⟨hnodup, hdisjoint⟩ := List.nodup_flatMap.mp h
  have hlt : ∀ {p c}, c ∈ t.children p → p ∈ List.range t.size := by
    intro p c hc
    rw [List.mem_range]
    by_contra hle
    rw [children, node, Array.getD_eq_getD_getElem?,
      Array.getElem?_eq_none (Nat.le_of_not_lt hle)] at hc
    cases hc
  constructor
  · intro p q c hp hq
    by_contra hne
    have hsymm : Std.Symm (Function.onFun List.Disjoint t.children) := ⟨fun _ _ h => h.symm⟩
    exact hdisjoint.forall (hlt hp) (hlt hq) hne hp hq
  · intro p
    by_cases hp : p ∈ List.range t.size
    · exact hnodup p hp
    · rw [List.eq_nil_iff_forall_not_mem.mpr fun c hc => hp (hlt hc)]
      exact List.nodup_nil

/-! ## Paths -/

/-- A path down the tree with a number of steps. -/
inductive Path (t : SyntaxTree) : Nat → Nat → Nat → Prop
  | refl (id : Nat) : Path t 0 id id
  | step {n p c x : Nat} (child : c ∈ t.children p) (rest : Path t n c x) : Path t (n + 1) p x

namespace Path

theorem trans {m n a b c : Nat} (hab : t.Path m a b) (hbc : t.Path n b c) :
    t.Path (n + m) a c := by
  induction hab with
  | refl => exact hbc
  | step child _ ih => exact .step child (ih hbc)

theorem reachable {n a b : Nat} (h : t.Path n a b) : t.Reachable a b := by
  induction h with
  | refl => exact Relation.ReflTransGen.refl
  | step child _ ih => exact ih.head child

theorem exists_of_reachable {a b : Nat} (h : t.Reachable a b) : ∃ n, t.Path n a b := by
  induction h using Relation.ReflTransGen.head_induction_on with
  | refl => exact ⟨0, .refl _⟩
  | head child _ ih =>
    obtain ⟨n, hn⟩ := ih
    exact ⟨n + 1, .step child hn⟩

theorem exists_of_below {a b : Nat} (h : t.Below a b) : ∃ n, t.Path (n + 1) a b := by
  obtain ⟨c, hc, hcb⟩ := Relation.TransGen.head'_iff.mp h
  obtain ⟨n, hn⟩ := exists_of_reachable hcb
  exact ⟨n, .step hc hn⟩

/-- A circle can be gone round any number of times. -/
theorem repeat_cycle {n x : Nat} (h : t.Path n x x) (k : Nat) : t.Path (k * n) x x := by
  induction k with
  | zero =>
    rw [Nat.zero_mul]
    exact .refl x
  | succ k ih =>
    rw [Nat.succ_mul, Nat.add_comm]
    exact ih.trans h

/-- The check takes a step for every node of a path. -/
theorem lt_of_visit {steps : Nat} {stack : List Nat} (h : t.visit src steps stack = none)
    {n id x : Nat} (hid : id ∈ stack) (hpath : t.Path n id x) : n < steps := by
  induction steps generalizing stack n id with
  | zero =>
    cases stack with
    | nil => cases hid
    | cons y stack => cases h
  | succ steps ih =>
    cases stack with
    | nil => cases hid
    | cons y stack =>
      rw [visit] at h
      split at h
      · cases h
      · rcases List.mem_cons.mp hid with rfl | hid
        · cases hpath with
          | refl => omega
          | step child rest =>
            have hlt := ih h (List.mem_append_left _ (List.mem_reverse.mpr child)) rest
            omega
        · have hlt := ih h (List.mem_append_right _ hid) hpath
          omega

end Path

/-! ## Consistent trees -/

/-- A path from the file has fewer steps than the table has nodes. -/
theorem Path.lt_size (hcons : t.inconsistency? src = none) {n x : Nat} (h : t.Path n 0 x) :
    n < t.size := by
  rw [inconsistency?] at hcons
  split at hcons
  · cases hcons
  · exact h.lt_of_visit hcons List.mem_cons_self

theorem size_pos (hcons : t.inconsistency? src = none) : 0 < t.size :=
  (Path.refl (t := t) 0).lt_size hcons

/-- **No node of a consistent tree lies below itself.** -/
theorem not_below_self (hcons : t.inconsistency? src = none) {x : Nat} (hx : t.Reachable 0 x) :
    ¬ t.Below x x := by
  intro hcycle
  obtain ⟨m, hm⟩ := Path.exists_of_reachable hx
  obtain ⟨n, hn⟩ := Path.exists_of_below hcycle
  have hlt := (hm.trans (hn.repeat_cycle t.size)).lt_size hcons
  have hle : t.size ≤ t.size * (n + 1) := Nat.le_mul_of_pos_right _ (Nat.succ_pos n)
  omega

/-- The branches of the file are those of its children. -/
theorem children_root (hcons : t.inconsistency? src = none) :
    t.root.children = (t.children 0).map (t.branch (t.size - 1)) := by
  obtain ⟨m, hm⟩ := Nat.exists_eq_succ_of_ne_zero (size_pos hcons).ne'
  rw [root, hm, branch, children_node, Nat.succ_sub_one]

/-! ## The ordered tree -/

theorem preorder_branch_succ (t : SyntaxTree) (m id : Nat) :
    (t.branch (m + 1) id).preorder
      = id :: (t.children id).flatMap fun c => (t.branch m c).preorder := by
  rw [branch, preorder, forestPreorder_eq_flatMap, List.flatMap_map]

/-- A branch shows the nodes that a path no longer than its depth leads to. -/
theorem mem_preorder_branch_iff {m id x : Nat} :
    x ∈ (t.branch m id).preorder ↔ ∃ n ≤ m, t.Path n id x := by
  induction m generalizing id with
  | zero =>
    have hzero : x ∈ (t.branch 0 id).preorder ↔ x = id := List.mem_singleton
    rw [hzero]
    constructor
    · rintro rfl
      exact ⟨0, Nat.le_refl _, .refl _⟩
    · rintro ⟨n, hn, hpath⟩
      cases hpath with
      | refl => rfl
      | step => omega
  | succ m ih =>
    rw [preorder_branch_succ, List.mem_cons, List.mem_flatMap]
    constructor
    · rintro (rfl | ⟨c, hc, hx⟩)
      · exact ⟨0, Nat.zero_le _, .refl _⟩
      · obtain ⟨n, hn, hpath⟩ := ih.mp hx
        exact ⟨n + 1, by omega, .step hc hpath⟩
    · rintro ⟨n, hn, hpath⟩
      cases hpath with
      | refl => exact Or.inl rfl
      | @step n _ c _ hc hrest => exact Or.inr ⟨c, hc, ih.mpr ⟨n, by omega, hrest⟩⟩

/-- At the end of a path from the file, a branch deep enough shows all that can be reached. -/
theorem mem_preorder_branch_iff_reachable (hcons : t.inconsistency? src = none) {k m id x : Nat}
    (hid : t.Path k 0 id) (hm : t.size ≤ k + m + 1) :
    x ∈ (t.branch m id).preorder ↔ t.Reachable id x := by
  rw [mem_preorder_branch_iff]
  constructor
  · rintro ⟨n, -, hpath⟩
    exact hpath.reachable
  · intro hx
    obtain ⟨n, hn⟩ := Path.exists_of_reachable hx
    have hlt := (hid.trans hn).lt_size hcons
    exact ⟨n, by omega, hn⟩

/-- Without its root it shows all that lies below. -/
theorem mem_children_branch_iff_below (hcons : t.inconsistency? src = none) {k m id x : Nat}
    (hid : t.Path k 0 id) (hm : t.size ≤ k + m + 1) :
    x ∈ forestPreorder (t.branch m id).children ↔ t.Below id x := by
  cases m with
  | zero =>
    constructor
    · intro hx
      cases hx
    · intro hx
      obtain ⟨n, hn⟩ := Path.exists_of_below hx
      have hlt := (hid.trans hn).lt_size hcons
      omega
  | succ m =>
    have hshow : ∀ c ∈ t.children id, x ∈ (t.branch m c).preorder ↔ t.Reachable c x := by
      intro c hc
      have hpath := hid.trans (.step hc (.refl c))
      exact mem_preorder_branch_iff_reachable hcons hpath (by omega)
    rw [branch, children_node, forestPreorder_eq_flatMap, List.flatMap_map, List.mem_flatMap]
    constructor
    · rintro ⟨c, hc, hx⟩
      exact Relation.TransGen.head' hc ((hshow c hc).mp hx)
    · intro hx
      obtain ⟨c, hc, hcx⟩ := Relation.TransGen.head'_iff.mp hx
      exact ⟨c, hc, (hshow c hc).mpr hcx⟩

/-- The ordered tree of a file shows every node that can be reached. -/
theorem mem_preorder_root_iff (hcons : t.inconsistency? src = none) {x : Nat} :
    x ∈ t.root.preorder ↔ t.Reachable 0 x :=
  mem_preorder_branch_iff_reachable hcons (.refl 0) (by omega)

/-! ## Unique parents -/

/-- A node with a parent lies below another only through its parent. -/
theorem EachOnce.reachable_parent (honce : t.EachOnce) {a p x : Nat} (hx : x ∈ t.children p)
    (h : t.Below a x) : t.Reachable a p := by
  obtain ⟨q, haq, hq⟩ := Relation.TransGen.tail'_iff.mp h
  rw [honce.parent_unique p q x hx hq]
  exact haq

/-- Of two nodes above a third, one can be reached from the other. -/
theorem EachOnce.reachable_or (honce : t.EachOnce) {a b x : Nat} (ha : t.Reachable a x)
    (hb : t.Reachable b x) : t.Reachable a b ∨ t.Reachable b a := by
  induction ha with
  | refl => exact Or.inr hb
  | @tail y x hay hyx ih =>
    rcases Relation.ReflTransGen.cases_tail hb with rfl | ⟨q, hbq, hq⟩
    · exact Or.inl (hay.tail hyx)
    · rw [honce.parent_unique q y x hq hyx] at hbq
      exact ih hbq

/-- Nothing lies below two children of a node. -/
theorem EachOnce.eq_of_reachable_siblings (honce : t.EachOnce)
    (hcons : t.inconsistency? src = none) {p c d x : Nat} (hp : t.Reachable 0 p)
    (hc : c ∈ t.children p) (hd : d ∈ t.children p) (hcx : t.Reachable c x)
    (hdx : t.Reachable d x) : c = d := by
  -- below one of the two the other could only lie through their parent, round a circle
  have key : ∀ {a b}, a ∈ t.children p → b ∈ t.children p → t.Reachable a b → a = b := by
    intro a b ha hb hab
    rcases Relation.reflTransGen_iff_eq_or_transGen.mp hab with heq | hbelow
    · exact heq.symm
    · have hap := honce.reachable_parent hb hbelow
      exact absurd (Relation.TransGen.head' ha hap) (not_below_self hcons hp)
  rcases honce.reachable_or hcx hdx with h | h
  · exact key hc hd h
  · exact (key hd hc h).symm

/-- **A branch shows no node twice.** -/
theorem nodup_preorder_branch (honce : t.EachOnce) (hcons : t.inconsistency? src = none)
    (m : Nat) {id : Nat} (hid : t.Reachable 0 id) : (t.branch m id).preorder.Nodup := by
  induction m generalizing id with
  | zero => exact List.nodup_singleton id
  | succ m ih =>
    have hreach : ∀ {c x}, x ∈ (t.branch m c).preorder → t.Reachable c x := by
      intro c x hx
      obtain ⟨n, -, hpath⟩ := mem_preorder_branch_iff.mp hx
      exact hpath.reachable
    rw [preorder_branch_succ, List.nodup_cons]
    refine ⟨fun hself => ?_, List.nodup_flatMap.mpr ⟨fun c hc => ih (hid.tail hc), ?_⟩⟩
    · obtain ⟨c, hc, hx⟩ := List.mem_flatMap.mp hself
      exact not_below_self hcons hid (Relation.TransGen.head' hc (hreach hx))
    · refine (honce.nodup id).imp_of_mem fun hc hd hne x hxc hxd => hne ?_
      exact honce.eq_of_reachable_siblings hcons hid hc hd (hreach hxc) (hreach hxd)

/-! ## Nearest ancestors -/

/-- A node lies below another, and no node strictly between them is marked. -/
inductive Through (t : SyntaxTree) (marked : Nat → Prop) (a : Nat) : Nat → Prop
  | child {c : Nat} (child : c ∈ t.children a) : Through t marked a c
  | step {b c : Nat} (above : Through t marked a b) (unmarked : ¬ marked b)
      (child : c ∈ t.children b) : Through t marked a c

namespace Through

variable {marked : Nat → Prop} {a x : Nat}

theorem isBelow (h : t.Through marked a x) : t.Below a x := by
  induction h with
  | child hc => exact .single hc
  | step _ _ hc ih => exact ih.tail hc

/-- Every marked node above is the upper end or lies above it. -/
theorem eq_or_below (h : t.Through marked a x) (honce : t.EachOnce) {b : Nat}
    (hb : t.Below b x) (hmarked : marked b) : b = a ∨ t.Below b a := by
  induction h with
  | child hc =>
    rcases Relation.reflTransGen_iff_eq_or_transGen.mp (honce.reachable_parent hc hb) with h | h
    · exact Or.inl h.symm
    · exact Or.inr h
  | step _ hnot hc ih =>
    rcases Relation.reflTransGen_iff_eq_or_transGen.mp (honce.reachable_parent hc hb) with h | h
    · rw [← h] at hmarked
      exact absurd hmarked hnot
    · exact ih h

/-- There is one marked node more above the lower end than above the upper one. -/
theorem ncard_marked (h : t.Through marked a x) (honce : t.EachOnce)
    (hcons : t.inconsistency? src = none) (hmarked : ∀ b, marked b → t.Reachable 0 b)
    (ha : marked a) :
    {b | t.Below b x ∧ marked b}.ncard = {b | t.Below b a ∧ marked b}.ncard + 1 := by
  have hinsert : {b | t.Below b x ∧ marked b} = insert a {b | t.Below b a ∧ marked b} := by
    ext b
    constructor
    · rintro ⟨hb, hm⟩
      exact (h.eq_or_below honce hb hm).imp id fun hba => ⟨hba, hm⟩
    · rintro (rfl | ⟨hba, hm⟩)
      · exact ⟨h.isBelow, ha⟩
      · exact ⟨hba.trans h.isBelow, hm⟩
  have hfinite : {b | t.Below b a ∧ marked b}.Finite := by
    refine (List.finite_toSet t.root.preorder).subset fun b hb => ?_
    exact (mem_preorder_root_iff hcons).mpr (hmarked b hb.2)
  rw [hinsert, Set.ncard_insert_of_notMem _ hfinite]
  exact fun hself => not_below_self hcons (hmarked a ha) hself.1

end Through

end SourceChunks.SyntaxTree

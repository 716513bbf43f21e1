import SourceChunks.Proofs.Reading
import SourceChunks.Proofs.Records
import SourceChunks.Proofs.Splitting

/-!
# The list of records tells the tree

The records of a sound tree are in the order of their starts, what is below a record follows it at
once, and the parent of a record is the nearest one before it that is one level up. So the depths
alone, read in the order of the list, give the tree back (`RoseTree.ofDepths`).

* `Stacked.ofDepths_preorder` — a stack is read back from its depths
* `Stacked.parent_eq_nearest` — the parent of a chunk is the nearest one before it, one level up
* `ChunkTree.Sound.exists_block` — what is below a chunk follows it at once
* `Chunker.listed_build` — the records of a file list its chunks
-/

namespace SourceChunks

open RoseTree

/-! ## Reading a forest from depths -/

namespace RoseTree

variable {α β : Type}

/-- The forest that a list tells by depths: below an entry are those that follow it and are deeper,
up to the first that is not. -/
def ofDepths (depth : α → Nat) : List α → List (RoseTree α)
  | [] => []
  | a :: as =>
    node a (ofDepths depth (as.takeWhile fun b => depth a < depth b))
      :: ofDepths depth (as.dropWhile fun b => depth a < depth b)
termination_by as => as.length
decreasing_by
  · exact Nat.lt_succ_of_le (List.takeWhile_sublist _).length_le
  · exact Nat.lt_succ_of_le (List.dropWhile_sublist _).length_le

/-- Nothing but the depths is looked at. -/
theorem ofDepths_map (depth : β → Nat) (g : α → β) (as : List α) :
    ofDepths depth (as.map g) = (ofDepths (fun a => depth (g a)) as).map (RoseTree.map g) := by
  fun_induction ofDepths (fun a => depth (g a)) as with
  | case1 => rw [List.map_nil, ofDepths, List.map_nil]
  | case2 a as ihb iha =>
    rw [List.map_cons, ofDepths, List.takeWhile_map, List.dropWhile_map, List.map_cons,
      RoseTree.map, mapAll_eq_map]
    exact congrArg₂ (fun below after => node (g a) below :: after) ihb iha

end RoseTree

namespace Stacked

variable {depth lo hi : Nat} {f : ChunkForest}

/-- The chunks of a stack start one after another. -/
theorem pairwise_start (h : Stacked depth lo hi f) :
    (forestPreorder f).Pairwise fun a b => a.span.start ≤ b.span.start := by
  induction h with
  | nil _ => exact List.Pairwise.nil
  | cons start nonempty level inside after ihi iha =>
    rw [forestPreorder, preorder, List.cons_append]
    refine List.pairwise_cons.mpr ⟨fun b hb => ?_, List.pairwise_append.mpr ⟨ihi, iha, ?_⟩⟩
    · rcases List.mem_append.mp hb with hb | hb
      · exact (inside.chunk_bounds hb).1
      · have hb := (after.chunk_bounds hb).1
        omega
    · intro a ha b hb
      obtain ⟨-, h1, h2⟩ := inside.chunk_bounds ha
      have h3 := (after.chunk_bounds hb).1
      omega

/-- Of what follows a root, the chunks inside it come first, and they are those that are deeper. -/
theorem span_deeper {c : Chunk} {children rest : ChunkForest}
    (h : Stacked depth lo hi (.node c children :: rest)) :
    (forestPreorder children ++ forestPreorder rest).takeWhile (fun d => c.depth < d.depth)
        = forestPreorder children
      ∧ (forestPreorder children ++ forestPreorder rest).dropWhile (fun d => c.depth < d.depth)
        = forestPreorder rest := by
  cases h with
  | cons start nonempty level inside after =>
    have hinside : ∀ d ∈ forestPreorder children, decide (c.depth < d.depth) = true := by
      intro d hd
      have := inside.depth_le hd
      exact decide_eq_true (by omega)
    rw [List.takeWhile_append_of_pos hinside, List.dropWhile_append_of_pos hinside]
    cases after with
    | nil _ => simp [forestPreorder]
    | cons _ _ level' _ _ => simp [forestPreorder, preorder, level, level']

/-- **A stack is read back from the depths of its chunks.** -/
theorem ofDepths_preorder (h : Stacked depth lo hi f) :
    ofDepths Chunk.depth (forestPreorder f) = f := by
  induction h with
  | nil _ => rw [forestPreorder, ofDepths]
  | cons start nonempty level inside after ihi iha =>
    obtain ⟨htake, hdrop⟩ := (cons start nonempty level inside after).span_deeper
    rw [forestPreorder, preorder, List.cons_append, ofDepths, htake, hdrop, ihi, iha]

end Stacked

/-! ## The nearest chunk one level up -/

/-- The first of some chunks that is one level above a depth. -/
def oneAbove? (chunks : List Chunk) (depth : Nat) : Option Chunk :=
  chunks.find? fun q => q.depth + 1 == depth

theorem oneAbove?_append_of_deeper {cs ds : List Chunk} {depth : Nat}
    (h : ∀ c ∈ cs, depth ≤ c.depth) : oneAbove? (cs ++ ds) depth = oneAbove? ds depth := by
  have hnone : cs.find? (fun q => q.depth + 1 == depth) = none := by
    refine List.find?_eq_none.mpr fun c hc => ?_
    have := h c hc
    simp only [beq_iff_eq]
    omega
  rw [oneAbove?, List.find?_append, hnone, Option.none_or, oneAbove?]

/-- **A chunk of a stack hangs from the nearest chunk before it that is one level up**, given that
the same holds of what the stack hangs from; `seen` are the chunks before the stack, last first. -/
theorem Stacked.parent_eq_nearest {depth lo hi : Nat} {f : ChunkForest}
    (h : Stacked depth lo hi f) {seen : List Chunk} {parent : Option Chunk}
    (hparent : oneAbove? seen depth = parent) {before after : List Link} {l : Link}
    (hsplit : forestLinks parent f = before ++ l :: after) :
    l.1 = oneAbove? ((before.map fun k => k.2.label).reverse ++ seen) l.2.label.depth := by
  induction h generalizing seen parent before after with
  | nil _ => cases before <;> cases hsplit
  | @cons depth lo hi c children rest _ _ level inside _ ihi iha =>
    rw [forestLinks_cons] at hsplit
    -- what is listed before a sibling that follows, and does not come from `seen`, is no parent
    have hdeeper : ∀ d ∈ (forestPreorder children).reverse ++ [c], depth ≤ d.depth := by
      intro d hd
      rcases List.mem_append.mp hd with hd | hd
      · exact Nat.le_of_succ_le (inside.depth_le (List.mem_reverse.mp hd))
      · rw [List.mem_singleton.mp hd, level]
    have hafter : oneAbove? ((forestPreorder children).reverse ++ [c] ++ seen) depth = parent := by
      rw [oneAbove?_append_of_deeper hdeeper, hparent]
    have hbelow : oneAbove? (c :: seen) (depth + 1) = some c := by
      rw [oneAbove?, List.find?_cons_of_pos]
      rw [level, beq_self_eq_true]
    cases before with
    | nil =>
      cases hsplit
      rw [List.map_nil, List.reverse_nil, List.nil_append, label_node, level, hparent]
    | cons k before =>
      obtain ⟨rfl, hlinks⟩ := List.cons.inj hsplit
      rw [List.map_cons, List.reverse_cons, label_node, List.append_assoc]
      rcases List.append_eq_append_iff.mp hlinks with ⟨as, rfl, hrest⟩ | ⟨bs, hchildren, hbs⟩
      · rw [List.map_append, map_label_forestLinks, List.reverse_append, List.append_assoc]
        rw [List.append_assoc] at hafter
        exact iha hafter hrest
      · cases bs with
        | nil =>
          rw [List.append_nil] at hchildren
          rw [← hchildren, map_label_forestLinks]
          rw [List.append_assoc] at hafter
          have hrest : forestLinks parent rest = [] ++ l :: after := hbs.symm
          exact iha hafter hrest
        | cons b bs =>
          cases hbs
          exact ihi hbelow hchildren

/-! ## Records -/

namespace ChunkTree

variable {t : ChunkTree} {size : Nat}

/-- The record of a chunk, with the id of the chunk it hangs from. -/
def recordOf (t : ChunkTree) (path : String) (c : Chunk) : Record :=
  Record.ofChunk path t ((t.parentOf c).map fun p => p.id path) c

theorem forestRecords_eq_map (t : ChunkTree) (path : String) (parent : Option Chunk) :
    ∀ f : ChunkForest, t.forestRecords path (parent.map fun p => p.id path) f
      = (forestLinks parent f).map fun l =>
        Record.ofChunk path t (l.1.map fun p => p.id path) l.2.label
  | [] => rfl
  | .node c children :: rest => by
    rw [forestRecords_cons, forestLinks_cons, List.map_cons, List.map_append,
      ← forestRecords_eq_map t path (some c) children, ← forestRecords_eq_map t path parent rest]
    rfl

/-- There is a record for every link. -/
theorem records_eq_map_links (t : ChunkTree) (path : String) :
    t.records path = t.links.map fun l =>
      Record.ofChunk path t (l.1.map fun p => p.id path) l.2.label :=
  forestRecords_eq_map t path none t.roots

/-- There is a record for every chunk. -/
theorem Sound.records_eq_map (h : t.Sound size) (path : String) :
    t.records path = t.chunks.map (t.recordOf path) := by
  rw [records_eq_map_links, chunks, ← map_label_forestLinks none, List.map_map]
  refine List.map_congr_left fun l hl => ?_
  rw [Function.comp_apply, recordOf, h.parentOf_label hl]

/-- **A record names the nearest one before it that is one level up**, if there is one. -/
theorem Sound.parentId_eq (h : t.Sound size) {path : String} {before after : List Record}
    {r : Record} (hsplit : t.records path = before ++ r :: after) :
    r.parentId = (before.reverse.find? fun q => q.depth + 1 == r.depth).map Record.id := by
  rw [records_eq_map_links] at hsplit
  obtain ⟨ls, ks, hlinks, rfl, hks⟩ := List.map_eq_append_iff.mp hsplit
  obtain ⟨l, ks, rfl, rfl, -⟩ := List.map_eq_cons_iff.mp hks
  have hnone : oneAbove? [] 0 = none := rfl
  have hnearest := h.stacked.parent_eq_nearest hnone hlinks
  rw [List.append_nil, oneAbove?, ← List.map_reverse, List.find?_map] at hnearest
  rw [← List.map_reverse, List.find?_map, Option.map_map]
  show l.1.map _ = _
  rw [hnearest, Option.map_map]
  rfl

/-! ## What is below a chunk -/

/-- One chunk hangs from another, directly or through others. -/
def Below (t : ChunkTree) : Chunk → Chunk → Prop :=
  Relation.TransGen fun p c => c ∈ t.childrenOf p

/-- What is below a tree of a forest follows its root at once. -/
theorem exists_block_of_link (parent : Option Chunk) {l : Link} : ∀ {f : ChunkForest},
    l ∈ forestLinks parent f → ∃ before rest,
      forestPreorder f = before ++ l.2.label :: (forestPreorder l.2.children ++ rest)
  | .node c children :: f, hl => by
    rw [forestPreorder, preorder, List.cons_append]
    rw [forestLinks_cons] at hl
    rcases List.mem_cons.mp hl with rfl | hl
    · exact ⟨[], forestPreorder f, rfl⟩
    · rcases List.mem_append.mp hl with hl | hl
      · obtain ⟨before, rest, heq⟩ := exists_block_of_link (some c) hl
        refine ⟨c :: before, rest ++ forestPreorder f, ?_⟩
        rw [heq]
        simp
      · obtain ⟨before, rest, heq⟩ := exists_block_of_link parent hl
        refine ⟨c :: (forestPreorder children ++ before), rest, ?_⟩
        rw [heq]
        simp

namespace Sound

theorem link_of_child {l : Link} (hl : l ∈ t.links) {s : RoseTree Chunk}
    (hs : s ∈ l.2.children) : (some l.2.label, s) ∈ t.links :=
  (mem_forestLinks_iff none _ s t.roots).mpr (Or.inr ⟨l, hl, rfl, hs⟩)

theorem below_of_mem (h : t.Sound size) {l : Link} (hl : l ∈ t.links) {d : Chunk}
    (hd : d ∈ forestPreorder l.2.children) : t.Below l.2.label d := by
  rw [forestPreorder_eq_flatMap] at hd
  obtain ⟨s, hs, hd⟩ := List.mem_flatMap.mp hd
  have hchild : s.label ∈ t.childrenOf l.2.label := by
    rw [h.childrenOf_label hl]
    exact List.mem_map_of_mem hs
  rw [preorder_eq_cons] at hd
  rcases List.mem_cons.mp hd with rfl | hd
  · exact .single hchild
  · exact .head hchild (h.below_of_mem (link_of_child hl hs) hd)
termination_by l.2.count
decreasing_by exact count_lt_of_mem_children hs

theorem mem_of_below (h : t.Sound size) {l : Link} (hl : l ∈ t.links) {d : Chunk}
    (hd : t.Below l.2.label d) : d ∈ forestPreorder l.2.children := by
  -- the tree of every chunk that is reached stands somewhere below that of the first
  have hwithin : ∃ o s, (o, s) ∈ t.links ∧ Within s l.2.children ∧ s.label = d := by
    induction hd with
    | single hc =>
      rw [h.childrenOf_label hl] at hc
      obtain ⟨s, hs, rfl⟩ := List.mem_map.mp hc
      exact ⟨_, s, link_of_child hl hs, .root hs, rfl⟩
    | tail _ hc ih =>
      obtain ⟨o, s, hlink, hs, rfl⟩ := ih
      rw [h.childrenOf_label hlink] at hc
      obtain ⟨u, hu, rfl⟩ := List.mem_map.mp hc
      exact ⟨_, u, link_of_child hlink hu, hs.children hu, rfl⟩
  obtain ⟨-, s, -, hs, rfl⟩ := hwithin
  obtain ⟨o, hlink⟩ := hs.exists_link none
  rw [← map_label_forestLinks none]
  exact List.mem_map_of_mem hlink

/-- **What is below a chunk follows it at once.** -/
theorem exists_block (h : t.Sound size) {c : Chunk} (hc : c ∈ t.chunks) :
    ∃ before below rest, t.chunks = before ++ c :: (below ++ rest)
      ∧ ∀ d, d ∈ below ↔ t.Below c d := by
  obtain ⟨l, hl, rfl⟩ := exists_link_of_mem_chunks hc
  obtain ⟨before, rest, heq⟩ := exists_block_of_link none hl
  exact ⟨before, forestPreorder l.2.children, rest, heq,
    fun _ => ⟨h.below_of_mem hl, h.mem_of_below hl⟩⟩

end Sound

/-- The records of a tree tell its chunks and how they hang together. -/
structure Listed (t : ChunkTree) (path : String) : Prop where
  /-- There is one record for every chunk, in pre-order, and no chunk is there twice. -/
  records : t.records path = t.chunks.map (t.recordOf path)
  nodup : t.chunks.Nodup
  starts : (t.records path).Pairwise fun a b => a.span.start ≤ b.span.start
  /-- What is below a chunk follows it at once. -/
  block : ∀ c ∈ t.chunks, ∃ before below rest, t.chunks = before ++ c :: (below ++ rest)
    ∧ ∀ d, d ∈ below ↔ t.Below c d
  root : ∀ r ∈ t.records path, r.depth = 0 → r.parentId = none
  /-- The parent of a record is the nearest one before it that is one level up. -/
  parent : ∀ before r after, t.records path = before ++ r :: after → r.depth ≠ 0 →
    ∃ p, before.reverse.find? (fun q => q.depth + 1 == r.depth) = some p
      ∧ r.parentId = some p.id
  /-- The depths alone give the tree back. -/
  rebuilt : ofDepths Record.depth (t.records path) = t.roots.map (RoseTree.map (t.recordOf path))

theorem Sound.nodup_chunks (h : t.Sound size) : t.chunks.Nodup := List.Nodup.of_map _ h.nodup

/-- The records of a sound tree list it. -/
theorem Sound.listed (h : t.Sound size) (path : String) : t.Listed path where
  records := h.records_eq_map path
  nodup := h.nodup_chunks
  starts := by
    rw [h.records_eq_map path, List.pairwise_map]
    exact h.stacked.pairwise_start
  block := fun _ hc => h.exists_block hc
  root := by
    intro r hr hzero
    obtain ⟨before, after, hsplit⟩ := List.append_of_mem hr
    have hnone : before.reverse.find? (fun q => q.depth + 1 == r.depth) = none := by
      refine List.find?_eq_none.mpr fun q _ => ?_
      rw [hzero, beq_iff_eq]
      exact Nat.succ_ne_zero _
    rw [h.parentId_eq hsplit, hnone]
    rfl
  parent := by
    intro before r after hsplit hdepth
    have hid := h.parentId_eq hsplit
    cases hfind : before.reverse.find? (fun q => q.depth + 1 == r.depth) with
    | some p => exact ⟨p, rfl, by rw [hid, hfind]; rfl⟩
    | none =>
      -- only roots have no parent, and their depth is 0
      rw [hfind] at hid
      have hr : r ∈ t.records path := hsplit ▸ List.mem_append_right _ List.mem_cons_self
      rw [h.records_eq_map path] at hr
      obtain ⟨c, hc, rfl⟩ := List.mem_map.mp hr
      have hparent : t.parentOf c = none := by simpa [recordOf, Record.ofChunk] using hid
      exact absurd (h.wellNested.depth_of_root c hc hparent) hdepth
  rebuilt := by
    rw [h.records_eq_map path, ofDepths_map]
    exact congrArg _ h.stacked.ofDepths_preorder

end ChunkTree

/-- The chunks of a file are sound if the nodes of its tree cover at least one byte. -/
theorem Chunker.sound_build (k : Chunker) (language : Language) (src : Source) {t : SyntaxTree}
    (hne : t.Nonempty) : (k.build language src t).Sound src.size := by
  have hunits : (k.stages language src t).units.Sound src.size :=
    ChunkTree.sound_ofSyntaxTree k.config language fun _ => hne
  have hdescribed := ChunkTree.sound_described hunits k.rules t src
  exact ChunkTree.sound_withinBounds hdescribed k.config src

/-- **The records of a file list its chunks**: in the order of their starts, what is below a chunk
right after it, parents told by depth. Nothing is asked of the tree but that the nodes that can be
reached cover at least one byte. -/
theorem Chunker.listed_build (k : Chunker) (path : String) (language : Language) (src : Source)
    (t : SyntaxTree) (hne : t.Nonempty) : (k.build language src t).Listed path :=
  (k.sound_build language src hne).listed path

/-- A class that is cut in three, with its method below the middle fragment. -/
theorem listed_build_classWithMethod :
    classWithMethod.Nonempty
      ∧ (Chunker.build ⟨{ minUnitSize := 1, maxUnitSize := 4 }, Rule.builtin⟩ .python
        { text := "c:\n def\n" } classWithMethod).Listed "c.py" := by
  have hne : classWithMethod.Nonempty := SyntaxTree.nonempty_of_closed (by decide) (by decide)
  exact ⟨hne, Chunker.listed_build _ _ _ _ _ hne⟩

end SourceChunks

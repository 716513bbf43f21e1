import Mathlib.Data.List.Chain
import SourceChunks.Proofs.Stages

/-!
# Merging by its specification

Merging cuts the roots into parts. A part is a root that is kept, or a run of trivial roots with the
chunk that stands for it. `Merge.Partition` says which partition it is: runs are as long as the
upper bound allows, one root is not merged by itself unless it opens the file, and the chunk of a
run that opens the file is the only one that is called a preamble.

* `Merge.proper_blocksFrom`, `Merge.isChain_blocksFrom` — the blocks that merging forms
* `Merge.standsFor_of_mem_parts` — the chunks that it makes
* `ChunkTree.partition_mergeTrivial` — what merging does to the roots of a tree
-/

namespace SourceChunks

open RoseTree

/-! ## Blocks -/

namespace Block

variable {cfg : Config} {src : Source}

def first : Block → RoseTree Chunk
  | kept root => root
  | run _ first _ => first

def isRun : Block → Bool
  | kept _ => false
  | run _ _ _ => true

def isLeading : Block → Bool
  | kept _ => false
  | run leading _ _ => leading

/-- A root that stands alone is not trivial. Those of a run are, and the run up to each of them fits
the upper bound. -/
def Proper (cfg : Config) (src : Source) : Block → Prop
  | kept root => Merge.isTrivial cfg src root = false
  | run _ first rest => Merge.isTrivial cfg src first = true
    ∧ ∀ root ∈ rest, Merge.isTrivial cfg src root = true ∧ Merge.fits cfg src first root = true

/-- A run cannot take in the first root of a run that follows it. -/
def Full (cfg : Config) (src : Source) (b c : Block) : Prop :=
  b.isRun = true → c.isRun = true → Merge.fits cfg src b.first c.first = false

theorem full_kept_left (root : RoseTree Chunk) (c : Block) : Full cfg src (kept root) c := by
  intro hrun
  cases hrun

theorem full_kept_right (b : Block) (root : RoseTree Chunk) : Full cfg src b (kept root) := by
  intro _ hrun
  cases hrun

theorem Proper.trivial {b : Block} (h : b.Proper cfg src) (hrun : b.isRun = true) :
    ∀ root ∈ b.members, Merge.isTrivial cfg src root = true := by
  cases b with
  | kept root => cases hrun
  | run leading first rest => exact List.forall_mem_cons.mpr ⟨h.1, fun root hr => (h.2 root hr).1⟩

/-- Trivial roots stand in a run. -/
theorem Proper.isRun {b : Block} (h : b.Proper cfg src)
    (hfirst : Merge.isTrivial cfg src b.first = true) : b.isRun = true := by
  cases b with
  | kept root => exact absurd (hfirst.symm.trans h) (by decide)
  | run leading first rest => rfl

end Block

namespace Merge

variable {cfg : Config} {src : Source} {leading : Bool}
  {open? : Option (RoseTree Chunk × ChunkForest)} {roots : ChunkForest}

/-- The blocks are proper if the open run is. -/
theorem proper_blocksFrom
    (hopen : ∀ first rest, open? = some (first, rest) →
      (Block.run leading first rest).Proper cfg src) :
    ∀ b ∈ blocksFrom cfg src leading open? roots, b.Proper cfg src := by
  fun_induction blocksFrom cfg src leading open? roots with
  | case1 => exact List.forall_mem_nil _
  | case2 leading first rest => exact List.forall_mem_singleton.mpr (hopen first rest rfl)
  | case3 leading root roots htrivial ih =>
    refine ih fun first rest heq => ?_
    cases heq
    exact ⟨htrivial, List.forall_mem_nil _⟩
  | case4 leading root roots htrivial ih =>
    exact List.forall_mem_cons.mpr ⟨eq_false_of_ne_true htrivial, ih (by simp)⟩
  | case5 leading first rest root roots htrivial hfits ih =>
    refine ih fun first' rest' heq => ?_
    cases heq
    obtain ⟨hfirst, hrest⟩ := hopen first rest rfl
    refine ⟨hfirst, List.forall_mem_append.mpr ⟨hrest, ?_⟩⟩
    exact List.forall_mem_singleton.mpr ⟨htrivial, hfits⟩
  | case6 leading first rest root roots htrivial hfits ih =>
    refine List.forall_mem_cons.mpr ⟨hopen first rest rfl, ih fun first' rest' heq => ?_⟩
    cases heq
    exact ⟨htrivial, List.forall_mem_nil _⟩
  | case7 leading first rest root roots htrivial ih =>
    refine List.forall_mem_cons.mpr ⟨hopen first rest rfl, List.forall_mem_cons.mpr ⟨?_, ?_⟩⟩
    · exact eq_false_of_ne_true htrivial
    · exact ih (by simp)

theorem proper_blocks : ∀ b ∈ blocks cfg src roots, b.Proper cfg src :=
  proper_blocksFrom (by simp)

/-- The open run grows into the first block. -/
theorem exists_run_blocksFrom (cfg : Config) (src : Source) (leading : Bool)
    (first : RoseTree Chunk) (rest roots : ChunkForest) :
    ∃ rest' bs, blocksFrom cfg src leading (some (first, rest)) roots
      = .run leading first rest' :: bs := by
  induction roots generalizing rest with
  | nil => exact ⟨rest, [], by rw [blocksFrom]⟩
  | cons root roots ih =>
    rw [blocksFrom]
    split
    · split
      · exact ih (rest ++ [root])
      · exact ⟨rest, _, rfl⟩
    · exact ⟨rest, _, rfl⟩

theorem isChain_blocksFrom :
    (blocksFrom cfg src leading open? roots).IsChain (Block.Full cfg src) := by
  fun_induction blocksFrom cfg src leading open? roots with
  | case1 => exact .nil
  | case2 leading first rest => exact .singleton _
  | case3 leading root roots _ ih => exact ih
  | case4 leading root roots _ ih =>
    exact List.isChain_cons.mpr ⟨fun c _ => Block.full_kept_left root c, ih⟩
  | case5 leading first rest root roots _ _ ih => exact ih
  | case6 leading first rest root roots _ hfits ih =>
    obtain ⟨rest', bs, heq⟩ := exists_run_blocksFrom cfg src false root [] roots
    rw [heq] at ih ⊢
    exact .cons_cons (fun _ _ => eq_false_of_ne_true hfits) ih
  | case7 leading first rest root roots _ ih =>
    refine .cons_cons (Block.full_kept_right _ root) ?_
    exact List.isChain_cons.mpr ⟨fun c _ => Block.full_kept_left root c, ih⟩

/-- Once the file is no longer at its start no run is leading. -/
theorem not_isLeading_blocksFrom (hleading : leading = false) :
    ∀ b ∈ blocksFrom cfg src leading open? roots, b.isLeading = false := by
  fun_induction blocksFrom cfg src leading open? roots with
  | case1 => exact List.forall_mem_nil _
  | case2 leading first rest => exact List.forall_mem_singleton.mpr hleading
  | case3 leading root roots _ ih => exact ih hleading
  | case4 leading root roots _ ih => exact List.forall_mem_cons.mpr ⟨rfl, ih rfl⟩
  | case5 leading first rest root roots _ _ ih => exact ih hleading
  | case6 leading first rest root roots _ _ ih => exact List.forall_mem_cons.mpr ⟨hleading, ih rfl⟩
  | case7 leading first rest root roots _ ih =>
    exact List.forall_mem_cons.mpr ⟨hleading, List.forall_mem_cons.mpr ⟨rfl, ih rfl⟩⟩

/-- Only the first block can be a leading run. -/
theorem not_isLeading_tail :
    ∀ b ∈ (blocksFrom cfg src leading open? roots).tail, b.isLeading = false := by
  fun_induction blocksFrom cfg src leading open? roots with
  | case1 => exact List.forall_mem_nil _
  | case2 leading first rest => exact List.forall_mem_nil _
  | case3 leading root roots _ ih => exact ih
  | case4 leading root roots _ _ => exact not_isLeading_blocksFrom rfl
  | case5 leading first rest root roots _ _ ih => exact ih
  | case6 leading first rest root roots _ _ _ => exact not_isLeading_blocksFrom rfl
  | case7 leading first rest root roots _ _ =>
    exact List.forall_mem_cons.mpr ⟨rfl, not_isLeading_blocksFrom rfl⟩

/-- The first block is a leading run if the first root is trivial. -/
theorem exists_leading_blocks {root : RoseTree Chunk} (htrivial : isTrivial cfg src root = true)
    (roots : ChunkForest) :
    ∃ rest bs, blocks cfg src (root :: roots) = .run true root rest :: bs := by
  rw [blocks, blocksFrom, if_pos htrivial]
  exact exists_run_blocksFrom cfg src true root [] roots

/-! ## Parts -/

/-- A root that is kept, or a run of roots and the chunk that stands for it. -/
inductive Part
  | kept (root : RoseTree Chunk)
  | merged (first : RoseTree Chunk) (rest : ChunkForest) (chunk : Chunk)

namespace Part

def members : Part → ChunkForest
  | kept root => [root]
  | merged first rest _ => first :: rest

def first : Part → RoseTree Chunk
  | kept root => root
  | merged first _ _ => first

/-- The root that the part leaves. -/
def outcome : Part → RoseTree Chunk
  | kept root => root
  | merged _ _ chunk => .node chunk []

/-- Whether the part is a run whose chunk is called a preamble. -/
def isPreamble : Part → Bool
  | kept _ => false
  | merged _ _ chunk => chunk.name == "<preamble>"

theorem head?_members (p : Part) : p.members.head? = some p.first := by
  cases p <;> rfl

end Part

/-- The part that a block becomes; a new chunk gets the number `next`. -/
def part (src : Source) (next : Nat) : Block → Part
  | .kept root => .kept root
  | .run leading first rest =>
    if leading || !rest.isEmpty then
      .merged first rest
        (merged src next leading first.label.span.start (rest.getLastD first).label.span.stop)
    else .kept first

/-- The parts that blocks become. -/
def parts (src : Source) (next : Nat) : List Block → List Part
  | [] => []
  | b :: bs => part src next b :: parts src (emit src next b).2 bs

theorem outcome_part (src : Source) (next : Nat) (b : Block) :
    (emit src next b).1 = [(part src next b).outcome] := by
  cases b with
  | kept root => rfl
  | run leading first rest =>
    rw [emit, part]
    split <;> rfl

theorem members_part (src : Source) (next : Nat) (b : Block) :
    (part src next b).members = b.members := by
  cases b with
  | kept root => rfl
  | run leading first rest =>
    rw [part]
    split
    · rfl
    · next hsmall =>
      have hrest : rest = [] := by simp_all
      rw [hrest]
      rfl

theorem first_part (src : Source) (next : Nat) (b : Block) : (part src next b).first = b.first := by
  cases b with
  | kept root => rfl
  | run leading first rest =>
    rw [part]
    split <;> rfl

theorem map_outcome_parts (src : Source) (next : Nat) (bs : List Block) :
    (parts src next bs).map Part.outcome = (emitAll src next bs).1 := by
  induction bs generalizing next with
  | nil => rfl
  | cons b bs ih =>
    show _ = (emit src next b).1 ++ (emitAll src (emit src next b).2 bs).1
    rw [parts, List.map_cons, ih, outcome_part]
    rfl

theorem flatMap_members_parts (src : Source) (next : Nat) (bs : List Block) :
    (parts src next bs).flatMap Part.members = bs.flatMap Block.members := by
  induction bs generalizing next with
  | nil => rfl
  | cons b bs ih => rw [parts, List.flatMap_cons, List.flatMap_cons, ih, members_part]

theorem exists_block_of_mem_parts {next : Nat} {bs : List Block} {p : Part}
    (hp : p ∈ parts src next bs) : ∃ b ∈ bs, ∃ i, p = part src i b := by
  induction bs generalizing next with
  | nil => cases hp
  | cons b bs ih =>
    rcases List.mem_cons.mp hp with rfl | hp
    · exact ⟨b, List.mem_cons_self, next, rfl⟩
    · obtain ⟨c, hc, h⟩ := ih hp
      exact ⟨c, List.mem_cons_of_mem _ hc, h⟩

theorem exists_block_of_mem_tail_parts {next : Nat} {bs : List Block} {p : Part}
    (hp : p ∈ (parts src next bs).tail) : ∃ b ∈ bs.tail, ∃ i, p = part src i b := by
  cases bs with
  | nil => cases hp
  | cons b bs => exact exists_block_of_mem_parts hp

/-- What holds of neighbouring blocks holds of neighbouring parts. -/
theorem isChain_parts {R : Block → Block → Prop} {S : Part → Part → Prop} {next : Nat}
    {bs : List Block} (h : bs.IsChain R) (hRS : ∀ b ∈ bs, ∀ c ∈ bs, ∀ i j, R b c →
      S (part src i b) (part src j c)) : (parts src next bs).IsChain S := by
  induction bs generalizing next with
  | nil => exact .nil
  | cons b bs ih =>
    cases bs with
    | nil => exact .singleton _
    | cons c bs =>
      obtain ⟨hbc, hbs⟩ := List.isChain_cons_cons.mp h
      refine .cons_cons ?_ (ih hbs fun b' hb c' hc => ?_)
      · exact hRS b List.mem_cons_self c (List.mem_cons_of_mem _ List.mem_cons_self) _ _ hbc
      · exact hRS b' (List.mem_cons_of_mem _ hb) c' (List.mem_cons_of_mem _ hc)

/-! ## The chunks that stand for runs -/

/-- A chunk stands for a run of trivial roots: it covers them, and splitting leaves it as it is. -/
structure StandsFor (cfg : Config) (src : Source) (first : RoseTree Chunk) (rest : ChunkForest)
    (chunk : Chunk) : Prop where
  trivial : ∀ root ∈ first :: rest, isTrivial cfg src root = true
  kind : chunk.kind = .moduleDef
  synthetic : chunk.isSynthetic = true
  depth : chunk.depth = 0
  span : chunk.span
    = src.span first.label.span.start (rest.getLastD first).label.span.stop
  fits : src.measure cfg.sizeUnit chunk.span ≤ cfg.maxUnitSize
  uncut : ∀ next, Split.splitTree cfg src next (.node chunk []) = ([.node chunk []], next)

/-- A run fits the upper bound: the last root was taken in, or it is the only one and trivial. -/
theorem measure_run (hbounds : cfg.minUnitSize ≤ cfg.maxUnitSize) {first : RoseTree Chunk}
    {rest : ChunkForest} (h : (Block.run leading first rest).Proper cfg src)
    (hspan : rest = [] →
      first.label.span = src.span first.label.span.start first.label.span.stop) :
    src.measureRange cfg.sizeUnit first.label.span.start (rest.getLastD first).label.span.stop
      ≤ cfg.maxUnitSize := by
  rcases List.eq_nil_or_concat' rest with rfl | ⟨init, last, rfl⟩
  · have hsmall : src.measure cfg.sizeUnit first.label.span < cfg.minUnitSize := by
      have htrivial := h.1
      simp only [isTrivial, Bool.and_eq_true, decide_eq_true_eq] at htrivial
      exact htrivial.2
    rw [hspan rfl] at hsmall
    exact Nat.le_trans (Nat.le_of_lt hsmall) hbounds
  · rw [List.getLastD_concat]
    have hlast := (h.2 last (List.mem_append_right _ List.mem_cons_self)).2
    simpa [fits] using hlast

/-- A chunk without children that fits the upper bound is not cut. -/
theorem splitTree_of_fits {c : Chunk} (h : src.measure cfg.sizeUnit c.span ≤ cfg.maxUnitSize)
    (next : Nat) : Split.splitTree cfg src next (.node c []) = ([.node c []], next) := by
  rw [Split.splitTree, Split.pieces, if_neg (Nat.not_lt_of_le h), Split.splitEach]
  rfl

theorem standsFor_merged (hbounds : cfg.minUnitSize ≤ cfg.maxUnitSize) {first : RoseTree Chunk}
    {rest : ChunkForest} (h : (Block.run leading first rest).Proper cfg src)
    (hspan : rest = [] →
      first.label.span = src.span first.label.span.start first.label.span.stop) (index : Nat) :
    StandsFor cfg src first rest (merged src index leading first.label.span.start
      (rest.getLastD first).label.span.stop) := by
  have hfits := measure_run hbounds h hspan
  exact ⟨h.trivial rfl, rfl, rfl, rfl, rfl, hfits, splitTree_of_fits hfits⟩

/-- A part that is merged comes from a run with more than one root, or from the leading one. -/
theorem eq_run_of_part {b : Block} {index : Nat} {first : RoseTree Chunk} {rest : ChunkForest}
    {chunk : Chunk} (h : Part.merged first rest chunk = part src index b) :
    b = .run b.isLeading first rest ∧ (b.isLeading = true ∨ rest ≠ [])
      ∧ chunk = merged src index b.isLeading first.label.span.start
        (rest.getLastD first).label.span.stop := by
  cases b with
  | kept root => cases h
  | run leading first' rest' =>
    rw [part] at h
    split at h
    · next hlarge =>
      cases h
      exact ⟨rfl, by simpa [Block.isLeading] using hlarge, rfl⟩
    · cases h

/-- Only the chunk of a leading run is called a preamble. -/
theorem isPreamble_part (src : Source) (index : Nat) (b : Block) :
    (part src index b).isPreamble = b.isLeading := by
  cases b with
  | kept root => rfl
  | run leading first rest =>
    cases leading with
    | true => rfl
    | false =>
      rw [part]
      split
      · have hname : ∀ place : String, "<module@" ++ place ++ ">" ≠ "<preamble>" := by
          intro place heq
          have hchars := congrArg String.toList heq
          simp at hchars
        exact beq_false_of_ne (hname _)
      · rfl

/-! ## The partition -/

/-- What merging does to roots: `result` is what the parts of `roots` leave. -/
structure Partition (cfg : Config) (src : Source) (roots result : ChunkForest)
    (parts : List Part) : Prop where
  /-- The parts are the roots in order, none left out. -/
  members : parts.flatMap Part.members = roots
  outcome : parts.map Part.outcome = result
  /-- A root that is not trivial is kept. -/
  nontrivial : ∀ p ∈ parts, ∀ root ∈ p.members, isTrivial cfg src root = false → p = .kept root
  /-- Only trivial roots are merged, into a chunk that covers them and is within the bound. -/
  standsFor : ∀ first rest chunk, Part.merged first rest chunk ∈ parts →
    StandsFor cfg src first rest chunk
  /-- A root is not merged by itself unless it opens the file. -/
  several : ∀ first rest chunk, Part.merged first rest chunk ∈ parts.tail → rest ≠ []
  preamble_once : parts.countP Part.isPreamble ≤ 1
  preamble_iff : (∃ p ∈ parts, p.isPreamble = true)
    ↔ ∃ root ∈ roots.head?, isTrivial cfg src root = true
  preamble_first : ∀ p ∈ parts, p.isPreamble = true →
    parts.head? = some p ∧ p.outcome.label.span.start = 0
  /-- A part of trivial roots cannot take in the first root of another that follows it. -/
  maximal : parts.IsChain fun p q => (∀ root ∈ p.members, isTrivial cfg src root = true) →
    (∀ root ∈ q.members, isTrivial cfg src root = true) →
    cfg.maxUnitSize
      < src.measureRange cfg.sizeUnit p.first.label.span.start q.first.label.span.stop

variable {next : Nat}

/-- After the first part a root is not merged by itself. -/
theorem rest_ne_nil_of_mem_tail {first : RoseTree Chunk} {rest : ChunkForest} {chunk : Chunk}
    (h : Part.merged first rest chunk ∈ (parts src next (blocks cfg src roots)).tail) :
    rest ≠ [] := by
  obtain ⟨b, hb, index, heq⟩ := exists_block_of_mem_tail_parts h
  obtain ⟨-, hlarge, -⟩ := eq_run_of_part heq
  exact hlarge.resolve_left (ne_true_of_eq_false (not_isLeading_tail b hb))

/-- Only the first part can be a preamble. -/
theorem not_isPreamble_tail :
    ∀ p ∈ (parts src next (blocks cfg src roots)).tail, p.isPreamble = false := by
  intro p hp
  obtain ⟨b, hb, index, rfl⟩ := exists_block_of_mem_tail_parts hp
  rw [isPreamble_part]
  exact not_isLeading_tail b hb

theorem head?_of_isPreamble {ps : List Part} (htail : ∀ p ∈ ps.tail, p.isPreamble = false)
    {p : Part} (hp : p ∈ ps) (hpreamble : p.isPreamble = true) : ps.head? = some p := by
  cases ps with
  | nil => cases hp
  | cons q qs =>
    rcases List.mem_cons.mp hp with rfl | hp
    · rfl
    · exact absurd (hpreamble.symm.trans (htail p hp)) (by decide)

theorem countP_isPreamble_le {ps : List Part} (htail : ∀ p ∈ ps.tail, p.isPreamble = false) :
    ps.countP Part.isPreamble ≤ 1 := by
  cases ps with
  | nil => exact Nat.zero_le _
  | cons p ps =>
    have hzero : ps.countP Part.isPreamble = 0 :=
      List.countP_eq_zero.mpr fun q hq => ne_true_of_eq_false (htail q hq)
    rw [List.countP_cons, hzero]
    split <;> decide

/-- The first root is the first of the first part. -/
theorem head?_flatMap_members {ps : List Part} {p : Part} (h : ps.head? = some p) :
    (ps.flatMap Part.members).head? = some p.first := by
  cases ps with
  | nil => cases h
  | cons q qs =>
    cases h
    rw [List.flatMap_cons, List.head?_append, p.head?_members]
    rfl

/-- A preamble is the first part, and its first root is trivial. -/
theorem trivial_of_isPreamble {p : Part} (hp : p ∈ parts src next (blocks cfg src roots))
    (hpreamble : p.isPreamble = true) :
    roots.head? = some p.first ∧ isTrivial cfg src p.first = true := by
  have hhead := head?_flatMap_members (head?_of_isPreamble not_isPreamble_tail hp hpreamble)
  rw [flatMap_members_parts, blocks, flatMap_members_blocksFrom] at hhead
  refine ⟨hhead, ?_⟩
  obtain ⟨b, hb, index, rfl⟩ := exists_block_of_mem_parts hp
  rw [isPreamble_part] at hpreamble
  rw [first_part]
  have hproper := proper_blocks b hb
  cases b with
  | kept root => cases hpreamble
  | run leading first rest => exact hproper.1

/-- What is merged has a chunk that stands for it. Only the first root may be merged by itself, so
only its span has to have the lines of its bytes. -/
theorem standsFor_of_mem_parts (hbounds : cfg.minUnitSize ≤ cfg.maxUnitSize)
    (hspan : ∀ root ∈ roots.head?,
      root.label.span = src.span root.label.span.start root.label.span.stop)
    {first : RoseTree Chunk} {rest : ChunkForest} {chunk : Chunk}
    (h : Part.merged first rest chunk ∈ parts src next (blocks cfg src roots)) :
    StandsFor cfg src first rest chunk := by
  obtain ⟨b, hb, index, heq⟩ := exists_block_of_mem_parts h
  obtain ⟨hrun, hlarge, hchunk⟩ := eq_run_of_part heq
  have hproper := proper_blocks b hb
  rw [hrun] at hproper
  rw [hchunk]
  refine standsFor_merged hbounds hproper (fun hnil => ?_) index
  have hpreamble : (Part.merged first rest chunk).isPreamble = true := by
    rw [heq, isPreamble_part]
    exact hlarge.resolve_right fun hne => hne hnil
  exact hspan first (trivial_of_isPreamble h hpreamble).1

/-- There is a preamble if the first root is trivial. -/
theorem exists_isPreamble {root : RoseTree Chunk} (hroot : root ∈ roots.head?)
    (htrivial : isTrivial cfg src root = true) :
    ∃ p ∈ parts src next (blocks cfg src roots), p.isPreamble = true := by
  cases roots with
  | nil => cases hroot
  | cons r rs =>
    cases hroot
    obtain ⟨rest, bs, heq⟩ := exists_leading_blocks htrivial rs
    rw [heq]
    exact ⟨_, List.mem_cons_self, isPreamble_part ..⟩

theorem isChain_maximal_parts :
    (parts src next (blocks cfg src roots)).IsChain fun p q =>
      (∀ root ∈ p.members, isTrivial cfg src root = true) →
      (∀ root ∈ q.members, isTrivial cfg src root = true) →
      cfg.maxUnitSize
        < src.measureRange cfg.sizeUnit p.first.label.span.start q.first.label.span.stop := by
  refine isChain_parts isChain_blocksFrom fun b hb c hc i j hfull hp hq => ?_
  have hfirst : ∀ p : Part, p.first ∈ p.members := fun p => List.mem_of_mem_head? p.head?_members
  have hb' := hp _ (hfirst _)
  have hc' := hq _ (hfirst _)
  rw [first_part] at hb' hc' ⊢
  rw [first_part]
  have hnot := hfull ((proper_blocks b hb).isRun hb') ((proper_blocks c hc).isRun hc')
  simpa [fits] using hnot

end Merge

theorem start_of_head? {lo hi : Nat} {f : ChunkForest} (h : Tiles lo hi (rootRanges f))
    {root : RoseTree Chunk} (hroot : f.head? = some root) : root.label.span.start = lo := by
  cases f with
  | nil => cases hroot
  | cons r rs =>
    cases hroot
    exact h.1

namespace ChunkTree

/-- **Merging partitions the roots of a tree**, which tile the text. The first of them may be merged
by itself, so its span must have the lines of its bytes. -/
theorem partition_mergeTrivial (cfg : Config) (src : Source) (t : ChunkTree)
    (hbounds : cfg.minUnitSize ≤ cfg.maxUnitSize)
    (htiles : Tiles 0 src.size (rootRanges t.roots))
    (hspan : ∀ root ∈ t.roots.head?,
      root.label.span = src.span root.label.span.start root.label.span.stop) :
    ∃ parts, Merge.Partition cfg src t.roots (t.mergeTrivial cfg src).roots parts := by
  have hstands : ∀ first rest chunk,
      .merged first rest chunk ∈ Merge.parts src t.made (Merge.blocks cfg src t.roots) →
      Merge.StandsFor cfg src first rest chunk :=
    fun _ _ _ h => Merge.standsFor_of_mem_parts hbounds hspan h
  exact ⟨Merge.parts src t.made (Merge.blocks cfg src t.roots), {
    members := by
      rw [Merge.flatMap_members_parts, Merge.blocks, Merge.flatMap_members_blocksFrom]
      rfl
    outcome := Merge.map_outcome_parts ..
    nontrivial := fun p hp root hroot hnot => by
      cases p with
      | kept r => rw [List.mem_singleton.mp hroot]
      | merged first rest chunk =>
        have htrivial := (hstands first rest chunk hp).trivial root hroot
        exact absurd htrivial (ne_true_of_eq_false hnot)
    standsFor := hstands
    several := fun _ _ _ h => Merge.rest_ne_nil_of_mem_tail h
    preamble_once := Merge.countP_isPreamble_le Merge.not_isPreamble_tail
    preamble_iff := by
      constructor
      · rintro ⟨p, hp, hpreamble⟩
        exact ⟨p.first, Merge.trivial_of_isPreamble hp hpreamble⟩
      · rintro ⟨root, hroot, htrivial⟩
        exact Merge.exists_isPreamble hroot htrivial
    preamble_first := fun p hp hpreamble => by
      refine ⟨Merge.head?_of_isPreamble Merge.not_isPreamble_tail hp hpreamble, ?_⟩
      obtain ⟨hhead, -⟩ := Merge.trivial_of_isPreamble hp hpreamble
      cases p with
      | kept root => cases hpreamble
      | merged first rest chunk =>
        show chunk.span.start = 0
        rw [(hstands first rest chunk hp).span]
        exact start_of_head? htiles hhead
    maximal := Merge.isChain_maximal_parts }⟩

/-- Seven lines of two bytes each. -/
def sevenLines : Source := { text := "a\nb\nc\nd\ne\nf\ng\n" }

/-- A root over one of the seven lines. -/
def lineRoot (origin : Origin) (line : Nat) : RoseTree Chunk :=
  .node {
    index := line
    kind := .other
    name := ""
    span := sevenLines.span (2 * line) (2 * line + 2)
    depth := 0
    origin := origin } []

/-- A definition with three gaps before it and three after it. -/
def definitionAmongGaps : ChunkTree where
  language := .python
  roots := [lineRoot .gap 0, lineRoot .gap 1, lineRoot .gap 2, lineRoot .definition 3,
    lineRoot .gap 4, lineRoot .gap 5, lineRoot .gap 6]
  made := 7

/-- With room for two lines, two gaps are merged on either side and one is left over. -/
theorem partition_mergeTrivial_definitionAmongGaps :
    (definitionAmongGaps.mergeTrivial { minUnitSize := 2, maxUnitSize := 2, sizeUnit := .lines }
        sevenLines).roots.map (fun root => root.label.name)
        = ["<preamble>", "", "", "<module@5:1>", ""]
      ∧ ∃ parts, Merge.Partition { minUnitSize := 2, maxUnitSize := 2, sizeUnit := .lines }
        sevenLines definitionAmongGaps.roots
        (definitionAmongGaps.mergeTrivial { minUnitSize := 2, maxUnitSize := 2, sizeUnit := .lines }
          sevenLines).roots parts := by
  refine ⟨by decide +kernel, partition_mergeTrivial _ _ _ (by decide) ?_ ?_⟩
  · show Tiles 0 14 [⟨0, 2⟩, ⟨2, 4⟩, ⟨4, 6⟩, ⟨6, 8⟩, ⟨8, 10⟩, ⟨10, 12⟩, ⟨12, 14⟩]
    simp [Tiles]
  · simp [definitionAmongGaps, lineRoot, Source.span]

end ChunkTree

end SourceChunks

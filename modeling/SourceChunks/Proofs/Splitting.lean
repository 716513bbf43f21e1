import SourceChunks.Proofs.Links

/-!
# What a chunk leaves when it is split

`Split.Leaves` says what stands for a chunk after splitting: the chunk itself if it is one piece,
else its fragments. `Split.Splits` says the same of a forest: what each tree has left holds what
its children have left. Splitting a forest gives what it has to give (`Split.splits_splitEach`), and
whatever is said of the chunks afterwards follows from that, without a look at how they are
numbered.

* `Split.Leaves.eq_or_splitFrom` — what a chunk leaves is the chunk, or names its span
* `Split.Splits.exists_leaves_of_mem` — a chunk is left by a chunk that was there before
* `Split.Splits.within_of_link` — what a chunk has left stands together below one parent
-/

namespace SourceChunks

open RoseTree

/-! ## Trees within a forest -/

/-- A tree stands somewhere in a forest. -/
inductive Within (t : RoseTree Chunk) : ChunkForest → Prop
  | root {f : ChunkForest} (mem : t ∈ f) : Within t f
  | inside {f : ChunkForest} {s : RoseTree Chunk} (mem : s ∈ f) (within : Within t s.children) :
      Within t f

namespace Within

variable {t : RoseTree Chunk} {f g : ChunkForest}

theorem mono (h : Within t f) (hsub : f ⊆ g) : Within t g := by
  cases h with
  | root mem => exact root (hsub mem)
  | inside mem within => exact inside (hsub mem) within

theorem children {s : RoseTree Chunk} (h : Within t f) (hs : s ∈ t.children) : Within s f := by
  induction h with
  | root mem => exact inside mem (root hs)
  | inside mem _ ih => exact inside mem ih

theorem exists_link (h : Within t f) (parent : Option Chunk) :
    ∃ o, (o, t) ∈ forestLinks parent f := by
  induction h generalizing parent with
  | root mem => exact ⟨parent, (mem_forestLinks_iff parent parent t _).mpr (Or.inl ⟨rfl, mem⟩)⟩
  | @inside f s mem _ ih =>
    obtain ⟨o, ho⟩ := ih (some s.label)
    refine ⟨o, ?_⟩
    rw [forestLinks_eq_flatMap]
    refine List.mem_flatMap.mpr ⟨s, mem, ?_⟩
    cases s with
    | node c children => exact List.mem_cons_of_mem _ ho

/-- The chunks below a tree are read in the same order in the forest. -/
theorem preorder_children_sublist (h : Within t f) :
    (forestPreorder t.children).Sublist (forestPreorder f) := by
  have hroot : ∀ {s : RoseTree Chunk} {f : ChunkForest}, s ∈ f →
      (forestPreorder s.children).Sublist (forestPreorder f) := by
    intro s f hs
    have hbelow : (forestPreorder s.children).Sublist s.preorder := by
      rw [preorder_eq_cons]
      exact List.sublist_cons_self _ _
    rw [forestPreorder_eq_flatMap f, List.flatMap_def]
    exact hbelow.trans (List.sublist_flatten_of_mem (List.mem_map_of_mem hs))
  induction h with
  | root mem => exact hroot mem
  | inside mem _ ih => exact ih.trans (hroot mem)

end Within

/-- The roots are read in order. -/
theorem labels_sublist_preorder (f : ChunkForest) :
    (f.map RoseTree.label).Sublist (forestPreorder f) := by
  induction f with
  | nil => exact List.Sublist.refl _
  | cons t f ih =>
    rw [List.map_cons, forestPreorder, preorder_eq_cons, List.cons_append]
    exact (ih.trans (List.sublist_append_right _ _)).cons_cons _

namespace Split

variable {cfg : Config} {src : Source} {c : Chunk} {children : ChunkForest}

/-! ## One chunk -/

/-- What a chunk leaves: itself if it is to be one piece, else its fragments. -/
inductive Leaves (cfg : Config) (src : Source) (c : Chunk) (children : ChunkForest) :
    List Chunk → Prop
  | whole (single : (pieces cfg src c children).length < 2) : Leaves cfg src c children [c]
  | cut (next : Nat) (several : 2 ≤ (pieces cfg src c children).length) :
      Leaves cfg src c children (fragments src.lines c next (pieces cfg src c children))

@[simp]
theorem length_fragments (lines : LineIndex) (c : Chunk) (next : Nat) (rs : List ByteRange) :
    (fragments lines c next rs).length = rs.length := by
  have h := congrArg List.length (map_index_fragments lines c next rs)
  rwa [List.length_map, List.length_range'] at h

namespace Leaves

variable {group : List Chunk}

theorem ne_nil (h : Leaves cfg src c children group) : group ≠ [] := by
  cases h with
  | whole _ => exact List.cons_ne_nil _ _
  | cut next several =>
    intro hnil
    have hlen := congrArg List.length hnil
    rw [length_fragments, List.length_nil] at hlen
    omega

theorem nodup_index (h : Leaves cfg src c children group) : (group.map Chunk.index).Nodup := by
  cases h with
  | whole _ => exact List.nodup_singleton _
  | cut next _ => exact nodup_index_fragments _ _ _ _

theorem depth_of_mem (h : Leaves cfg src c children group) {f : Chunk} (hf : f ∈ group) :
    f.depth = c.depth := by
  cases h with
  | whole _ => rw [List.mem_singleton.mp hf]
  | cut next _ => exact depth_of_mem_fragments _ _ hf

/-- What a chunk leaves is the chunk, or names its span. -/
theorem eq_or_splitFrom (h : Leaves cfg src c children group) {f : Chunk} (hf : f ∈ group) :
    f = c ∨ f.splitFrom = some c.span := by
  cases h with
  | whole _ => exact Or.inl (List.mem_singleton.mp hf)
  | cut next _ =>
    have hfrom : ∀ f ∈ fragments src.lines c next (pieces cfg src c children),
        f.splitFrom = some c.span := forall_fragments fun _ _ _ => ⟨rfl, rfl⟩
    exact Or.inr (hfrom f hf)

/-- What a chunk leaves tiles it. -/
theorem tiles (h : Leaves cfg src c children group) (hle : c.span.start ≤ c.span.stop) :
    Tiles c.span.start c.span.stop (group.map fun f => f.span.toByteRange) := by
  cases h with
  | whole _ => exact ⟨rfl, hle, rfl⟩
  | cut next _ =>
    rw [map_range_fragments]
    exact (cutInto_pieces cfg src children hle).tiles

end Leaves

/-! ## A forest -/

/-- What has become of the trees of a forest, one by one. -/
inductive Splits (cfg : Config) (src : Source) : ChunkForest → List Placed → Prop
  | nil : Splits cfg src [] []
  | cons {c : Chunk} {children rest : ChunkForest} {group : List Chunk} {below after : List Placed}
      (leaves : Leaves cfg src c children group) (inside : Splits cfg src children below)
      (beside : Splits cfg src rest after) :
      Splits cfg src (.node c children :: rest) ((c.span, distribute group below) :: after)

/-- A chunk that stays whole keeps all its children. -/
theorem distribute_singleton (c : Chunk) (placed : List Placed) :
    distribute [c] placed = [.node c (placed.flatMap Prod.snd)] := by
  have howns : ∀ span, owns [c] c span = true := by
    intro span
    obtain ⟨f, hf⟩ := exists_owner? (List.cons_ne_nil c []) span
    refine owns_iff.mpr ⟨f, hf, ?_⟩
    rw [List.mem_singleton.mp (mem_of_owner? hf)]
  simp [distribute, howns]

mutual

theorem splits_splitTree (cfg : Config) (src : Source) : ∀ (next : Nat) (t : RoseTree Chunk),
    ∃ group below, Leaves cfg src t.label t.children group ∧ Splits cfg src t.children below
      ∧ (splitTree cfg src next t).1 = distribute group below
  | next, .node c children => by
    rw [splitTree]
    split
    · next first second rest hpieces =>
      have hseveral : 2 ≤ (pieces cfg src c children).length := by
        rw [hpieces, List.length_cons, List.length_cons]
        omega
      rw [← hpieces]
      exact ⟨_, _, .cut next hseveral, splits_splitEach cfg src _ children, rfl⟩
    · next hnot =>
      have hsingle : (pieces cfg src c children).length < 2 := by
        match hpieces : pieces cfg src c children with
        | [] => exact Nat.zero_lt_two
        | [_] => exact Nat.one_lt_two
        | first :: second :: rest => exact absurd hpieces (hnot first second rest)
      exact ⟨_, _, .whole hsingle, splits_splitEach cfg src next children,
        (distribute_singleton c _).symm⟩

/-- **Splitting a forest gives what it has to give.** -/
theorem splits_splitEach (cfg : Config) (src : Source) : ∀ (next : Nat) (f : ChunkForest),
    Splits cfg src f (splitEach cfg src next f).1
  | _, [] => .nil
  | next, t :: f => by
    obtain ⟨group, below, hleaves, hbelow, heq⟩ := splits_splitTree cfg src next t
    have h := Splits.cons hleaves hbelow (splits_splitEach cfg src (splitTree cfg src next t).2 f)
    rw [node_label_children, ← heq] at h
    exact h

end

namespace Splits

variable {f : ChunkForest} {placed : List Placed}

/-- A chunk is left by a chunk that was there before. -/
theorem exists_leaves_of_mem (h : Splits cfg src f placed) (parent : Option Chunk) {x : Chunk}
    (hx : x ∈ forestPreorder (placed.flatMap Prod.snd)) :
    ∃ l ∈ forestLinks parent f, ∃ group,
      Leaves cfg src l.2.label l.2.children group ∧ x ∈ group := by
  induction h generalizing parent with
  | nil => cases hx
  | @cons c children rest group below after leaves inside beside ihi ihb =>
    rw [List.flatMap_cons, forestPreorder_append, List.mem_append] at hx
    rw [forestLinks_cons]
    rcases hx with hx | hx
    · rw [(preorder_distribute_perm leaves.nodup_index leaves.ne_nil below).mem_iff,
        List.mem_append] at hx
      rcases hx with hx | hx
      · exact ⟨_, List.mem_cons_self, group, leaves, hx⟩
      · -- it was left by a chunk inside
        have hbelow : x ∈ forestPreorder (below.flatMap Prod.snd) := by
          simpa [forestPreorder_eq_flatMap, List.flatMap_assoc] using hx
        obtain ⟨l, hl, hleft⟩ := ihi (some c) hbelow
        exact ⟨l, List.mem_cons_of_mem _ (List.mem_append_left _ hl), hleft⟩
    · obtain ⟨l, hl, hleft⟩ := ihb parent hx
      exact ⟨l, List.mem_cons_of_mem _ (List.mem_append_right _ hl), hleft⟩

/-- What each tree has left is said by its chunk and by what its children have left. -/
theorem flatMap_eq {β : Type} (h : Splits cfg src f placed) {G : Placed → List β}
    {H : RoseTree Chunk → List β}
    (hGH : ∀ t ∈ f, ∀ group below, Leaves cfg src t.label t.children group →
      Splits cfg src t.children below → (t.label.span, distribute group below) ∈ placed →
      G (t.label.span, distribute group below) = H t) :
    placed.flatMap G = f.flatMap H := by
  induction h with
  | nil => rfl
  | @cons c children rest group below after leaves inside _ _ ihb =>
    have hfirst := hGH _ List.mem_cons_self group below leaves inside List.mem_cons_self
    have hrest := ihb fun t ht g b hl hs hmem =>
      hGH t (List.mem_cons_of_mem _ ht) g b hl hs (List.mem_cons_of_mem _ hmem)
    rw [List.flatMap_cons, List.flatMap_cons, hrest]
    exact congrArg (· ++ _) hfirst

end Splits

theorem map_label_distribute (group : List Chunk) (placed : List Placed) :
    (distribute group placed).map RoseTree.label = group := by
  simp [distribute, Function.comp_def]

/-- What has become of a former child stands together below the fragment that owns it. -/
theorem exists_block_in_children {group : List Chunk} (hne : group ≠ []) {placed : List Placed}
    {p : Placed} (hp : p ∈ placed) : ∃ t ∈ distribute group placed, p.2 <:+: t.children := by
  obtain ⟨g, hg⟩ := exists_owner? hne p.1
  have howns : owns group g p.1 = true := owns_iff.mpr ⟨g, hg, rfl⟩
  refine ⟨_, List.mem_map_of_mem (mem_of_owner? hg), ?_⟩
  obtain ⟨before, after, rfl⟩ := List.append_of_mem hp
  rw [children_node, List.flatMap_append, List.flatMap_cons, if_pos howns]
  exact ⟨_, _, by rw [List.append_assoc]⟩

theorem within_distribute {group : List Chunk} (hne : group ≠ []) {placed : List Placed}
    {t : RoseTree Chunk} (h : Within t (placed.flatMap Prod.snd)) :
    Within t (distribute group placed) := by
  have hroot : ∀ s ∈ placed.flatMap Prod.snd,
      ∃ r ∈ distribute group placed, s ∈ r.children := by
    intro s hs
    obtain ⟨p, hp, hsp⟩ := List.mem_flatMap.mp hs
    obtain ⟨r, hr, hblock⟩ := exists_block_in_children hne hp
    exact ⟨r, hr, hblock.subset hsp⟩
  cases h with
  | root mem =>
    obtain ⟨r, hr, ht⟩ := hroot t mem
    exact .inside hr (.root ht)
  | inside mem within =>
    obtain ⟨r, hr, hs⟩ := hroot _ mem
    exact .inside hr (.inside hs within)

/-- **What a chunk has left stands together**, among the roots or below one parent. -/
theorem Splits.within_of_link {f : ChunkForest} {placed : List Placed}
    (h : Splits cfg src f placed) {parent : Option Chunk} {l : Link}
    (hl : l ∈ forestLinks parent f) :
    ∃ group below, Leaves cfg src l.2.label l.2.children group
      ∧ Splits cfg src l.2.children below
      ∧ ((∃ p ∈ placed, p.2 = distribute group below)
        ∨ ∃ t, Within t (placed.flatMap Prod.snd) ∧ distribute group below <:+: t.children) := by
  induction h generalizing parent with
  | nil => cases hl
  | @cons c children rest group below after leaves inside _ ihi ihb =>
    rw [forestLinks_cons] at hl
    rcases List.mem_cons.mp hl with rfl | hl
    · exact ⟨group, below, leaves, inside, Or.inl ⟨_, List.mem_cons_self, rfl⟩⟩
    · rcases List.mem_append.mp hl with hl | hl
      · -- a chunk inside: what is handed to a fragment stays together
        have hhead : distribute group below
            ⊆ ((c.span, distribute group below) :: after).flatMap Prod.snd := by
          rw [List.flatMap_cons]
          exact List.subset_append_left _ _
        obtain ⟨g, b, hleaves, hsplits, hplace⟩ := ihi hl
        refine ⟨g, b, hleaves, hsplits, Or.inr ?_⟩
        rcases hplace with ⟨p, hp, heq⟩ | ⟨t, hwithin, hblock⟩
        · obtain ⟨t, ht, hblock⟩ := exists_block_in_children leaves.ne_nil hp
          exact ⟨t, .root (hhead ht), heq ▸ hblock⟩
        · exact ⟨t, (within_distribute leaves.ne_nil hwithin).mono hhead, hblock⟩
      · obtain ⟨g, b, hleaves, hsplits, hplace⟩ := ihb hl
        refine ⟨g, b, hleaves, hsplits, ?_⟩
        rcases hplace with ⟨p, hp, heq⟩ | ⟨t, hwithin, hblock⟩
        · exact Or.inl ⟨p, List.mem_cons_of_mem _ hp, heq⟩
        · refine Or.inr ⟨t, hwithin.mono ?_, hblock⟩
          rw [List.flatMap_cons]
          exact List.subset_append_right _ _

end Split

/-! ## Before splitting -/

/-- A chunk was cut from no other, and has the lines of its bytes. -/
def Chunk.IsWhole (src : Source) (c : Chunk) : Prop :=
  c.splitFrom = none ∧ c.span = src.span c.span.start c.span.stop

/-- A description leaves a chunk as whole as it was. -/
theorem Metadata.isWhole_describe {rules : Rules} {t : SyntaxTree} {src : Source} (inClass : Bool)
    (c : Chunk) (h : c.IsWhole src) : (describe rules t src inClass c).IsWhole src := by
  unfold describe
  split
  · exact h
  · split
    · exact h
    · exact h

namespace ChunkTree

theorem sound_afterMerging {t : ChunkTree} {size : Nat} (h : t.Sound size) (cfg : Config)
    (src : Source) : (t.afterMerging cfg src).Sound size := by
  unfold afterMerging
  split
  · exact sound_mergeTrivial h cfg src
  · exact h

theorem every_isWhole_ofSyntaxTree (cfg : Config) (language : Language) (src : Source)
    (st : SyntaxTree) : Every (Chunk.IsWhole src) (ofSyntaxTree cfg language src st).roots := by
  have hunit : st.Passes src.lines (fun _ => True) (Chunk.IsWhole src) :=
    fun _ _ _ _ _ _ _ => ⟨rfl, rfl⟩
  refine every_ofSyntaxTree (fun d => ?_) ⟨rfl, rfl⟩ (fun _ _ hc => hc) fun _ => ?_
  · rw [fallback]
    split
    · exact every_nil
    · exact every_cons.mpr ⟨⟨rfl, rfl⟩, every_nil, every_nil⟩
  · exact SyntaxTree.every_topUnits cfg hunit (fun _ _ => ⟨trivial, trivial⟩) trivial trivial

/-- **No chunk has been cut before splitting**, whatever the tree is. -/
theorem every_isWhole_afterMerging (k : Chunker) (language : Language) (src : Source)
    (st : SyntaxTree) :
    Every (Chunk.IsWhole src)
      ((k.stages language src st).described.afterMerging k.config src).roots := by
  have hkeeps : Alike (fun c c' => c.IsWhole src → c'.IsWhole src)
      (k.stages language src st).units.roots (k.stages language src st).described.roots :=
    Metadata.alike_describeForest_of Metadata.isWhole_describe false _
  have hdescribed := hkeeps.every (fun _ _ h => h)
    (every_isWhole_ofSyntaxTree k.config language src st)
  unfold afterMerging
  split
  · exact every_mergeTrivial (fun _ _ _ _ _ _ => ⟨rfl, rfl⟩) hdescribed
  · exact hdescribed

end ChunkTree

end SourceChunks

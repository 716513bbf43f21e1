import SourceChunks.Proofs.Filling

/-!
# What is attached to a node

Comments and modifiers come to a node when it is written, and a step attaches nothing to the nodes
that are there. So a node of a table is bare, as the file and the modifiers themselves are, or it
carries what was found at the site where it was kept.

* `SyntaxTree.Tells`, `Layout.tells_place` — what a single step keeps
* `SyntaxTree.bare_or_site` — the nodes of a table
-/

namespace SourceChunks

open RoseTree Outline

/-- Nothing is attached to the node. -/
def KeptNode.Bare (n : KeptNode) : Prop := n.comments = [] ∧ n.modifiers = []

/-! ## Drafts -/

mutual

/-- Drafts are listed in the order of the nodes they stand for. -/
theorem Outline.map_kept_drafts : ∀ o : Outline,
    (drafts o).map Draft.kept = forestPreorder (forest o)
  | kept d inner => by
    rw [drafts, forest, List.map_cons, map_kept_draftsAll inner]
    simp only [forestPreorder, preorder, List.append_nil]
  | spliced inner => by rw [drafts, forest, map_kept_draftsAll inner]

theorem Outline.map_kept_draftsAll : ∀ os : List Outline,
    (draftsAll os).map Draft.kept = forestPreorder (forestAll os)
  | [] => rfl
  | o :: os => by
    rw [draftsAll, forestAll, List.map_append, forestPreorder_append, map_kept_drafts o,
      map_kept_draftsAll os]

end

theorem Grammar.kept_of_mem_drafts {g : Grammar} {src : Source} {c : Cst} {d : Draft}
    (hd : d ∈ draftsAll (g.outline src c)) : d.kept ∈ g.kept src c := by
  rw [Grammar.kept, ← g.forestAll_outline src c, ← map_kept_draftsAll]
  exact List.mem_map_of_mem hd

/-! ## Steps -/

/-- What is told of every node of a table, unless the node is bare. -/
structure SyntaxTree.Tells (t : SyntaxTree) (K : KeptNode → Prop) : Prop where
  modifiers_lt : ∀ q, ∀ m ∈ (t.node q).modifiers, m < t.size
  told : ∀ q, (t.keptNode q).Bare ∨ K (t.keptNode q)

theorem SyntaxTree.tells_of_bare {t : SyntaxTree} (K : KeptNode → Prop)
    (h : ∀ q, (t.node q).comments = [] ∧ (t.node q).modifiers = []) : t.Tells K where
  modifiers_lt := by
    intro q
    rw [(h q).2]
    exact List.forall_mem_nil _
  told := by
    intro q
    refine Or.inl ⟨(h q).1, ?_⟩
    rw [keptNode, (h q).2]
    rfl

namespace Layout

variable {l : Layout} {p : Nat} {d : Draft} {K : KeptNode → Prop}

/-- What is written after a node is its modifiers. -/
theorem bare_of_size_lt (hp : p < l.tree.size) {q : Nat} (hq : l.tree.size < q) :
    ((l.place p d).tree.node q).comments = [] ∧ ((l.place p d).tree.node q).modifiers = [] := by
  refine keeps_place (P := fun t => (t.node q).comments = [] ∧ (t.node q).modifiers = []) ?_ ?_
  · rw [SyntaxTree.node_push hp, if_neg (by omega), if_neg (by omega),
      SyntaxTree.node_eq_default (by omega)]
    exact ⟨rfl, rfl⟩
  · intro t range hlt ht
    rw [SyntaxTree.node_pushModifier hlt]
    split
    · exact ⟨rfl, rfl⟩
    · rw [if_neg (by omega)]
      exact ht

/-- A step tells of the new node what holds of its draft. -/
theorem tells_place (hp : p < l.tree.size) (hd : d.Blank) (hK : K d.kept) (h : l.tree.Tells K) :
    (l.place p d).tree.Tells K := by
  obtain ⟨hgrows, hnew⟩ := place_spec hp ⟨hd.children, hd.modifiers⟩
  have hbare := fun {q : Nat} (hq : l.tree.size < q) => bare_of_size_lt (d := d) hp hq
  refine ⟨fun q => ?_, fun q => ?_⟩
  · rcases Nat.lt_trichotomy q l.tree.size with hq | rfl | hq
    · rw [hgrows.modifiers_eq hq]
      exact fun m hm => Nat.lt_of_lt_of_le (h.modifiers_lt q m hm) hgrows.size_le
    · exact hnew.modifiers
    · rw [(hbare hq).2]
      exact List.forall_mem_nil _
  · rcases Nat.lt_trichotomy q l.tree.size with hq | rfl | hq
    · rw [hgrows.keptNode_eq hq (h.modifiers_lt q)]
      exact h.told q
    · rw [hnew.label]
      exact Or.inr hK
    · refine Or.inl ⟨(hbare hq).1, ?_⟩
      rw [SyntaxTree.keptNode, (hbare hq).2]
      rfl

/-- A run of steps tells of every node what holds of the drafts. -/
theorem Places.tells {l' : Layout} {ds : List Draft} (h : Places l l' ds)
    (hds : ∀ d ∈ ds, d.Blank ∧ K d.kept) (hl : l.tree.Tells K) : l'.tree.Tells K :=
  h.keeps (P := fun l => l.tree.Tells K) hds
    (fun _ _ _ hp hd hl => tells_place hp hd.1 hd.2 hl) hl

theorem bare_ofHeader (g : Grammar) (src : Source) (root : Cst) (q : Nat) :
    ((ofHeader g src root).tree.node q).comments = []
      ∧ ((ofHeader g src root).tree.node q).modifiers = [] := by
  obtain ⟨hsize, hfile, -, -⟩ := SyntaxTree.header_spec g src root
  simp only [ofHeader]
  by_cases hq : q = 0
  · rw [hq, hfile]
    exact ⟨rfl, rfl⟩
  · rw [SyntaxTree.node_eq_default (by omega)]
    exact ⟨rfl, rfl⟩

end Layout

namespace SyntaxTree

/-- **A node of the table of a concrete tree is bare, or what is told of it was kept at a site.** -/
theorem bare_or_site (g : Grammar) (src : Source) (root : Cst) (x : Nat) :
    ((ofCst g src root).keptNode x).Bare
      ∨ ∃ s : g.Site root, (ofCst g src root).keptNode x = s.node src := by
  obtain ⟨ds, hplaces, hperm, hblank, -⟩ := Layout.exists_places_write g src root
  have htells := hplaces.tells (K := (∃ s : g.Site root, · = s.node src))
    (fun d hd => ⟨hblank d hd, Grammar.exists_site_of_mem_kept
      (Grammar.kept_of_mem_drafts (hperm.mem_iff.mp hd))⟩)
    (tells_of_bare _ (Layout.bare_ofHeader g src root))
  rw [(Layout.retells_ofCst g src root).keptNode_eq]
  exact htells.told x

end SyntaxTree

end SourceChunks

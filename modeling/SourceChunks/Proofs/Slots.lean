import Mathlib.Data.List.Perm.Subperm
import SourceChunks.Arena
import SourceChunks.Proofs.Listing

/-!
# A table that holds a forest

`Slot.ofLink` is the slot of a chunk of a forest: its id is made from the place of the chunk, and
its links are the numbers of the chunk it hangs from and of the chunks that hang from it. A table
holds a forest if at the number of every chunk stands its slot. It represents a tree if besides its
roots are those of the tree and it has as many slots as chunks have been made.

* `Arena.Represents` — what a table has to do with a tree
* `Arena.Represents.preorder_eq` — reading the table reads the tree
* `Arena.Represents.linked` — its parents and its lists of children agree
* `Arena.Represents.records_eq` — the records of a table are those of the tree
-/

namespace SourceChunks

open RoseTree

/-- The numbers of the roots of a forest. -/
def rootIndices (f : ChunkForest) : List Nat := f.map fun t => t.label.index

@[simp]
theorem rootIndices_nil : rootIndices [] = [] := rfl

@[simp]
theorem rootIndices_cons (t : RoseTree Chunk) (f : ChunkForest) :
    rootIndices (t :: f) = t.label.index :: rootIndices f := rfl

@[simp]
theorem rootIndices_append (f g : ChunkForest) :
    rootIndices (f ++ g) = rootIndices f ++ rootIndices g := List.map_append

theorem rootIndices_sublist_indices : ∀ f : ChunkForest, (rootIndices f).Sublist (indices f)
  | [] => List.Sublist.refl _
  | .node c children :: rest => by
    rw [rootIndices_cons, indices_cons, label_node]
    refine List.Sublist.cons_cons _ ?_
    exact (rootIndices_sublist_indices rest).trans (List.sublist_append_right _ _)

theorem indices_singleton (c : Chunk) (children : ChunkForest) :
    indices [.node c children] = c.index :: indices children := by
  rw [indices_cons, indices_nil, List.append_nil]

theorem indices_cons_append (t : RoseTree Chunk) (f : ChunkForest) :
    indices (t :: f) = indices [t] ++ indices f :=
  indices_append [t] f

theorem mem_indices_of_mem {t : RoseTree Chunk} {f : ChunkForest} (ht : t ∈ f) {i : Nat}
    (hi : i ∈ indices [t]) : i ∈ indices f := by
  obtain ⟨before, after, rfl⟩ := List.append_of_mem ht
  rw [indices_append, indices_cons_append]
  exact List.mem_append_right _ (List.mem_append_left _ hi)

theorem exists_tree_of_mem_indices {f : ChunkForest} {i : Nat} (hi : i ∈ indices f) :
    ∃ t ∈ f, i ∈ indices [t] := by
  induction f with
  | nil => cases hi
  | cons t f ih =>
    rw [indices_cons_append] at hi
    rcases List.mem_append.mp hi with hi | hi
    · exact ⟨t, List.mem_cons_self, hi⟩
    · obtain ⟨s, hs, his⟩ := ih hi
      exact ⟨s, List.mem_cons_of_mem _ hs, his⟩

theorem filter_ne_eq_self {i : Nat} {is : List Nat} (h : i ∉ is) : is.filter (· != i) = is :=
  List.filter_eq_self.mpr fun _ hj => bne_iff_ne.mpr fun heq => h (heq ▸ hj)

/-- Where numbers are distinct, a chunk below a root is not a root. -/
theorem not_mem_rootIndices_of_below {f : ChunkForest} (hnodup : (indices f).Nodup)
    {t : RoseTree Chunk} (ht : t ∈ f) {i : Nat} (hi : i ∈ indices t.children) :
    i ∉ rootIndices f := by
  induction f with
  | nil => cases ht
  | cons s f ih =>
    cases s with
    | node c children =>
      rw [indices_cons] at hnodup
      obtain ⟨hc, hrest⟩ := List.nodup_cons.mp hnodup
      rw [List.mem_append, not_or] at hc
      have hdisjoint := List.disjoint_of_nodup_append hrest
      have hroots := (rootIndices_sublist_indices f).subset
      rw [rootIndices_cons, label_node, List.mem_cons, not_or]
      rcases List.mem_cons.mp ht with rfl | ht
      · exact ⟨fun h => hc.1 (h ▸ hi), fun h => hdisjoint hi (hroots h)⟩
      · refine ⟨fun h => hc.2 ?_, ih hrest.of_append_right ht⟩
        rw [← h]
        refine mem_indices_of_mem ht ?_
        rw [← node_label_children t, indices_cons]
        exact List.mem_cons_of_mem _ (List.mem_append_left _ hi)

theorem length_indices (f : ChunkForest) : (indices f).length = forestCount f := by
  rw [indices, List.length_map, length_forestPreorder]

theorem index_mem_indices {parent : Option Chunk} {f : ChunkForest} {l : Link}
    (hl : l ∈ forestLinks parent f) : l.2.label.index ∈ indices f := by
  rw [indices, ← map_label_forestLinks parent, List.map_map]
  exact List.mem_map_of_mem hl

theorem exists_link_of_mem_indices (parent : Option Chunk) {f : ChunkForest} {i : Nat}
    (hi : i ∈ indices f) : ∃ l ∈ forestLinks parent f, l.2.label.index = i := by
  rw [indices, ← map_label_forestLinks parent, List.map_map] at hi
  exact List.mem_map.mp hi

theorem forestLinks_append (parent : Option Chunk) (f g : ChunkForest) :
    forestLinks parent (f ++ g) = forestLinks parent f ++ forestLinks parent g := by
  induction f with
  | nil => rfl
  | cons t f ih => rw [List.cons_append, forestLinks, forestLinks, ih, List.append_assoc]

/-- The slot of a chunk, with the numbers of the chunks around it. -/
def Slot.ofLink (path : String) (l : Link) : Slot where
  id := l.2.label.id path
  kind := l.2.label.kind
  name := l.2.label.name
  span := l.2.label.span
  depth := l.2.label.depth
  origin := l.2.label.origin
  synthetic := l.2.label.isSynthetic
  signature := l.2.label.signature
  docstring := l.2.label.docstring
  decorators := l.2.label.decorators
  bases := l.2.label.bases
  parent := l.1.map Chunk.index
  children := rootIndices l.2.children
  splitFrom := l.2.label.splitFromId path
  diagnostics := l.2.label.diagnostics
  node := l.2.label.node

/-- A slot without its list of children. -/
def Slot.bare (s : Slot) : Slot := { s with children := [] }

namespace Arena

variable {a b : Arena} {path : String} {parent : Option Chunk} {f g : ChunkForest} {t : ChunkTree}

/-! ## Looking up slots -/

theorem slot_of_getElem? {i : Nat} {s : Slot} (h : a.slots[i]? = some s) : a.slot i = s := by
  rw [slot, Array.getD_eq_getD_getElem?, h, Option.getD_some]

theorem getElem?_of_lt {i : Nat} (h : i < a.next) : a.slots[i]? = some (a.slot i) := by
  have hsome : a.slots[i]? = some a.slots[i] := Array.getElem?_eq_getElem h
  rw [hsome, slot_of_getElem? hsome]

theorem lt_next_of_getElem? {i : Nat} {s : Slot} (h : a.slots[i]? = some s) : i < a.next := by
  obtain ⟨hlt, -⟩ := Array.getElem?_eq_some_iff.mp h
  exact hlt

/-- What stands at a position, but for the list of children. -/
def bare? (a : Arena) (i : Nat) : Option Slot := a.slots[i]?.map Slot.bare

theorem bare_slot (a : Arena) (i : Nat) : (a.slot i).bare = (a.bare? i).getD default := by
  have hdefault : (default : Slot) = (default : Slot).bare := rfl
  rw [slot, Array.getD_eq_getD_getElem?, bare?, hdefault, Option.getD_map]
  rfl

/-- The children of a slot, or the roots. -/
def childrenOf (a : Arena) : Option Nat → List Nat
  | some p => (a.slot p).children
  | none => a.roots

theorem getElem?_eq_some_iff_bare {i : Nat} {s : Slot} :
    a.slots[i]? = some s ↔ a.bare? i = some s.bare ∧ a.childrenOf (some i) = s.children := by
  constructor
  · intro h
    exact ⟨by rw [bare?, h]; rfl, by rw [childrenOf, slot_of_getElem? h]⟩
  · rintro ⟨hbare, hchildren⟩
    obtain ⟨r, hr, hrs⟩ := Option.map_eq_some_iff.mp hbare
    rw [childrenOf, slot_of_getElem? hr] at hchildren
    rw [hr]
    cases r; cases s
    simp only [Slot.bare, Slot.mk.injEq] at hrs hchildren ⊢
    simp_all

/-- A slot is the same if its list of children is and everything else. -/
theorem getElem?_eq_of_bare {i : Nat} (hi : i < a.next) (hbare : b.bare? i = a.bare? i)
    (hchildren : b.childrenOf (some i) = a.childrenOf (some i)) : b.slots[i]? = a.slots[i]? := by
  have hsome := getElem?_of_lt hi
  obtain ⟨hb, hc⟩ := getElem?_eq_some_iff_bare.mp hsome
  rw [hsome]
  exact getElem?_eq_some_iff_bare.mpr ⟨hbare.trans hb, hchildren.trans hc⟩

/-! ## Changing a table -/

/-- The tables of one file. -/
structure SameFile (a b : Arena) : Prop where
  filePath : b.filePath = a.filePath
  language : b.language = a.language
  packageName : b.packageName = a.packageName
  imports : b.imports = a.imports

theorem SameFile.refl (a : Arena) : SameFile a a := ⟨rfl, rfl, rfl, rfl⟩

theorem SameFile.trans {a b c : Arena} (h : SameFile a b) (k : SameFile b c) : SameFile a c :=
  ⟨k.filePath.trans h.filePath, k.language.trans h.language, k.packageName.trans h.packageName,
    k.imports.trans h.imports⟩

/-! ### Changing a slot -/

@[simp]
theorem next_modifySlot (i : Nat) (f : Slot → Slot) : (a.modifySlot i f).next = a.next :=
  Array.size_modify

theorem sameFile_modifySlot (i : Nat) (f : Slot → Slot) : SameFile a (a.modifySlot i f) :=
  ⟨rfl, rfl, rfl, rfl⟩

theorem getElem?_modifySlot (i : Nat) (f : Slot → Slot) (j : Nat) :
    (a.modifySlot i f).slots[j]? = if i = j then a.slots[j]?.map f else a.slots[j]? :=
  Array.getElem?_modify

/-- What a change keeps of every slot it keeps of the table. -/
theorem slot_modifySlot_of {β : Type} {g : Slot → β} {f : Slot → Slot} (hf : ∀ s, g (f s) = g s)
    (i j : Nat) : g ((a.modifySlot i f).slot j) = g (a.slot j) := by
  rw [slot, slot, Array.getD_eq_getD_getElem?, Array.getD_eq_getD_getElem?, getElem?_modifySlot]
  split
  · cases a.slots[j]? with
    | none => rfl
    | some s => exact hf s
  · rfl

theorem bare?_modifySlot_children (i : Nat) (g : List Nat → List Nat) (j : Nat) :
    (a.modifySlot i fun s => { s with children := g s.children }).bare? j = a.bare? j := by
  rw [bare?, getElem?_modifySlot]
  split
  · rw [Option.map_map]
    rfl
  · rfl

@[simp]
theorem next_modifyChildren (parent : Option Nat) (g : List Nat → List Nat) :
    (a.modifyChildren parent g).next = a.next := by
  cases parent with
  | none => rfl
  | some p => exact next_modifySlot p _

theorem sameFile_modifyChildren (parent : Option Nat) (g : List Nat → List Nat) :
    SameFile a (a.modifyChildren parent g) := by
  cases parent <;> exact ⟨rfl, rfl, rfl, rfl⟩

@[simp]
theorem bare?_modifyChildren (parent : Option Nat) (g : List Nat → List Nat) (j : Nat) :
    (a.modifyChildren parent g).bare? j = a.bare? j := by
  cases parent with
  | none => rfl
  | some p => exact bare?_modifySlot_children p g j

/-- A parent is a slot of the table, or there is none. -/
def HasParent (a : Arena) (parent : Option Nat) : Prop := ∀ p ∈ parent, p < a.next

theorem hasParent_none (a : Arena) : a.HasParent none := fun _ hp => nomatch hp

theorem hasParent_some {p : Nat} : a.HasParent (some p) ↔ p < a.next := by
  simp [HasParent]

theorem HasParent.mono {q : Option Nat} (h : a.HasParent q) (hle : a.next ≤ b.next) :
    b.HasParent q :=
  fun p hp => Nat.lt_of_lt_of_le (h p hp) hle

theorem childrenOf_modifyChildren {parent : Option Nat} (h : a.HasParent parent)
    (g : List Nat → List Nat) (q : Option Nat) :
    (a.modifyChildren parent g).childrenOf q
      = if q = parent then g (a.childrenOf parent) else a.childrenOf q := by
  cases parent with
  | none =>
    cases q with
    | none => rfl
    | some q => rfl
  | some p =>
    cases q with
    | none => rfl
    | some q =>
      have hp := getElem?_of_lt (h p rfl)
      by_cases hqp : q = p
      · subst hqp
        have hslot : (a.modifyChildren (some q) g).slots[q]? = _ :=
          getElem?_modifySlot q _ q
        rw [if_pos rfl, hp] at hslot
        rw [if_pos rfl, childrenOf, slot_of_getElem? hslot]
        rfl
      · have hslot : (a.modifyChildren (some p) g).slots[q]? = _ :=
          getElem?_modifySlot p _ q
        rw [if_neg (Ne.symm hqp)] at hslot
        have hne : some q ≠ some p := fun h => hqp (Option.some.inj h)
        rw [if_neg hne, childrenOf, childrenOf, slot, slot, Array.getD_eq_getD_getElem?, hslot,
          Array.getD_eq_getD_getElem?]

/-! ### Adding a slot -/

@[simp]
theorem next_insert (s : Slot) (parent : Option Nat) : (a.insert s parent).next = a.next + 1 := by
  rw [insert, next_modifyChildren]
  exact Array.size_push _

theorem sameFile_insert (s : Slot) (parent : Option Nat) : SameFile a (a.insert s parent) := by
  cases parent <;> exact ⟨rfl, rfl, rfl, rfl⟩

theorem bare?_insert (s : Slot) (parent : Option Nat) (j : Nat) :
    (a.insert s parent).bare? j
      = if j = a.next then some { s.bare with parent := parent } else a.bare? j := by
  rw [insert, bare?_modifyChildren, bare?, Array.getElem?_push]
  show Option.map Slot.bare (if j = a.next then _ else _) = _
  split <;> rfl

theorem childrenOf_of_le {i : Nat} (h : a.next ≤ i) : a.childrenOf (some i) = [] := by
  have hnone : a.slots[i]? = none := Array.getElem?_eq_none h
  rw [childrenOf, slot, Array.getD_eq_getD_getElem?, hnone]
  rfl

theorem childrenOf_insert {s : Slot} {parent : Option Nat} (h : a.HasParent parent)
    (hs : s.children = []) (q : Option Nat) :
    (a.insert s parent).childrenOf q
      = if q = parent then a.childrenOf parent ++ [a.next] else a.childrenOf q := by
  obtain ⟨b, hb⟩ : ∃ b : Arena, b = { a with slots := a.slots.push { s with parent := parent } } :=
    ⟨_, rfl⟩
  have hnext : b.next = a.next + 1 := by
    rw [hb]
    exact Array.size_push _
  have hkept : ∀ q, b.childrenOf q = a.childrenOf q := by
    intro q
    cases q with
    | none => rw [hb]; rfl
    | some q =>
      have hslot : b.slots[q]? = if q = a.next then some { s with parent := parent }
          else a.slots[q]? := by
        rw [hb]
        exact Array.getElem?_push
      by_cases hq : q = a.next
      · rw [if_pos hq] at hslot
        rw [childrenOf_of_le (Nat.le_of_eq hq.symm), childrenOf, slot_of_getElem? hslot, hs]
      · rw [if_neg hq] at hslot
        rw [childrenOf, childrenOf, slot, slot, Array.getD_eq_getD_getElem?, hslot,
          Array.getD_eq_getD_getElem?]
  have hparent : b.HasParent parent := fun p hp => by rw [hnext]; exact Nat.lt_succ_of_lt (h p hp)
  rw [insert, ← hb, childrenOf_modifyChildren hparent, hkept, hkept]

/-! ## Tables and forests -/

/-- At the number of every chunk of a forest stands its slot. -/
def Holds (a : Arena) (path : String) (parent : Option Chunk) (f : ChunkForest) : Prop :=
  ∀ l ∈ forestLinks parent f, a.slots[l.2.label.index]? = some (Slot.ofLink path l)

theorem holds_nil : a.Holds path parent [] := List.forall_mem_nil _

theorem holds_cons {c : Chunk} {children rest : ChunkForest} :
    a.Holds path parent (.node c children :: rest)
      ↔ a.slots[c.index]? = some (Slot.ofLink path (parent, .node c children))
        ∧ a.Holds path (some c) children ∧ a.Holds path parent rest := by
  unfold Holds
  rw [forestLinks_cons, List.forall_mem_cons, List.forall_mem_append]
  rfl

theorem holds_append :
    a.Holds path parent (f ++ g) ↔ a.Holds path parent f ∧ a.Holds path parent g := by
  unfold Holds
  rw [forestLinks_append, List.forall_mem_append]

theorem holds_cons_iff {t : RoseTree Chunk} :
    a.Holds path parent (t :: f) ↔ a.Holds path parent [t] ∧ a.Holds path parent f :=
  holds_append (f := [t])

theorem Holds.span_eq (h : a.Holds path parent f) {t : RoseTree Chunk} (ht : t ∈ f) :
    (a.slot t.label.index).span = t.label.span := by
  have hlink := (mem_forestLinks_iff parent parent t f).mpr (Or.inl ⟨rfl, ht⟩)
  rw [slot_of_getElem? (h _ hlink)]
  rfl

theorem Holds.of_mem (h : a.Holds path parent f) {t : RoseTree Chunk} (ht : t ∈ f) :
    a.Holds path parent [t] := by
  obtain ⟨before, after, rfl⟩ := List.append_of_mem ht
  exact (holds_cons_iff.mp (holds_append.mp h).2).1

/-- A table that has the same slots at the numbers of a forest holds it too. -/
theorem Holds.of_eq (h : a.Holds path parent f)
    (heq : ∀ i ∈ indices f, b.slots[i]? = a.slots[i]?) : b.Holds path parent f := by
  intro l hl
  rw [heq _ (index_mem_indices hl), h l hl]

theorem Holds.lt_next (h : a.Holds path parent f) : ∀ i ∈ indices f, i < a.next := by
  intro i hi
  obtain ⟨l, hl, rfl⟩ := exists_link_of_mem_indices parent hi
  exact lt_next_of_getElem? (h l hl)

/-- What a table has to do with the tree of a file under a path. -/
structure Represents (a : Arena) (path : String) (t : ChunkTree) : Prop where
  filePath : a.filePath = path
  language : a.language = t.language
  packageName : a.packageName = t.packageName
  imports : a.imports = t.imports
  next : a.next = t.made
  roots : a.roots = rootIndices t.roots
  holds : a.Holds path none t.roots
  nodup : (indices t.roots).Nodup

/-- The links of a table agree, as far as it can be reached. -/
structure Linked (a : Arena) : Prop where
  /-- No slot is reached twice. -/
  once : a.preorder.Nodup
  /-- A slot stands among the children of the one it names as its parent and of no other, and among
  the roots if it names none. -/
  mem_childrenOf_iff : ∀ i ∈ a.preorder, ∀ q, (∀ p ∈ q, p ∈ a.preorder) →
    (i ∈ a.childrenOf q ↔ (a.slot i).parent = q)
  parent_mem : ∀ i ∈ a.preorder, ∀ p ∈ (a.slot i).parent, p ∈ a.preorder
  /-- An id is that of the place at which the slot has come to stand. -/
  id_eq : ∀ i ∈ a.preorder,
    (a.slot i).id = chunkId a.filePath (a.slot i).span.toByteRange (a.slot i).depth

/-! ## Reading a table -/

/-- From the roots of a forest that is held, its chunks are read, whatever the bound is as long as
there is a turn for each. -/
theorem Holds.preorderFrom_eq : ∀ {f : ChunkForest} {parent : Option Chunk},
    a.Holds path parent f → ∀ (turns : Nat), forestCount f ≤ turns → ∀ stack : List Nat,
      a.preorderFrom turns (rootIndices f ++ stack)
        = indices f ++ a.preorderFrom (turns - forestCount f) stack
  | [], _, _, _, _, _ => rfl
  | .node c children :: rest, parent, h, turns, hle, stack => by
    obtain ⟨hc, hchildren, hrest⟩ := holds_cons.mp h
    rw [forestCount, count] at hle
    obtain ⟨n, rfl⟩ : ∃ n, turns = n + 1 := Nat.exists_eq_add_one.mpr (by omega)
    have hbelow := hchildren.preorderFrom_eq n (by omega) (rootIndices rest ++ stack)
    have hafter := hrest.preorderFrom_eq (n - forestCount children) (by omega) stack
    have hturns : n + 1 - forestCount (.node c children :: rest)
        = n - forestCount children - forestCount rest := by
      rw [forestCount, count]
      omega
    rw [rootIndices_cons, label_node, List.cons_append, preorderFrom, slot_of_getElem? hc]
    show c.index :: a.preorderFrom n (rootIndices children ++ (rootIndices rest ++ stack)) = _
    rw [hbelow, hafter, hturns, indices_cons, List.cons_append, List.append_assoc]

namespace Represents

theorem forestCount_le (h : a.Represents path t) : forestCount t.roots ≤ a.next := by
  rw [← length_indices, ← List.length_range (n := a.next)]
  refine (h.nodup.subperm fun i hi => ?_).length_le
  exact List.mem_range.mpr (h.holds.lt_next i hi)

/-- **Reading a table reads the tree.** -/
theorem preorder_eq (h : a.Represents path t) : a.preorder = indices t.roots := by
  have hread := h.holds.preorderFrom_eq a.next h.forestCount_le []
  rw [List.append_nil] at hread
  rw [preorder, h.roots, hread]
  cases a.next - forestCount t.roots <;> simp [preorderFrom]

theorem slot_eq (h : a.Represents path t) {l : Link} (hl : l ∈ t.links) :
    a.slot l.2.label.index = Slot.ofLink path l :=
  slot_of_getElem? (h.holds l hl)

theorem exists_link_of_mem_preorder (h : a.Represents path t) {i : Nat} (hi : i ∈ a.preorder) :
    ∃ l ∈ t.links, l.2.label.index = i := by
  rw [h.preorder_eq] at hi
  exact exists_link_of_mem_indices none hi

/-- What hangs from a chunk, or what stands among the roots, is listed in the table. -/
theorem mem_childrenOf_iff (h : a.Represents path t) {q : Option Nat}
    (hq : ∀ p ∈ q, p ∈ a.preorder) (i : Nat) :
    i ∈ a.childrenOf q ↔ ∃ l ∈ t.links, l.2.label.index = i ∧ l.1.map Chunk.index = q := by
  constructor
  · intro hi
    cases q with
    | none =>
      rw [childrenOf, h.roots] at hi
      obtain ⟨s, hs, rfl⟩ := List.mem_map.mp hi
      exact ⟨(none, s), (mem_forestLinks_iff none none s t.roots).mpr (Or.inl ⟨rfl, hs⟩), rfl, rfl⟩
    | some p =>
      obtain ⟨k, hk, rfl⟩ := h.exists_link_of_mem_preorder (hq p rfl)
      rw [childrenOf, h.slot_eq hk] at hi
      obtain ⟨s, hs, rfl⟩ := List.mem_map.mp hi
      exact ⟨(some k.2.label, s),
        (mem_forestLinks_iff none _ s t.roots).mpr (Or.inr ⟨k, hk, rfl, hs⟩), rfl, rfl⟩
  · rintro ⟨⟨o, s⟩, hl, rfl, rfl⟩
    rcases (mem_forestLinks_iff none o s t.roots).mp hl with ⟨rfl, hs⟩ | ⟨k, hk, rfl, hs⟩
    · rw [Option.map_none, childrenOf, h.roots]
      exact List.mem_map_of_mem hs
    · rw [Option.map_some, childrenOf, h.slot_eq hk]
      exact List.mem_map_of_mem hs

/-- **The links of a table that represents a tree agree.** -/
theorem linked (h : a.Represents path t) : a.Linked where
  once := by
    rw [h.preorder_eq]
    exact h.nodup
  mem_childrenOf_iff := fun i hi q hq => by
    rw [h.mem_childrenOf_iff hq]
    constructor
    · rintro ⟨l, hl, rfl, rfl⟩
      rw [h.slot_eq hl]
      rfl
    · obtain ⟨l, hl, rfl⟩ := h.exists_link_of_mem_preorder hi
      rintro rfl
      rw [h.slot_eq hl]
      exact ⟨l, hl, rfl, rfl⟩
  parent_mem := fun i hi p hp => by
    obtain ⟨⟨o, s⟩, hl, rfl⟩ := h.exists_link_of_mem_preorder hi
    rw [h.slot_eq hl] at hp
    rcases (mem_forestLinks_iff none o s t.roots).mp hl with ⟨rfl, -⟩ | ⟨k, hk, rfl, -⟩
    · cases hp
    · obtain rfl : k.2.label.index = p := Option.some.inj hp
      rw [h.preorder_eq]
      exact index_mem_indices hk
  id_eq := fun i hi => by
    obtain ⟨l, hl, rfl⟩ := h.exists_link_of_mem_preorder hi
    rw [h.slot_eq hl, h.filePath]
    rfl

theorem parentId_eq (h : a.Represents path t) {l : Link} (hl : l ∈ t.links) :
    a.parentId l.2.label.index = l.1.map fun p => p.id path := by
  rw [parentId, h.slot_eq hl]
  show (l.1.map Chunk.index).map _ = _
  rcases (mem_forestLinks_iff none l.1 l.2 t.roots).mp hl with ⟨hroot, -⟩ | ⟨k, hk, hparent, -⟩
  · rw [hroot]
    rfl
  · rw [hparent, Option.map_some, Option.map_some, h.slot_eq hk]
    rfl

/-- **The records of a table are those of the tree.** -/
theorem records_eq (h : a.Represents path t) : a.records = t.records path := by
  have hindices : indices t.roots = t.links.map fun l => l.2.label.index := by
    rw [indices, ← map_label_forestLinks none, List.map_map]
    rfl
  rw [records, h.preorder_eq, hindices, List.map_map, ChunkTree.records_eq_map_links]
  refine List.map_congr_left fun l hl => ?_
  rw [Function.comp_apply, record, h.parentId_eq hl, h.slot_eq hl, h.filePath,
    h.language, h.packageName, h.imports]
  rfl

end Represents

end Arena

end SourceChunks

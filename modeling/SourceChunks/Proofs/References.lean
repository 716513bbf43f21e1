import SourceChunks.Grammar.OfLanguage
import SourceChunks.Proofs.Correspondence
import SourceChunks.Proofs.Filling

/-!
# References of a table

A docstring and the literal that a statement names are noted by their place in the concrete tree
and looked up once every node has a number. The place is found by way of fields, past the rules
that decide what is kept, so the node that the walk makes there has to be the right one. It is: a
docstring lies two levels below its definition, and between a statement and the literal it names
there are only nodes that every grammar dissolves (`Grammar.LeadsTo`).

* `Grammar.refers_of_ofLanguage?` — the ways from a node to what it refers to
* `Layout.Filled.docstring_below`, `Layout.Filled.literal_child` — where references lead
* `SyntaxTree.references_ofCst` — the references of a table and the chunks that follow from them
-/

namespace SourceChunks

open RoseTree Outline SyntaxTree

/-! ## Grammars -/

namespace Grammar

variable {g : Grammar} {src : Source} {language : Language}

/-- Outside of a body, what a node has below it takes its place. -/
structure Transparent (g : Grammar) (c : Cst) : Prop where
  classify : g.classify c = none
  wrapped : g.wrapped c = none
  isBody : g.isBody c.kind = false

/-- One node lies below another, with only transparent nodes on the way and at its end. -/
def LeadsTo (g : Grammar) : Cst → Cst → Prop :=
  Relation.ReflTransGen fun c d => d ∈ c.children ∧ g.Transparent d

theorem LeadsTo.within {root c d : Cst} (h : g.LeadsTo c d) (hc : Within root c)
    (htransparent : g.Transparent c) : Within root d ∧ g.Transparent d := by
  induction h with
  | refl => exact ⟨hc, htransparent⟩
  | tail _ hstep ih => exact ⟨ih.1.child hstep.1, hstep.2⟩

/-- An anonymous function that is kept wherever it is met. -/
def IsCallable (g : Grammar) (src : Source) (c : Cst) : Prop :=
  g.classify c = some .expression ∧ (g.flags src .expression c).callableLiteral = true

/-- The value of a variable is a list of expressions. -/
def ListsValues (c : Cst) : Prop :=
  c.kind = "var_spec" → ∀ v ∈ c.field? "value", Cst.kind v = "expression_list"

instance : DecidablePred ListsValues := fun _ => inferInstanceAs (Decidable (_ → _))

/-- What a grammar may refer to. -/
structure Refers (g : Grammar) (src : Source) (c : Cst) : Prop where
  stringLiteral : ∀ kind, (g.flags src kind c).stringLiteral = true → kind = .statement
  guardedEntry : ∀ kind, (g.flags src kind c).guardedEntry = true → g.namedLiteral src c = none
  /-- A docstring stands in a part of a definition. -/
  docstring : ∀ doc, g.docstring c = some doc → ∃ body ∈ c.children, doc ∈ body.children
  /-- A definition with a docstring wraps nothing. -/
  definition : ∀ kind, g.classify c = some kind → g.docstring c ≠ none → g.wrapped c = none
  literal : ∀ name lit, g.namedLiteral src c = some (name, lit) → g.Transparent c
    ∧ ∃ d, g.LeadsTo c d ∧ lit ∈ d.children ∧ g.IsCallable src lit

theorem mem_of_namedChildren_eq_singleton {c d : Cst} (h : c.namedChildren = [d]) :
    d ∈ c.children :=
  Cst.namedChildren_subset (h ▸ List.mem_singleton_self d)

/-! ### Python -/

theorem Python.exists_assignment {c lit : Cst} {name : String}
    (h : Python.namedLiteral src c = some (name, lit)) :
    c.kind = "expression_statement" ∧ ∃ assignment : Cst, assignment ∈ c.children
      ∧ assignment.kind = "assignment" ∧ lit ∈ assignment.children ∧ lit.kind = "lambda" := by
  simp only [Python.namedLiteral] at h
  split at h
  · cases h
  · next hkind =>
    split at h
    · next assignment hchildren =>
      by_cases hassignment : assignment.label.kind = "assignment"
      · simp only [hassignment, bne_self_eq_false, Bool.false_eq_true, if_false,
          Option.bind_eq_bind, Option.bind_eq_some_iff] at h
        obtain ⟨left, -, right, hright, hsome⟩ := h
        split at hsome
        · next hkinds =>
          cases hsome
          simp only [Bool.and_eq_true, beq_iff_eq] at hkinds
          exact ⟨by simpa using hkind, assignment, mem_of_namedChildren_eq_singleton hchildren,
            hassignment, Cst.field?_mem hright, hkinds.2⟩
        · cases hsome
      · simp [hassignment] at h
    · cases h

theorem transparent_python {c : Cst} (h : c.kind = "expression_statement" ∨ c.kind = "assignment") :
    python.Transparent c := by
  rcases h with h | h
  · exact ⟨by simp [python, Python.classify, h], by simp [python, Python.wrapped, h],
      by simp [python, h]⟩
  · exact ⟨by simp [python, Python.classify, h], by simp [python, Python.wrapped, h],
      by simp [python, h]⟩

theorem refers_python (src : Source) (c : Cst) : python.Refers src c := by
  refine ⟨?_, ?_, ?_, ?_, ?_⟩
  · intro kind h
    cases kind <;> simp [python, Python.flags] at h ⊢
  · intro kind h
    cases kind <;> simp [python, Python.flags, Python.isMainGuard] at h
    simp [python, Python.namedLiteral, h.1]
  · intro doc h
    simp only [python, Python.docstring, Option.bind_eq_bind, Option.bind_eq_some_iff] at h
    obtain ⟨body, hbody, first, hfirst, hdoc⟩ := h
    split at hdoc
    · cases hdoc
      exact ⟨body, Cst.field?_mem hbody,
        Cst.namedChildren_subset (List.mem_of_find?_eq_some hfirst)⟩
    · cases hdoc
  · intro kind hkind _
    by_cases hdecorated : c.kind = "decorated_definition"
    · simp [python, Python.classify, hdecorated] at hkind
    · simp [python, Python.wrapped, hdecorated]
  · intro name lit h
    obtain ⟨hkind, assignment, hmem, hassignment, hlit, hlambda⟩ := Python.exists_assignment h
    refine ⟨transparent_python (Or.inl hkind), assignment,
      .single ⟨hmem, transparent_python (Or.inr hassignment)⟩, hlit, ?_, ?_⟩
    · simp [python, Python.classify, hlambda]
    · simp [python, Python.flags, hlambda]

/-! ### JavaScript and TypeScript -/

theorem JavaScript.exists_declarator {c lit : Cst} {name : String}
    (h : JavaScript.namedLiteral src c = some (name, lit)) :
    (c.kind = "lexical_declaration" ∨ c.kind = "variable_declaration")
      ∧ ∃ declarator : Cst, declarator ∈ c.children ∧ declarator.kind = "variable_declarator"
        ∧ lit ∈ declarator.children ∧ lit.kind ∈ JavaScript.callableLiterals := by
  simp only [JavaScript.namedLiteral] at h
  split at h
  · cases h
  · next hkind =>
    split at h
    · next declarator hdeclarators =>
      have hmem : declarator ∈ c.namedChildren.filter
          fun d => d.label.kind == "variable_declarator" := by
        rw [hdeclarators]
        exact List.mem_singleton_self _
      obtain ⟨hnamed, hdeclarator⟩ := List.mem_filter.mp hmem
      simp only [Option.bind_eq_bind, Option.bind_eq_some_iff] at h
      obtain ⟨_, -, value, hvalue, hsome⟩ := h
      split at hsome
      · next hcallable =>
        cases hsome
        have hkinds : c.kind = "lexical_declaration" ∨ c.kind = "variable_declaration" := by
          simpa [or_iff_not_imp_left] using hkind
        refine ⟨hkinds, declarator, Cst.namedChildren_subset hnamed,
          by simpa [Cst.kind] using hdeclarator, Cst.field?_mem hvalue, ?_⟩
        simp only [Bool.and_eq_true, List.contains_iff_mem] at hcallable
        exact hcallable.2
      · cases hsome
    · cases h

theorem transparent_scripted (typed : Bool) {c : Cst} (h : c.kind = "lexical_declaration"
    ∨ c.kind = "variable_declaration" ∨ c.kind = "variable_declarator") :
    (scripted language typed).Transparent c := by
  rcases h with h | h | h
  · exact ⟨by simp [scripted, JavaScript.classify, JavaScript.callableLiterals, h],
      by simp [scripted, JavaScript.wrapped, h], by simp [scripted, h]⟩
  · exact ⟨by simp [scripted, JavaScript.classify, JavaScript.callableLiterals, h],
      by simp [scripted, JavaScript.wrapped, h], by simp [scripted, h]⟩
  · exact ⟨by simp [scripted, JavaScript.classify, JavaScript.callableLiterals, h],
      by simp [scripted, JavaScript.wrapped, h], by simp [scripted, h]⟩

theorem refers_scripted (language : Language) (typed : Bool) (src : Source) (c : Cst) :
    (scripted language typed).Refers src c := by
  refine ⟨?_, ?_, ?_, ?_, ?_⟩
  · intro kind h
    cases kind <;> simp [scripted, JavaScript.flags] at h ⊢
  · intro kind h
    cases kind <;> simp [scripted, JavaScript.flags] at h
  · intro doc h
    cases h
  · intro kind _ h
    exact absurd rfl h
  · intro name lit h
    obtain ⟨hkind, declarator, hmem, hdeclarator, hlit, hcallable⟩ :=
      JavaScript.exists_declarator h
    refine ⟨transparent_scripted typed (hkind.imp_right Or.inl), declarator,
      .single ⟨hmem, transparent_scripted typed (Or.inr (Or.inr hdeclarator))⟩, hlit, ?_, ?_⟩
    · simp only [JavaScript.callableLiterals, List.mem_cons, List.not_mem_nil, or_false]
        at hcallable
      rcases hcallable with h | h | h | h <;>
        simp [scripted, JavaScript.classify, JavaScript.callableLiterals, h]
    · simpa [scripted, JavaScript.flags] using hcallable

/-! ### Go -/

theorem Go.exists_values {c lit : Cst} {name : String}
    (h : Go.namedLiteral src c = some (name, lit)) :
    c.kind = "var_declaration" ∧ ∃ spec : Cst, spec ∈ c.children ∧ spec.kind = "var_spec"
      ∧ ∃ values : Cst, spec.field? "value" = some values ∧ lit ∈ values.children
        ∧ lit.kind = "func_literal" := by
  simp only [Go.namedLiteral] at h
  split at h
  · cases h
  · next hkind =>
    split at h
    · next spec hspecs =>
      by_cases hspec : spec.label.kind = "var_spec"
      · simp only [hspec, bne_self_eq_false, Bool.false_eq_true, if_false, Option.bind_eq_bind,
          Option.bind_eq_some_iff] at h
        obtain ⟨values, hvalues, hsome⟩ := h
        split at hsome
        · next literal _ hliterals =>
          split at hsome
          · next hliteral =>
            cases hsome
            exact ⟨by simpa using hkind, spec, mem_of_namedChildren_eq_singleton hspecs, hspec,
              values, hvalues, mem_of_namedChildren_eq_singleton hliterals,
              by simpa [Cst.kind] using hliteral⟩
          · cases hsome
        · cases hsome
      · simp [hspec] at h
    · cases h

theorem transparent_go {c : Cst} (h : c.kind = "var_declaration" ∨ c.kind = "var_spec"
    ∨ c.kind = "expression_list") : go.Transparent c := by
  rcases h with h | h | h
  · exact ⟨by simp [go, Go.classify, h], by simp [go, Go.wrapped, h], by simp [go, h]⟩
  · exact ⟨by simp [go, Go.classify, h], by simp [go, Go.wrapped, h], by simp [go, h]⟩
  · exact ⟨by simp [go, Go.classify, h], by simp [go, Go.wrapped, h], by simp [go, h]⟩

theorem refers_go (src : Source) {c : Cst} (hvalues : ∀ spec ∈ c.children, ListsValues spec) :
    go.Refers src c := by
  refine ⟨?_, ?_, ?_, ?_, ?_⟩
  · intro kind h
    cases h
  · intro kind h
    cases h
  · intro doc h
    cases h
  · intro kind _ h
    exact absurd rfl h
  · intro name lit h
    obtain ⟨hkind, spec, hmem, hspec, values, hfield, hlit, hliteral⟩ := Go.exists_values h
    have hlist : values.kind = "expression_list" := hvalues spec hmem hspec values hfield
    refine ⟨transparent_go (Or.inl hkind), values, ?_, hlit, ?_, ?_⟩
    · refine .tail (.single ⟨hmem, transparent_go (Or.inr (Or.inl hspec))⟩) ?_
      exact ⟨Cst.field?_mem hfield, transparent_go (Or.inr (Or.inr hlist))⟩
    · simp [go, Go.classify, hliteral]
    · simp [go, Go.flags, hliteral]

/-! ### Rust -/

theorem refers_rust (src : Source) (c : Cst) : rust.Refers src c := by
  refine ⟨?_, ?_, ?_, ?_, ?_⟩
  · intro kind h
    cases kind <;> simp [rust, Rust.flags] at h ⊢
  · intro kind h
    cases kind <;> simp [rust, Rust.flags] at h
  · intro doc h
    cases h
  · intro kind _ h
    exact absurd rfl h
  · intro name lit h
    cases h

/-- **What any grammar refers to.** Only one of them asks for something of the parser. -/
theorem refers_of_ofLanguage? (hg : ofLanguage? language = some g) (src : Source) {c : Cst}
    (hvalues : language = .go → ∀ spec ∈ c.children, ListsValues spec) : g.Refers src c := by
  cases language <;> cases hg
  · exact refers_rust src c
  · exact refers_python src c
  · exact refers_scripted _ _ src c
  · exact refers_scripted _ _ src c
  · exact refers_scripted _ _ src c
  · exact refers_go src (hvalues rfl)

end Grammar

/-- A definition is kept under its own kind. -/
theorem Grammar.classify_of_keptKind? {g : Grammar} {inBody : Bool} {c : Cst} {kind : NodeKind}
    (h : g.keptKind? inBody c = some kind) (hkind : kind.isDefinition = true) :
    g.classify c = some kind := by
  rw [keptKind?] at h
  rcases Option.or_eq_some_iff.mp h with h | ⟨-, h⟩
  · exact h
  · split at h
    · cases h
      cases hkind
    · cases h

/-- What the draft of a definition says about it. -/
theorem Grammar.keep_spec {g : Grammar} {src : Source} {b x : Cst} {d : Draft}
    (h : Entry.keep d x ∈ g.entries src b) :
    ∃ kind, g.keptKind? (g.isBody b.kind) x = some kind ∧ d.definition = x.label.id
      ∧ d.node.kind = kind ∧ d.node.flags = g.flags src kind x
      ∧ d.docstring = (if kind.isDefinition then (g.docstring x).map fun doc => doc.label.id
        else none)
      ∧ d.literal = (if kind == .statement then g.namedLiteral src x else none).map
        fun n => n.2.label.id := by
  obtain ⟨child, -, hentry⟩ := exists_entryOf h
  cases hentry with
  | keep waiting kept => exact ⟨_, kept, rfl, rfl, rfl, rfl, rfl⟩

/-! ## Where references lead -/

namespace Layout.Filled

variable {g : Grammar} {src : Source} {root : Cst} {l : Layout}

theorem sown_keep {b : Cst} {p : Nat} (hb : l.Sown p (g.outline src b)) {d : Draft}
    {definition : Cst} (he : Entry.keep d definition ∈ g.entries src b) :
    ∃ id, l.Seat p d id ∧ l.Sown id (g.outline src definition) := by
  rw [g.outline_eq] at hb
  exact hb.of_kept (List.mem_map_of_mem
    (f := fun e : Entry => ofEntry e (g.outline src e.subject)) he)

theorem sown_dissolve {b : Cst} {p : Nat} (hb : l.Sown p (g.outline src b)) {child : Cst}
    (he : Entry.dissolve child ∈ g.entries src b) : l.Sown p (g.outline src child) := by
  rw [g.outline_eq] at hb
  exact hb.of_spliced (List.mem_map_of_mem
    (f := fun e : Entry => ofEntry e (g.outline src e.subject)) he)

theorem exists_sown (h : Filled g src root l) {b : Cst} (hb : g.Visits src root b) :
    ∃ p, l.Sown p (g.outline src b) := by
  induction hb with
  | root => exact ⟨0, h.sown⟩
  | @entry b e _ mem ih =>
    obtain ⟨p, hp⟩ := ih
    cases e with
    | keep d definition =>
      obtain ⟨id, -, hid⟩ := sown_keep hp mem
      exact ⟨id, hid⟩
    | dissolve child => exact ⟨p, sown_dissolve hp mem⟩

/-- A place of the concrete tree has one number. -/
theorem eq_of_placed (h : Filled g src root l) {key a b : Nat} (ha : (key, a) ∈ l.placed)
    (hb : (key, b) ∈ l.placed) : a = b :=
  (Prod.mk.inj (List.inj_on_of_nodup_map h.nodup ha hb rfl)).2

/-- The entry that a draft was made for, and where it was written. -/
theorem exists_seat (h : Filled g src root l) {d : Draft} {id : Nat}
    (hd : d ∈ draftsAll (g.outline src root)) (hplaced : (d.definition, id) ∈ l.placed) :
    ∃ b definition, g.Visits src root b ∧ Entry.keep d definition ∈ g.entries src b
      ∧ l.Sown id (g.outline src definition)
      ∧ (l.tree.node id).kind = d.node.kind ∧ (l.tree.node id).flags = d.node.flags
      ∧ ∀ p, l.Sown p (g.outline src b) → id ∈ l.tree.children p := by
  obtain ⟨b, definition, hb, hkeep⟩ := Grammar.exists_visit_of_mem_drafts .root hd
  -- wherever the entry is written, it is under this number
  have hwritten : ∀ p, l.Sown p (g.outline src b) →
      l.Seat p d id ∧ l.Sown id (g.outline src definition) := by
    intro p hp
    obtain ⟨id', hseat, hsown⟩ := sown_keep hp hkeep
    obtain rfl := h.eq_of_placed hseat.placed hplaced
    exact ⟨hseat, hsown⟩
  obtain ⟨p, hp⟩ := h.exists_sown hb
  obtain ⟨hseat, hsown⟩ := hwritten p hp
  exact ⟨b, definition, hb, hkeep, hsown, hseat.kind, hseat.flags,
    fun q hq => (hwritten q hq).1.child⟩

/-- The entry that stands for a child, given the number it has got. -/
theorem exists_seat_of_child (h : Filled g src root l) (hids : root.DistinctIds) {x y : Cst}
    {id : Nat} (hplaced : (x.label.id, id) ∈ l.placed) (hy : Within root y)
    (hx : x ∈ y.children) :
    ∃ b d, g.Visits src root b ∧ Entry.keep d x ∈ g.entries src b
      ∧ (b = y ∨ g.wrapped y = some x ∧ y ∈ b.children)
      ∧ (l.tree.node id).kind = d.node.kind ∧ (l.tree.node id).flags = d.node.flags
      ∧ ∀ p, l.Sown p (g.outline src b) → id ∈ l.tree.children p := by
  obtain ⟨d, hd, hdefinition⟩ := h.drafted _ hplaced
  rw [← show d.definition = x.label.id from hdefinition] at hplaced
  obtain ⟨b, definition, hb, hkeep, -, hkind, hflags, hchild⟩ := h.exists_seat hd hplaced
  have hid : definition.label.id = x.label.id := by
    obtain ⟨-, -, hd', -⟩ := Grammar.keep_spec hkeep
    exact hd'.symm.trans hdefinition
  obtain ⟨rfl, hplace⟩ := hb.entry_of_id hids hkeep hy hx hid
  exact ⟨b, d, hb, hkeep, hplace, hkind, hflags, hchild⟩

/-- What lies below transparent nodes is written below the node they lie in. -/
theorem sown_of_leadsTo (hids : root.DistinctIds) {c y : Cst} {q : Nat}
    (hc : Within root c) (htransparent : g.Transparent c) (hpath : g.LeadsTo c y)
    (hsown : l.Sown q (g.outline src c)) (hy : g.Visits src root y) :
    l.Sown q (g.outline src y) := by
  induction hpath with
  | refl => exact hsown
  | @tail z y hz hstep ih =>
    obtain ⟨hwithin, hz'⟩ := Grammar.LeadsTo.within hz hc htransparent
    obtain ⟨hvisit, e, he, hsubject⟩ := hy.entry_of_child hids hwithin hstep.1 hz'.wrapped
    obtain ⟨child, -, hentry⟩ := Grammar.exists_entryOf he
    cases hentry with
    | keep waiting kept =>
      -- outside of a body only nodes with a meaning of their own are kept
      rw [show (g.wrapped child).getD child = y from hsubject, Grammar.keptKind?, hz'.isBody,
        hstep.2.classify] at kept
      cases kept
    | dissolve =>
      obtain rfl : child = y := hsubject
      exact sown_dissolve (ih hvisit) he

/-- A docstring that has got a number lies below its definition, as a statement. -/
theorem docstring_below (h : Filled g src root l) (hids : root.DistinctIds)
    (hrefers : ∀ c, Within root c → g.Refers src c) {q key doc : Nat}
    (hnoted : (q, key) ∈ l.docstrings) (hplaced : (key, doc) ∈ l.placed)
    (hflag : (l.tree.node doc).flags.stringLiteral = true) :
    (l.tree.node doc).kind = .statement ∧ l.tree.Below q doc := by
  obtain ⟨d, hd, hdefinition, hdocstring⟩ := h.docstrings _ hnoted
  obtain ⟨b, c, hb, hkeep, hsown, -⟩ := h.exists_seat hd hdefinition
  obtain ⟨kind, hkept, -, -, -, hdoc, -⟩ := Grammar.keep_spec hkeep
  have hc : Within root c := (hb.entry hkeep).within
  rw [hdocstring] at hdoc
  split at hdoc
  · next hisDefinition =>
    obtain ⟨x, hx, rfl⟩ := Option.map_eq_some_iff.mp hdoc.symm
    obtain ⟨body, hbody, hxbody⟩ := (hrefers c hc).docstring x hx
    have hclassify := Grammar.classify_of_keptKind? hkept hisDefinition
    have hwrapped : g.wrapped c = none :=
      (hrefers c hc).definition kind hclassify (by rw [hx]; exact Option.some_ne_none _)
    obtain ⟨b', d', hb', hkeep', hplace, hkind, hflags, hchild⟩ :=
      h.exists_seat_of_child hids hplaced (hc.child hbody) hxbody
    obtain ⟨kind', -, -, hkind', hflags', -, -⟩ := Grammar.keep_spec hkeep'
    constructor
    · rw [hkind, hkind']
      rw [hflags, hflags'] at hflag
      exact (hrefers x (hb'.entry hkeep').within).stringLiteral kind' hflag
    · rcases hplace with rfl | ⟨-, hmem⟩
      · -- the part of the definition that holds it was kept or dissolved
        obtain ⟨-, e, he, hsubject⟩ := hb'.entry_of_child hids hc hbody hwrapped
        cases e with
        | keep d'' body' =>
          obtain rfl : body' = b' := hsubject
          obtain ⟨id, hseat, hinner⟩ := sown_keep hsown he
          exact .tail (.single hseat.child) (hchild id hinner)
        | dissolve body' =>
          obtain rfl : body' = b' := hsubject
          exact .single (hchild q (sown_dissolve hsown he))
      · -- it is wrapped by that part, so it was met below the definition itself
        obtain ⟨rfl, -⟩ := Cst.edges_inj hids (hb'.within.edge hmem) (hc.edge hbody) rfl
        exact .single (hchild q hsown)
  · cases hdoc

/-- A literal that has got a number is a callable literal right below its statement. -/
theorem literal_child (h : Filled g src root l) (hids : root.DistinctIds)
    (hrefers : ∀ c, Within root c → g.Refers src c) {q key lit : Nat}
    (hnoted : (q, key) ∈ l.literals) (hplaced : (key, lit) ∈ l.placed) :
    ((l.tree.node lit).kind = .expression ∧ (l.tree.node lit).flags.callableLiteral = true)
      ∧ lit ∈ l.tree.children q
      ∧ (l.tree.node q).kind = .statement ∧ (l.tree.node q).flags.guardedEntry = false := by
  obtain ⟨d, hd, hdefinition, hliteral⟩ := h.literals _ hnoted
  obtain ⟨b, c, hb, hkeep, hsown, hkind, hflags, -⟩ := h.exists_seat hd hdefinition
  obtain ⟨kind, -, -, hkind', hflags', -, hnamed⟩ := Grammar.keep_spec hkeep
  have hc : Within root c := (hb.entry hkeep).within
  rw [hliteral] at hnamed
  obtain ⟨⟨name, x⟩, hname, rfl⟩ := Option.map_eq_some_iff.mp hnamed.symm
  split at hname
  · next hstatement =>
    obtain rfl : kind = .statement := by simpa using hstatement
    obtain ⟨htransparent, y, hpath, hxy, hclassify, hcallable⟩ :=
      (hrefers c hc).literal name x hname
    have hy := hpath.within hc htransparent
    obtain ⟨b', d', hb', hkeep', hplace, hkind'', hflags'', hchild⟩ :=
      h.exists_seat_of_child hids hplaced hy.1 hxy
    obtain ⟨kind', hkept', -, hdkind, hdflags, -, -⟩ := Grammar.keep_spec hkeep'
    obtain rfl : kind' = .expression := by
      rw [Grammar.keptKind?, hclassify, Option.some_or] at hkept'
      exact (Option.some.inj hkept').symm
    refine ⟨⟨hkind''.trans hdkind, ?_⟩, ?_, hkind.trans hkind', ?_⟩
    · rw [hflags'', hdflags]
      exact hcallable
    · rcases hplace with rfl | ⟨hwrapped, -⟩
      · exact hchild q (sown_of_leadsTo hids hc htransparent hpath hsown hb')
      · cases hy.2.wrapped.symm.trans hwrapped
    · rw [hflags, hflags', ← Bool.not_eq_true]
      intro hguarded
      cases ((hrefers c hc).guardedEntry _ hguarded).symm.trans hname
  · cases hname

end Layout.Filled

/-! ## Tables -/

namespace Retells

variable {t t' : SyntaxTree}

theorem kind_eq (h : Retells t t') (q : Nat) : (t'.node q).kind = (t.node q).kind :=
  congrArg KeptNode.kind (h.keptNode_eq q)

theorem flags_eq (h : Retells t t') (q : Nat) : (t'.node q).flags = (t.node q).flags :=
  congrArg KeptNode.flags (h.keptNode_eq q)

theorem mem_children_iff (h : Retells t t') {q c : Nat} :
    c ∈ t'.children q ↔ c ∈ t.children q := (h.children_perm q).mem_iff

theorem below (h : Retells t t') {a b : Nat} (hbelow : t.Below a b) : t'.Below a b :=
  Relation.TransGen.mono (fun _ _ hc => h.mem_children_iff.mpr hc) _ _ hbelow

theorem eachOnce (h : Retells t t') (honce : t.EachOnce) : t'.EachOnce where
  parent_unique p q c hp hq :=
    honce.parent_unique p q c (h.mem_children_iff.mp hp) (h.mem_children_iff.mp hq)
  nodup p := (h.children_perm p).nodup_iff.mpr (honce.nodup p)

end Retells

namespace SyntaxTree

variable {t : SyntaxTree} {cfg : Config} {src : Source}

/-- The node of a chunk of the units has a chunk. -/
theorem hasChunk_of_mem_chunks {language : Language} (honce : t.EachOnce) {c : Chunk}
    (hc : c ∈ (ChunkTree.ofSyntaxTree cfg language src t).chunks) {id : Nat}
    (hid : c.node = some id) : t.inconsistency? src = none ∧ t.HasChunk cfg id := by
  have hnode : some id ∈ chunkNodes (ChunkTree.ofSyntaxTree cfg language src t).roots := by
    rw [← hid]
    exact List.mem_map_of_mem hc
  obtain ⟨hproblem, -, hchunk⟩ :=
    (ChunkTree.mem_nodes_ofSyntaxTree_iff cfg language src honce).mp hnode
  exact ⟨inconsistency?_of_problem? hproblem, hchunk⟩

/-- The table of a concrete tree lists no node twice. -/
theorem eachOnce_ofCst (g : Grammar) (src : Source) (root : Cst) : (ofCst g src root).EachOnce :=
  (Layout.retells_ofCst g src root).eachOnce (Layout.listsOnce_write g src root).once

/-- The layout whose references make the table of a concrete tree. -/
theorem exists_filled {root : Cst} (hids : root.DistinctIds) (g : Grammar) (src : Source) :
    ∃ l : Layout, l.Filled g src root ∧ Retells l.tree (ofCst g src root)
      ∧ ∀ q, ((ofCst g src root).node q).docstring = (l.resolve.node q).docstring
        ∧ ((ofCst g src root).node q).literal = (l.resolve.node q).literal := by
  refine ⟨_, Layout.filled_write hids g src, Layout.retells_ofCst g src root, fun q => ?_⟩
  unfold ofCst
  rw [node_sortChildren]
  exact ⟨rfl, rfl⟩

/-- **The references of a table.** A docstring is a statement that is a string literal, strictly
below the node it documents. The literal that a statement names is a callable literal right below
it; so where such statements are chunks, the literal of a top-level one has no chunk of its own. -/
theorem references_ofCst {language : Language} {g : Grammar}
    (hg : Grammar.ofLanguage? language = some g) (src : Source) {rows : List Cst.Row} {root : Cst}
    (hroot : Cst.ofRows? rows = some root)
    (hvalues : language = .go → ∀ c, Within root c → Grammar.ListsValues c) :
    (∀ q doc, ((ofCst g src root).node q).docstring = some doc →
      ((ofCst g src root).node doc).kind = .statement
        ∧ ((ofCst g src root).node doc).flags.stringLiteral = true
        ∧ (ofCst g src root).Below q doc)
    ∧ (∀ q lit, ((ofCst g src root).node q).literal = some lit →
      ((ofCst g src root).node lit).kind = .expression
        ∧ ((ofCst g src root).node lit).flags.callableLiteral = true
        ∧ ((ofCst g src root).node q).kind = .statement
        ∧ lit ∈ (ofCst g src root).children q)
    ∧ (∀ cfg : Config, cfg.lambdaAssignments = .chunk → ∀ u ∈ (ofCst g src root).children 0,
      ∀ lit, ((ofCst g src root).node u).literal = some lit →
      ∀ c ∈ (ChunkTree.ofSyntaxTree cfg language src (ofCst g src root)).chunks,
        c.node ≠ some lit) := by
  have hids := Cst.distinctIds_ofRows? hroot
  have hrefers : ∀ c, Within root c → g.Refers src c := fun c hc =>
    Grammar.refers_of_ofLanguage? hg src fun hgo spec hspec => hvalues hgo spec (hc.child hspec)
  obtain ⟨l, hfilled, hretells, hrefs⟩ := exists_filled hids g src
  have hliteral : ∀ q lit, ((ofCst g src root).node q).literal = some lit →
      ((l.tree.node lit).kind = .expression ∧ (l.tree.node lit).flags.callableLiteral = true)
        ∧ lit ∈ l.tree.children q
        ∧ (l.tree.node q).kind = .statement ∧ (l.tree.node q).flags.guardedEntry = false := by
    intro q lit hlit
    rw [(hrefs q).2] at hlit
    obtain ⟨key, hnoted, hplaced⟩ := Layout.literal_resolve hfilled.unreferring hlit
    exact hfilled.literal_child hids hrefers hnoted hplaced
  refine ⟨?_, ?_, ?_⟩
  · intro q doc hdoc
    rw [(hrefs q).1] at hdoc
    obtain ⟨key, hnoted, hplaced, hflag⟩ := Layout.docstring_resolve hfilled.unreferring hdoc
    obtain ⟨hkind, hbelow⟩ := hfilled.docstring_below hids hrefers hnoted hplaced hflag
    rw [hretells.kind_eq, hretells.flags_eq]
    exact ⟨hkind, hflag, hretells.below hbelow⟩
  · intro q lit hlit
    obtain ⟨⟨hkind, hcallable⟩, hchild, hstatement, -⟩ := hliteral q lit hlit
    rw [hretells.kind_eq, hretells.flags_eq, hretells.kind_eq]
    exact ⟨hkind, hcallable, hstatement, hretells.mem_children_iff.mpr hchild⟩
  · intro cfg hchunk u hu lit hlit c hc hnode
    obtain ⟨-, hchild, hstatement, hguarded⟩ := hliteral u lit hlit
    rw [← hretells.kind_eq] at hstatement
    rw [← hretells.flags_eq] at hguarded
    have hchild' := hretells.mem_children_iff.mpr hchild
    have honce := hretells.eachOnce hfilled.listsOnce.once
    obtain ⟨hcons, hhas⟩ := hasChunk_of_mem_chunks honce hc hnode
    have hunit : (ofCst g src root).IsUnit u := ⟨hu, by rw [hstatement]; decide⟩
    refine not_hasChunk_of_namedAbove honce hcons hunit hchild' ⟨u, hunit, ?_, hlit, hchild'⟩ hhas
    simp [unitOrigin?, hstatement, hguarded, hlit, hchunk]

/-- A row of a named node. -/
def namedRow (kind : String) (start stop childCount : Nat) (field : Option String) : Cst.Row where
  kind := kind
  named := true
  extra := false
  error := false
  missing := false
  hasError := false
  range := ⟨start, stop⟩
  childCount := childCount
  field := field

/-- A row of a token. -/
def tokenRow (kind : String) (start stop : Nat) : Cst.Row :=
  { namedRow kind start stop 0 none with named := false }

def documentedSource : Source := { text := "def g(): \"d\"\n" }

/-- The rows of `def g(): "d"`. -/
def documentedRows : List Cst.Row := [
  namedRow "module" 0 13 1 none,
  namedRow "function_definition" 0 12 2 none,
  namedRow "identifier" 4 5 0 (some "name"),
  namedRow "block" 9 12 1 (some "body"),
  namedRow "expression_statement" 9 12 1 none,
  namedRow "string" 9 12 0 none]

def variableSource : Source := { text := "var f=func(){}\n" }

/-- The rows of `var f=func(){}`. -/
def variableRows : List Cst.Row := [
  namedRow "source_file" 0 15 1 none,
  namedRow "var_declaration" 0 14 1 none,
  namedRow "var_spec" 4 14 2 none,
  namedRow "identifier" 4 5 0 (some "name"),
  namedRow "expression_list" 6 14 1 (some "value"),
  namedRow "func_literal" 6 14 0 none]

/-- The docstring is found below the function, and the literal below its statement alone. -/
theorem references_ofCst_rows :
    (∃ root, Cst.ofRows? documentedRows = some root
      ∧ ((ofCst .python documentedSource root).node 1).docstring = some 2
      ∧ (ofCst .python documentedSource root).Below 1 2)
    ∧ ∃ root, Cst.ofRows? variableRows = some root
      ∧ ((ofCst .go variableSource root).node 1).literal = some 2
      ∧ 2 ∈ (ofCst .go variableSource root).children 1
      ∧ ∀ c ∈ (ChunkTree.ofSyntaxTree { chunkAnonymousLiterals := true } .go
          variableSource (ofCst .go variableSource root)).chunks,
        c.node ≠ some 2 := by
  constructor
  · have hany : (Cst.ofRows? documentedRows).any (fun root => decide
        (((ofCst .python documentedSource root).node 1).docstring = some 2)) = true := by
      decide +kernel
    obtain ⟨root, hroot, hdoc⟩ := (Option.any_eq_true _ _).mp hany
    have hdoc := of_decide_eq_true hdoc
    have hg : Grammar.ofLanguage? .python = some .python := rfl
    have hrefs := references_ofCst hg documentedSource hroot fun h => nomatch h
    exact ⟨root, hroot, hdoc, (hrefs.1 1 2 hdoc).2.2⟩
  · have hany : (Cst.ofRows? variableRows).any (fun root => decide
        (((ofCst .go variableSource root).node 1).literal = some 2
          ∧ 1 ∈ (ofCst .go variableSource root).children 0
          ∧ Grammar.ListsValues root ∧ ∀ e ∈ root.edges, Grammar.ListsValues e.2)) = true := by
      decide +kernel
    obtain ⟨root, hroot, hfacts⟩ := (Option.any_eq_true _ _).mp hany
    obtain ⟨hlit, hunit, hvalue, hvalues⟩ := of_decide_eq_true hfacts
    have hg : Grammar.ofLanguage? .go = some .go := rfl
    have hwithin : ∀ c, Within root c → Grammar.ListsValues c := by
      rintro c (rfl | ⟨p, hp⟩)
      · exact hvalue
      · exact hvalues _ hp
    have hrefs := references_ofCst hg variableSource hroot fun _ => hwithin
    exact ⟨root, hroot, hlit, (hrefs.2.1 1 2 hlit).2.2.2, hrefs.2.2 _ rfl 1 hunit 2 hlit⟩

end SyntaxTree

end SourceChunks

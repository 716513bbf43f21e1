import SourceChunks.Proofs.DocComments
import SourceChunks.Proofs.Lines

/-!
# Comments on lines of their own

A comment of a Go file that is directly above a declaration documents it unless the sibling before
the comment ends on the line of the comment. A sibling whose text does not end in a blank ends on an
earlier line if only blanks come before the comment. But one that takes in the line feed before the
comment ends at the start of the comment's line, and the comment is refused although it has the line
to itself.

* `Grammar.node_mem_contractFrom`, `SyntaxTree.exists_child_of_content` — a child of a body is kept
* `Grammar.docsBefore_tokens` — tokens between a comment and what it documents
* `SyntaxTree.comments_of_directlyAbove` — what becomes of a comment above a declaration
* `SyntaxTree.brokenRune_hides_comment` — a comment behind a sibling that takes in the line feed
-/

namespace SourceChunks

open RoseTree Text

namespace Grammar

variable {g : Grammar} {src : Source}

/-- A child with a kind is kept where it stands. -/
theorem node_mem_contractFrom (src : Source) {inBody : Bool} {child : Cst} {kind : NodeKind}
    (hcontent : g.isContent child = true)
    (hkind : g.keptKind? inBody ((g.wrapped child).getD child) = some kind)
    (before first rest : List Cst) :
    .node (g.keptNode src kind (first.reverse ++ before) child rest)
        (g.contract src ((g.wrapped child).getD child))
      ∈ g.contractFrom src inBody before (first ++ child :: rest) := by
  induction first generalizing before with
  | nil =>
    rw [List.nil_append, contractFrom, if_pos hcontent]
    simp [hkind]
  | cons d first ih =>
    rw [List.cons_append, contractFrom, List.reverse_cons, List.append_assoc]
    exact List.mem_append_right _ (ih (d :: before))

/-- Tokens do not come between a comment and what it documents. -/
theorem docsBefore_tokens (before : List Cst) {tokens : List Cst}
    (htokens : ∀ d ∈ tokens, d.label.named = false) (after : List Cst) :
    g.docsBefore src (tokens ++ before) after
      = g.docsBefore src before (tokens.reverse ++ after) := by
  induction tokens generalizing after with
  | nil => rfl
  | cons d tokens ih =>
    obtain ⟨hd, htokens⟩ := List.forall_mem_cons.mp htokens
    rw [List.cons_append, docsBefore]
    simp [isContent, hd, ih htokens]

end Grammar

namespace SyntaxTree

theorem Holds.exists_of_mem {t : SyntaxTree} {lo : Nat} {ids : List Nat}
    {forest : List (RoseTree KeptNode)} (h : Holds t lo ids forest) {n : KeptNode}
    {ts : List (RoseTree KeptNode)} (hn : .node n ts ∈ forest) : ∃ x ∈ ids, t.keptNode x = n := by
  induction h with
  | nil => cases hn
  | cons ge lt modifiers label children inside after _ ih =>
    rcases List.mem_cons.mp hn with hn | hn
    · obtain ⟨rfl, rfl⟩ := RoseTree.node.inj hn
      exact ⟨_, List.mem_cons_self, label⟩
    · obtain ⟨x, hx, hlabel⟩ := ih hn
      exact ⟨x, List.mem_cons_of_mem _ hx, hlabel⟩

/-- A child of a file that is neither a token nor a comment is a child of its table. -/
theorem exists_child_of_content {g : Grammar} (src : Source) {root child : Cst}
    (hbody : g.isBody root.kind = true) (hcontent : g.isContent child = true)
    {first rest : List Cst} (hchildren : root.children = first ++ child :: rest) :
    ∃ kind, ∃ x ∈ (ofCst g src root).children 0,
      (ofCst g src root).keptNode x = g.keptNode src kind first.reverse child rest := by
  obtain ⟨kind, hkind⟩ : ∃ kind, g.keptKind? true ((g.wrapped child).getD child) = some kind := by
    unfold Grammar.keptKind?
    cases g.classify ((g.wrapped child).getD child) <;> simp
  have hmem := Grammar.node_mem_contractFrom src hcontent hkind [] first rest
  rw [List.append_nil, ← hchildren, ← hbody, ← Grammar.contract] at hmem
  cases (holds_ofCst g src root).1 with
  | cons ge lt modifiers label children inside after =>
    obtain ⟨x, hx, hlabel⟩ := inside.exists_of_mem hmem
    exact ⟨kind, x, children.mem_iff.mpr hx, hlabel⟩

end SyntaxTree

/-! ## Comments above a declaration -/

/-- The children of a node follow one another. -/
def Cst.SiblingsOrdered (c : Cst) : Prop :=
  c.children.Pairwise fun d e => d.label.range.stop ≤ e.label.range.start

instance : DecidablePred Cst.SiblingsOrdered := fun c =>
  inferInstanceAs (Decidable (c.children.Pairwise _))

/-- A comment among the children of a file, with a declaration next to it that is on its last line
or the one after. -/
structure DirectlyAbove (src : Source) (root : Cst) where
  /-- What stands before the comment, the nearest first. -/
  before : List Cst
  comment : Cst
  after : List Cst
  next : Cst
  children_eq : root.children = before.reverse ++ comment :: after
  named : comment.label.named = true
  isComment : Cst.isComment comment = true
  next_eq : (after.find? fun e => e.label.named) = some next
  declaration : Cst.isComment next = false
  near : src.Near comment.range next.range

namespace DirectlyAbove

variable {src : Source} {root : Cst}

/-- The sibling before the comment, if there is one, has text that does not end in a blank. -/
def TextBefore (a : DirectlyAbove src root) : Prop :=
  ∀ b ∈ a.before.head?, src.chars b.range ≠ [] ∧ endsBlank (src.chars b.range) = false

instance (a : DirectlyAbove src root) : Decidable a.TextBefore :=
  inferInstanceAs (Decidable (∀ b ∈ a.before.head?, _))

/-- The sibling before the comment, if there is one, ends before the line of the comment. -/
def Alone (a : DirectlyAbove src root) : Prop :=
  ∀ b ∈ a.before.head?, b.range.stop < src.lines.lineStart a.comment.range.start

instance (a : DirectlyAbove src root) : Decidable a.Alone :=
  inferInstanceAs (Decidable (∀ b ∈ a.before.head?, _))

/-- What stands before the comment ends before it. -/
theorem stop_le (hordered : Cst.SiblingsOrdered root) (a : DirectlyAbove src root) {b : Cst}
    (hb : b ∈ a.before.head?) : b.range.stop ≤ a.comment.range.start := by
  rw [Cst.SiblingsOrdered, a.children_eq, List.pairwise_append] at hordered
  exact hordered.2.2 b (List.mem_reverse.mpr (List.mem_of_head? hb)) _ List.mem_cons_self

theorem alone_of_onlyBlanksBefore (hordered : Cst.SiblingsOrdered root)
    (a : DirectlyAbove src root) (hblanks : src.OnlyBlanksBefore a.comment.range.start)
    (htext : a.TextBefore) : a.Alone := fun b hb =>
  Source.stop_lt_lineStart hblanks (a.stop_le hordered hb) (htext b hb).1 (htext b hb).2

theorem isDocComment_iff_alone (hordered : Cst.SiblingsOrdered root) (a : DirectlyAbove src root) :
    Grammar.go.isDocComment src a.before.head? a.comment (a.after.find? fun e => e.label.named)
      = true ↔ a.Alone := by
  rw [a.next_eq]
  refine Grammar.Go.isDocComment_iff.trans ⟨fun h b hb => ?_, fun h => ⟨fun b hb => ?_, a.near⟩⟩
  · exact (Source.lineOf_lt_iff (a.stop_le hordered hb)).mp (h.1 b hb)
  · exact (Source.lineOf_lt_iff (a.stop_le hordered hb)).mpr (h b hb)

end DirectlyAbove

namespace SyntaxTree

/-- **A comment directly above a declaration of a Go file** is the last that documents it if the
sibling before the comment ends before its line, and is refused if not. Where only blanks come
before the comment on its line, it documents the declaration unless that sibling has no text or ends
in a blank. -/
theorem comments_of_directlyAbove (src : Source) {root : Cst} (hroot : root.kind = "source_file")
    (hordered : Cst.SiblingsOrdered root)
    (a : DirectlyAbove src root) :
    ∃ x ∈ (ofCst .go src root).children 0,
      ((ofCst .go src root).node x).range = a.next.range
      ∧ ((ofCst .go src root).node x).comments
        = Grammar.go.docsBefore src a.before (a.comment :: a.after)
          ++ (if a.Alone then [a.comment.range] else [])
      ∧ (src.OnlyBlanksBefore a.comment.range.start → a.TextBefore →
        a.comment.range ∈ ((ofCst .go src root).node x).comments) := by
  obtain ⟨hnamed, tokens, rest, hafter, htokens⟩ := List.find?_eq_some_iff_append.mp a.next_eq
  have htokens : ∀ d ∈ tokens.reverse, d.label.named = false := by simpa using htokens
  have hcontent : Grammar.go.isContent a.next = true := by
    simp [Grammar.isContent, hnamed, a.declaration, Grammar.go]
  have hchildren : root.children
      = (a.before.reverse ++ a.comment :: tokens) ++ a.next :: rest := by
    rw [a.children_eq, hafter]
    simp
  have hbody : Grammar.go.isBody root.kind = true := by rw [hroot]; decide
  obtain ⟨kind, x, hx, hkept⟩ := exists_child_of_content src hbody hcontent hchildren
  have hcomments : ((ofCst .go src root).node x).comments
      = Grammar.go.docsBefore src a.before (a.comment :: a.after)
        ++ (if a.Alone then [a.comment.range] else []) := by
    have hlist : (a.before.reverse ++ a.comment :: tokens).reverse
        = tokens.reverse ++ a.comment :: a.before := by simp
    calc ((ofCst .go src root).node x).comments
        = Grammar.go.docsBefore src (tokens.reverse ++ a.comment :: a.before) (a.next :: rest) := by
          rw [← hlist]
          exact congrArg KeptNode.comments hkept
      _ = Grammar.go.docsBefore src (a.comment :: a.before) a.after := by
          rw [Grammar.docsBefore_tokens _ htokens, List.reverse_reverse, ← hafter]
      _ = _ := by
          have hskip : Grammar.go.isContent a.comment = false := by
            simp [Grammar.isContent, a.isComment]
          rw [Grammar.docsBefore, hskip]
          simp [a.named, a.isComment, a.isDocComment_iff_alone hordered]
  refine ⟨x, hx, congrArg KeptNode.range hkept, hcomments, fun hblanks htext => ?_⟩
  rw [hcomments, if_pos (a.alone_of_onlyBlanksBefore hordered hblanks htext)]
  exact List.mem_append_right _ List.mem_cons_self

/-! ## A comment that is refused -/

/-- A package clause and the semicolon that ends it. -/
def packageClause : List Cst := [
  .node { id := 1, kind := "package_clause", range := ⟨0, 9⟩ } [
    .node { id := 2, kind := "package", named := false, range := ⟨0, 7⟩ } [],
    .node { id := 3, kind := "package_identifier", range := ⟨8, 9⟩ } []],
  .node { id := 4, kind := ";", named := false, range := ⟨9, 10⟩ } []]

/-- A comment of four bytes. -/
def commentAt (id start : Nat) : Cst :=
  .node { id := id, kind := "comment", extra := true, range := ⟨start, start + 4⟩ } []

/-- The function of eleven bytes that both files end in. -/
def functionAt (id start : Nat) : Cst :=
  .node { id := id, kind := "function_declaration", range := ⟨start, start + 11⟩ } [
    .node { id := id + 1, kind := "func", named := false, range := ⟨start, start + 4⟩ } [],
    .node { id := id + 2, kind := "identifier", range := ⟨start + 5, start + 6⟩,
            field := some "name" } [],
    .node { id := id + 3, kind := "parameter_list", range := ⟨start + 6, start + 8⟩,
            field := some "parameters" } [
      .node { id := id + 4, kind := "(", named := false, range := ⟨start + 6, start + 7⟩ } [],
      .node { id := id + 5, kind := ")", named := false, range := ⟨start + 7, start + 8⟩ } []],
    .node { id := id + 6, kind := "block", range := ⟨start + 9, start + 11⟩,
            field := some "body" } [
      .node { id := id + 7, kind := "\x7b", named := false, range := ⟨start + 9, start + 10⟩ } [],
      .node { id := id + 8, kind := "\x7d", named := false, range := ⟨start + 10, start + 11⟩ } []]]

def commentedSource : Source := { text := "package p;\n// c\nfunc f() \x7b\x7d\n" }

def commentedFile : Cst :=
  .node { id := 0, kind := "source_file", range := ⟨0, 28⟩ }
    (packageClause ++ [commentAt 5 11, functionAt 6 16])

def commentedAbove : DirectlyAbove commentedSource commentedFile where
  before := packageClause.reverse
  comment := commentAt 5 11
  after := [functionAt 6 16]
  next := functionAt 6 16
  children_eq := rfl
  named := rfl
  isComment := rfl
  next_eq := rfl
  declaration := by decide
  near := by decide +kernel

/-- A comment below a semicolon that ends another line. -/
theorem comments_of_directlyAbove_commentedFile :
    ∃ x ∈ (ofCst .go commentedSource commentedFile).children 0,
      ((ofCst .go commentedSource commentedFile).node x).range = ⟨16, 27⟩
      ∧ ⟨11, 15⟩ ∈ ((ofCst .go commentedSource commentedFile).node x).comments := by
  have hroot : commentedFile.kind = "source_file" := rfl
  obtain ⟨x, hx, hrange, -, hmem⟩ :=
    comments_of_directlyAbove commentedSource hroot (by decide) commentedAbove
  exact ⟨x, hx, hrange, hmem ⟨"", by decide +kernel, by simp⟩ (by decide +kernel)⟩

/-- A quote that no other one follows: what is broken ends behind the line feed. -/
def brokenRuneSource : Source := { text := "package p;'\n// c\nfunc f() \x7b\x7d\n" }

def brokenRuneFile : Cst :=
  .node { id := 0, kind := "source_file", hasError := true, range := ⟨0, 29⟩ }
    (packageClause ++ [
      .node { id := 5, kind := "ERROR", extra := true, error := true, hasError := true,
              range := ⟨10, 12⟩ } [
        .node { id := 6, kind := "ERROR", error := true, range := ⟨10, 12⟩ } []],
      commentAt 7 12, functionAt 8 17])

def brokenRuneAbove : DirectlyAbove brokenRuneSource brokenRuneFile where
  before := (brokenRuneFile.children.take 3).reverse
  comment := commentAt 7 12
  after := [functionAt 8 17]
  next := functionAt 8 17
  children_eq := rfl
  named := rfl
  isComment := rfl
  next_eq := rfl
  declaration := by decide
  near := by decide +kernel

/-- **A comment on a line of its own is refused** if the sibling before it takes in the line feed:
that one ends at the start of the comment's line. -/
theorem brokenRune_hides_comment :
    brokenRuneFile.kind = "source_file" ∧ Cst.SiblingsOrdered brokenRuneFile
      ∧ brokenRuneAbove.comment.range = ⟨12, 16⟩ ∧ brokenRuneAbove.next.range = ⟨17, 28⟩
      ∧ brokenRuneSource.OnlyBlanksBefore 12
      ∧ (ofCst .go brokenRuneSource brokenRuneFile).children 0 = [1, 2]
      ∧ ((ofCst .go brokenRuneSource brokenRuneFile).node 2).range = ⟨17, 28⟩
      ∧ ((ofCst .go brokenRuneSource brokenRuneFile).node 2).comments = [] := by
  refine ⟨rfl, by decide, rfl, rfl, ⟨"", by decide +kernel, by simp⟩, ?_⟩
  decide +kernel

end SyntaxTree

end SourceChunks

import Mathlib.Data.List.Chain
import SourceChunks.Proofs.Attachment
import SourceChunks.Proofs.References

/-!
# Comments above a Go declaration

A comment documents what follows when it has its line to itself and no blank line comes after it.
It is judged by the next named sibling, which may be another comment, and a comment that is refused
does not take those above it with it. So the comments that a node carries are contiguous and right
above it as long as none that was refused stands between them and the node; without that a block
that a blank line separates from the node still documents it, all but its last comment.

* `Grammar.docsBefore_eq` — the documentation of a sibling, out of the comments above it
* `Grammar.Go.isChain_commentsAbove` — each comment is judged by the one below it
* `SyntaxTree.contiguous_comments_of_go` — the comments of a node
* `SyntaxTree.detachedBlock_documents` — a block above a blank line
-/

namespace SourceChunks

/-- A range starts at the latest on the line after the one that another ends on. -/
def Source.Near (src : Source) (r s : ByteRange) : Prop :=
  src.lines.lineOf s.start ≤ src.lines.lineOf r.stop + 1

instance (src : Source) (r s : ByteRange) : Decidable (src.Near r s) :=
  inferInstanceAs (Decidable (_ ≤ _))

/-- A comment above a sibling, with what stands right before it and whether it documents what
follows. -/
structure CommentAbove where
  before : Option Cst
  comment : Cst
  documents : Bool

namespace CommentAbove

def range (a : CommentAbove) : ByteRange := a.comment.label.range

/-- What stands before the comment ends on an earlier line. -/
def OwnLine (src : Source) (a : CommentAbove) : Prop :=
  ∀ b ∈ a.before, src.lines.lineOf b.label.range.stop < src.lines.lineOf a.range.start

/-- A comment documents what follows exactly when it has its line to itself and is near the next
one. -/
def Judges (src : Source) (a b : CommentAbove) : Prop :=
  a.documents = true ↔ a.OwnLine src ∧ src.Near a.range b.range

/-- No comment below one that documents is refused, so those that document come last. -/
def NoneRefused (as : List CommentAbove) : Prop :=
  as.Pairwise fun a b => a.documents = true → b.documents = true

/-- Where none is refused the comments that document are contiguous, down to what is below. -/
theorem isChain_near_of_noneRefused {src : Source} {as : List CommentAbove} {last : CommentAbove}
    (hchain : (as ++ [last]).IsChain (Judges src)) (hnone : NoneRefused as) :
    ((as.filter CommentAbove.documents).map range ++ [last.range]).IsChain src.Near := by
  induction as with
  | nil => exact List.isChain_singleton _
  | cons a as ih =>
    obtain ⟨hlater, hnone⟩ := List.pairwise_cons.mp hnone
    rw [List.cons_append] at hchain
    obtain ⟨hnext, hchain⟩ := List.isChain_cons.mp hchain
    specialize ih hchain hnone
    cases ha : a.documents with
    | false =>
      rw [List.filter_cons_of_neg (by simp [ha])]
      exact ih
    | true =>
      -- all that are left document, so what is next to `a` is also next among the ranges
      have hall : (as.filter CommentAbove.documents).map range ++ [last.range]
          = (as ++ [last]).map range := by
        rw [List.filter_eq_self.mpr fun b hb => hlater b hb ha, List.map_append,
          List.map_singleton]
      rw [List.filter_cons_of_pos ha, List.map_cons, List.cons_append, hall]
      rw [hall] at ih
      refine List.isChain_cons.mpr ⟨fun r hr => ?_, ih⟩
      rw [List.head?_map] at hr
      obtain ⟨b, hb, rfl⟩ := Option.map_eq_some_iff.mp hr
      exact ((hnext b hb).mp ha).2

end CommentAbove

namespace Grammar

open CommentAbove

variable {g : Grammar} {src : Source} {root : Cst}

/-- The comments above a sibling, in order. `before` lists what stands before it, the nearest
first; `after` begins with the sibling itself. -/
def commentsAbove (g : Grammar) (src : Source) : List Cst → List Cst → List CommentAbove
  | [], _ => []
  | d :: before, after =>
    if g.isContent d then []
    else g.commentsAbove src before (d :: after)
      ++ if d.label.named && Cst.isComment d then
          [⟨before.head?, d, g.isDocComment src before.head? d (after.find? fun e => e.label.named)⟩]
        else []

/-- The documentation of a sibling is what documents it among the comments above. -/
theorem docsBefore_eq (g : Grammar) (src : Source) (before after : List Cst) :
    g.docsBefore src before after
      = ((g.commentsAbove src before after).filter CommentAbove.documents).map range := by
  induction before generalizing after with
  | nil => rfl
  | cons d before ih =>
    rw [docsBefore, commentsAbove]
    split
    · rfl
    · rw [List.filter_append, List.map_append, ← ih]
      congr 1
      cases hcomment : d.label.named && Cst.isComment d with
      | false => simp
      | true =>
        cases hdoc : g.isDocComment src before.head? d (after.find? fun e => e.label.named) <;>
          simp [range, Cst.range]

/-- The comments above the child of a site. -/
def Site.commentsAbove (src : Source) (s : g.Site root) : List CommentAbove :=
  g.commentsAbove src s.before (s.child :: s.after)

/-- The child itself, as what the last comment above it is judged by. -/
def Site.below (s : g.Site root) : CommentAbove := ⟨s.before.head?, s.child, true⟩

namespace Go

theorem isDocComment_iff {before : Option Cst} {c e : Cst} :
    Go.isDocComment src before c (some e) = true
      ↔ (∀ b ∈ before, src.lines.lineOf b.label.range.stop < src.lines.lineOf c.label.range.start)
        ∧ src.Near c.label.range e.label.range := by
  cases before <;> simp [Go.isDocComment, Source.Near]

/-- **Each comment is judged by what is next below it**, another comment or, last, the sibling. -/
theorem isChain_commentsAbove (src : Source) {before after : List Cst} {last : CommentAbove}
    (hlast : (after.find? fun e => e.label.named) = some last.comment) :
    (go.commentsAbove src before after ++ [last]).IsChain (Judges src) := by
  induction before generalizing after last with
  | nil => exact List.isChain_singleton _
  | cons d before ih =>
    rw [commentsAbove]
    by_cases hcontent : go.isContent d = true
    · rw [if_pos hcontent]
      exact List.isChain_singleton _
    · rw [if_neg hcontent]
      cases hnamed : d.label.named with
      | false =>
        rw [Bool.false_and, if_neg Bool.false_ne_true, List.append_nil]
        exact ih (by rw [List.find?_cons_of_neg (by simp [hnamed]), hlast])
      | true =>
        -- without modifiers between declarations, what is named and no content is a comment
        have hcomment : Cst.isComment d = true := by
          simpa [isContent, hnamed, go] using hcontent
        rw [hcomment, Bool.true_and, if_pos rfl]
        refine List.isChain_append.mpr ⟨ih ?_, List.isChain_singleton _, ?_⟩
        · exact List.find?_cons_of_pos hnamed
        · intro a ha b hb
          rw [List.getLast?_append, List.getLast?_singleton] at ha
          obtain rfl := Option.some.inj ha
          obtain rfl := Option.some.inj hb
          rw [hlast]
          exact isDocComment_iff

end Go

end Grammar

namespace SyntaxTree

open CommentAbove

/-- **The comments of a node of a Go file.** They are those above it that have their line to
themselves and are near what is next, which may be another comment; where none of those below the
first of them is refused, they are contiguous and right above the node. -/
theorem contiguous_comments_of_go (src : Source) (root : Cst) (x : Nat) :
    ((ofCst .go src root).node x).comments = []
    ∨ ∃ s : Grammar.go.Site root,
      ((ofCst .go src root).node x).range = s.child.range
      ∧ ((ofCst .go src root).node x).comments
        = ((s.commentsAbove src).filter CommentAbove.documents).map range
      ∧ (s.commentsAbove src ++ [s.below]).IsChain (Judges src)
      ∧ (NoneRefused (s.commentsAbove src) →
        (((ofCst .go src root).node x).comments
          ++ [((ofCst .go src root).node x).range]).IsChain src.Near) := by
  rcases bare_or_site .go src root x with hbare | ⟨s, hs⟩
  · exact Or.inl hbare.1
  · refine Or.inr ⟨s, ?_⟩
    have hrange : ((ofCst .go src root).node x).range = s.child.range := congrArg KeptNode.range hs
    have hcomments : ((ofCst .go src root).node x).comments
        = ((s.commentsAbove src).filter CommentAbove.documents).map range :=
      (congrArg KeptNode.comments hs).trans (Grammar.docsBefore_eq _ src _ _)
    have hnamed : s.child.label.named = true := by
      have hcontent := s.content
      simp only [Grammar.isContent, Bool.and_eq_true] at hcontent
      exact hcontent.1.1
    have hchain : (s.commentsAbove src ++ [s.below]).IsChain (Judges src) :=
      Grammar.Go.isChain_commentsAbove src (List.find?_cons_of_pos hnamed)
    refine ⟨hrange, hcomments, hchain, fun hnone => ?_⟩
    rw [hcomments, hrange]
    exact isChain_near_of_noneRefused hchain hnone

/-- Two comments, a blank line and a function. -/
def detachedBlockSource : Source :=
  { text := "package p\n\n// a\n// b\n\nfunc f() \x7b\x7d\n" }

def detachedBlockRows : List Cst.Row := [
  namedRow "source_file" 0 34 4 none,
  namedRow "package_clause" 0 9 2 none,
  tokenRow "package" 0 7,
  namedRow "package_identifier" 8 9 0 none,
  { namedRow "comment" 11 15 0 none with extra := true },
  { namedRow "comment" 16 20 0 none with extra := true },
  namedRow "function_declaration" 22 33 4 none,
  tokenRow "func" 22 26,
  namedRow "identifier" 27 28 0 (some "name"),
  namedRow "parameter_list" 28 30 2 (some "parameters"),
  tokenRow "(" 28 29,
  tokenRow ")" 29 30,
  namedRow "block" 31 33 2 (some "body"),
  tokenRow "\x7b" 31 32,
  tokenRow "\x7d" 32 33]

/-- **A block above a blank line documents what is below the line**, all but its last comment. -/
theorem detachedBlock_documents :
    ∃ root, Cst.ofRows? detachedBlockRows = some root
      ∧ ((ofCst .go detachedBlockSource root).node 2).comments = [⟨11, 15⟩]
      ∧ ((ofCst .go detachedBlockSource root).node 2).range = ⟨22, 33⟩
      ∧ ¬ (((ofCst .go detachedBlockSource root).node 2).comments
        ++ [((ofCst .go detachedBlockSource root).node 2).range]).IsChain
          detachedBlockSource.Near := by
  have hany : (Cst.ofRows? detachedBlockRows).any (fun root => decide
      (((ofCst .go detachedBlockSource root).node 2).comments = [⟨11, 15⟩]
        ∧ ((ofCst .go detachedBlockSource root).node 2).range = ⟨22, 33⟩)) = true := by
    decide +kernel
  obtain ⟨root, hroot, hfacts⟩ := (Option.any_eq_true _ _).mp hany
  obtain ⟨hcomments, hrange⟩ := of_decide_eq_true hfacts
  refine ⟨root, hroot, hcomments, hrange, ?_⟩
  rw [hcomments, hrange, List.singleton_append, List.isChain_pair]
  decide +kernel

end SyntaxTree

end SourceChunks

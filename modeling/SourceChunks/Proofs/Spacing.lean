import SourceChunks.Proofs.Signatures

/-!
# Spaces in a signature

A signature starts with an opening parenthesis, and its blanks are single spaces between other
characters. Collapsing brings a text into that form. Each of the replacements behind it puts a
parenthesis where two characters were, so it cannot bring two spaces together or uncover one at an
end; and the parts of a signature are put together by a parenthesis, or by one space, at an end that
is not blank itself.

* `Text.Spaced.eq_space`, `Text.Spaced.not_two_spaces` — how a text is spaced
* `Text.collapse_eq` — what collapsing leaves of a text
* `Signature.spaced_parameters`, `Signature.ofTexts_some` — the two parts of a signature
* `Signature.shape_ofTexts` — the shape of a signature
-/

namespace SourceChunks

namespace Text

variable {c : Char} {cs : List Char}

theorem endsBlank_cons_eq_false_iff :
    endsBlank (c :: cs) = false ↔ (cs = [] → isBlank c = false) ∧ endsBlank cs = false := by
  by_cases hcs : cs = []
  · simp [hcs, endsBlank]
  · have hsame : endsBlank (c :: cs) = endsBlank cs := endsBlank_append [c] hcs
    simp [hcs, hsame]

namespace Spaced

/-- A pair of parentheses around a text. -/
theorem parenthesized (h : Spaced cs) : Spaced ('(' :: cs ++ [')']) where
  chain := by
    have hopen : ('(' :: cs).IsChain Apart :=
      List.isChain_cons.mpr ⟨fun d _ => apart_of_not_isBlank (by decide) d, h.chain⟩
    refine List.isChain_append.mpr ⟨hopen, .singleton ')', ?_⟩
    intro c hc d _
    have hstop : endsBlank ('(' :: cs) = false :=
      endsBlank_cons_eq_false_iff.mpr ⟨fun _ => by decide, h.stop⟩
    simp only [endsBlank, Option.mem_def.mp hc] at hstop
    exact apart_of_not_isBlank hstop d
  start := rfl
  stop := by
    rw [endsBlank_append _ (List.cons_ne_nil _ _)]
    rfl

theorem eq_space (h : Spaced cs) : ∀ c ∈ cs, isBlank c = true → c = ' ' := by
  intro c hc hblank
  obtain ⟨before, after, rfl⟩ := List.append_of_mem hc
  cases after with
  | nil =>
    have hstop := h.stop
    rw [endsBlank_append before (List.cons_ne_nil _ _)] at hstop
    simp [endsBlank, hblank] at hstop
  | cons d after =>
    have hchain := (List.isChain_append.mp h.chain).2.1
    exact ((List.isChain_cons_cons.mp hchain).1 hblank).1

theorem not_two_spaces (h : Spaced cs) : ¬ [' ', ' '] <:+: cs := by
  intro htwo
  have hchain : [' ', ' '].IsChain Apart := h.chain.infix htwo
  have hapart := (List.isChain_cons_cons.mp hchain).1 rfl
  exact absurd hapart.2 (by decide)

theorem getLast?_ne (h : Spaced cs) : cs.getLast? ≠ some ' ' := by
  intro hlast
  have hstop := h.stop
  simp [endsBlank, hlast, isBlank] at hstop

end Spaced

/-! ## Words -/

theorem splitOnP_isBlank (cs : List Char) :
    ∃ rest, cs.splitOnP isBlank = (splitWord cs).1 :: rest
      ∧ rest.filter (fun w => !w.isEmpty) = (splitWord cs).2 := by
  induction cs with
  | nil => exact ⟨[], rfl, rfl⟩
  | cons c cs ih =>
    obtain ⟨rest, hsplit, hrest⟩ := ih
    by_cases hc : isBlank c = true
    · refine ⟨cs.splitOnP isBlank, by simp [List.splitOnP_cons_eq_if_modifyHead, splitWord, hc], ?_⟩
      simp only [splitWord, hc, if_true, hsplit, consWord, List.filter_cons, hrest]
      split <;> simp_all
    · refine ⟨rest, ?_, ?_⟩
      · simp [List.splitOnP_cons_eq_if_modifyHead, splitWord, hc, hsplit]
      · simpa [splitWord, hc] using hrest

/-- Collapsing takes a text apart at every blank and joins what is not empty by single spaces. -/
theorem collapse_eq (cs : List Char) :
    collapse cs = [' '].intercalate ((cs.splitOnP isBlank).filter fun w => !w.isEmpty) := by
  obtain ⟨rest, hsplit, hrest⟩ := splitOnP_isBlank cs
  rw [collapse, hsplit, List.filter_cons, hrest]
  unfold words consWord
  simp only []
  split <;> simp_all

/-- Nothing is left exactly of a blank text. -/
theorem collapse_eq_nil_iff (cs : List Char) : collapse cs = [] ↔ cs.all isBlank = true := by
  have hbare : collapse cs = [] ↔ bare (collapse cs) = [] := by
    constructor
    · intro hnil
      rw [hnil]
      rfl
    · intro hnil
      by_contra hne
      have hblank : isBlank ((collapse cs).head hne) = true := by
        have hall := List.filter_eq_nil_iff.mp hnil
        simpa using hall _ (List.head_mem hne)
      have hstart := (spaced_collapse cs).start
      simp [startsBlank, List.head?_eq_some_head hne, hblank] at hstart
  rw [hbare, bare_collapse, bare, List.filter_eq_nil_iff]
  simp

end Text

namespace Signature

open Text

variable {a b out : Char} {cs : List Char}

/-! ## Parameters -/

/-- Putting a character that is not blank in the place of two uncovers no blank. -/
theorem spaced_contract (hout : isBlank out = false) (h : Spaced cs) :
    Spaced (contract a b out cs) where
  chain := isChain_contract hout h.chain
  start := by
    cases cs with
    | nil => rfl
    | cons c cs =>
      have hstart : isBlank c = false := by simpa [startsBlank] using h.start
      rcases head?_contract a b out c cs with hhead | ⟨-, hhead⟩
      · simpa [startsBlank, hhead] using hstart
      · simpa [startsBlank, hhead] using hout
  stop := by
    have hstop := h.stop
    clear h
    fun_induction contract a b out cs with
    | case1 => rfl
    | case2 => exact hstop
    | case3 c d cs _ ih =>
      rw [endsBlank_cons_eq_false_iff, endsBlank_cons_eq_false_iff] at hstop
      exact endsBlank_cons_eq_false_iff.mpr ⟨fun _ => hout, ih hstop.2.2⟩
    | case4 c d cs _ ih =>
      rw [endsBlank_cons_eq_false_iff] at hstop
      refine endsBlank_cons_eq_false_iff.mpr ⟨fun hnil => ?_, ih hstop.2⟩
      rcases head?_contract a b out d cs with hhead | ⟨-, hhead⟩ <;> simp [hnil] at hhead

theorem spaced_tighten (cs : List Char) : Spaced (tighten cs) := by
  have hopen : Spaced (contract '(' ' ' '(' (collapse cs)) :=
    spaced_contract (by decide) (spaced_collapse cs)
  have hclose : Spaced (contract ' ' ')' ')' (contract '(' ' ' '(' (collapse cs))) :=
    spaced_contract (by decide) hopen
  exact spaced_contract (by decide) hclose

/-- A text between bars is a part of the text with the bars. -/
theorem betweenBars?_isInfix {inner : List Char} (h : betweenBars? cs = some inner) :
    inner <:+: cs := by
  obtain ⟨rest, hrest, hinner⟩ := Option.bind_eq_some_iff.mp h
  rw [← List.append_eq_of_isPrefixOf?_eq_some hrest, ← List.append_eq_of_isSuffixOf?_eq_some hinner]
  exact (List.prefix_append inner _).isInfix.trans (List.suffix_append _ _).isInfix

theorem spaced_trim (h : cs.IsChain Apart) : Spaced (trim cs) where
  chain := h.infix ((trimEnd_isPrefix _).isInfix.trans (trimStart_isSuffix cs).isInfix)
  start := startsBlank_of_prefix (trimEnd_isPrefix _) (startsBlank_trimStart cs)
  stop := endsBlank_trimEnd _

theorem spaced_parameters (cs : List Char) : Spaced (parameters cs) := by
  unfold parameters
  simp only []
  split
  · exact spaced_tighten cs
  · split
    · next inner hinner =>
      have hchain : inner.IsChain Apart :=
        List.IsChain.infix (spaced_tighten cs).chain (betweenBars?_isInfix hinner)
      exact (spaced_trim hchain).parenthesized
    · exact (spaced_tighten cs).parenthesized

theorem head?_parameters (cs : List Char) : (parameters cs).head? = some '(' := by
  unfold parameters
  simp only []
  split
  · next hhead => simpa using hhead
  · split <;> rfl

/-! ## What is returned -/

/-- What a text says to be returned: the text itself without blanks at its ends and without one
arrow or colon in front. -/
def Announces (text result : List Char) : Prop :=
  trim text = ['-', '>'] ++ result ∨ trim text = [':'] ++ result
    ∨ trim text = result ∧ ¬ ['-', '>'] <+: result ∧ ¬ [':'] <+: result

theorem not_isPrefix_of_isPrefixOf? {opening : List Char} (h : opening.isPrefixOf? cs = none) :
    ¬ opening <+: cs := by
  rintro ⟨rest, hrest⟩
  have hsome : opening.isPrefixOf? cs = some rest :=
    List.isPrefixOf?_eq_some_iff_append_eq.mpr hrest
  rw [h] at hsome
  cases hsome

theorem exists_announces (text : List Char) :
    ∃ result, Announces text result ∧ returned text = collapse result := by
  unfold returned Announces
  simp only []
  cases harrow : ['-', '>'].isPrefixOf? (trim text) with
  | some rest =>
    exact ⟨rest, Or.inl (List.append_eq_of_isPrefixOf?_eq_some harrow).symm, rfl⟩
  | none =>
    cases hcolon : [':'].isPrefixOf? (trim text) with
    | some rest =>
      exact ⟨rest, Or.inr (Or.inl (List.append_eq_of_isPrefixOf?_eq_some hcolon).symm), rfl⟩
    | none =>
      refine ⟨trim text, Or.inr (Or.inr ⟨rfl, ?_, ?_⟩), rfl⟩
      · exact not_isPrefix_of_isPrefixOf? harrow
      · exact not_isPrefix_of_isPrefixOf? hcolon

/-- What is returned stands behind an arrow, unless nothing is left of it. -/
theorem ofTexts_some (params returns : List Char) :
    ofTexts params (some returns) = parameters params
      ++ if returned returns = [] then [] else [' ', '-', '>', ' '] ++ returned returns := by
  unfold ofTexts
  cases hret : returned returns with
  | nil => simp [hret]
  | cons c r => simp [hret]

theorem spaced_ofTexts (params : List Char) (returns : Option (List Char)) :
    Spaced (ofTexts params returns) := by
  have hparams := spaced_parameters params
  cases returns with
  | none => exact hparams
  | some text =>
    rw [ofTexts_some]
    split
    · rwa [List.append_nil]
    · next hne =>
      have hne' : parameters params ≠ [] := by
        intro hnil
        have hhead := head?_parameters params
        simp [hnil] at hhead
      have harrow : Spaced ['-', '>'] := Spaced.of_isWord ⟨by simp, by simp [isBlank]⟩
      have hreturned : Spaced (returned text) := spaced_collapse _
      exact hparams.append_space (harrow.append_space hreturned (by simp) hne) hne' (by simp)

/-! ## Signatures -/

theorem head?_ofTexts (params : List Char) (returns : Option (List Char)) :
    (ofTexts params returns).head? = some '(' := by
  have hparams := head?_parameters params
  cases returns with
  | none => exact hparams
  | some text => rw [ofTexts_some, List.head?_append, hparams, Option.some_or]

/-- **A signature starts with an opening parenthesis, and its blanks are single spaces between other
characters.** It is the signature of the parameters alone, followed by an arrow and the words of
what is returned, each after a space, if there are any words. -/
theorem shape_ofTexts (params returns : Option (List Char)) :
    (ofTexts (params.getD []) returns).head? = some '('
      ∧ (∀ c ∈ ofTexts (params.getD []) returns, isBlank c = true → c = ' ')
      ∧ ¬ [' ', ' '] <:+: ofTexts (params.getD []) returns
      ∧ (ofTexts (params.getD []) returns).getLast? ≠ some ' '
      ∧ ∀ text, ∃ result, Announces text result
        ∧ ofTexts (params.getD []) (some text) = ofTexts (params.getD []) none
          ++ if result.all isBlank then []
            else " -> ".toList
              ++ [' '].intercalate ((result.splitOnP isBlank).filter fun w => !w.isEmpty) := by
  have hspaced := spaced_ofTexts (params.getD []) returns
  refine ⟨head?_ofTexts _ _, hspaced.eq_space, hspaced.not_two_spaces, hspaced.getLast?_ne, ?_⟩
  intro text
  obtain ⟨result, hannounces, hreturned⟩ := exists_announces text
  refine ⟨result, hannounces, ?_⟩
  rw [ofTexts_some, hreturned, ← collapse_eq]
  simp only [collapse_eq_nil_iff]
  rfl

/-- A parameter list between bars, and a colon before what is returned. -/
theorem shape_ofTexts_barred :
    ofTexts "|x ,\t( y\n) |".toList (some " : Vec\n< u8 > ".toList)
        = "(x , (y)) -> Vec < u8 >".toList
      ∧ Announces " : Vec\n< u8 > ".toList " Vec\n< u8 >".toList
      ∧ (∀ c ∈ ofTexts "|x ,\t( y\n) |".toList (some " : Vec\n< u8 > ".toList),
        isBlank c = true → c = ' ') :=
  ⟨by decide +kernel, by unfold Announces; decide +kernel,
    (shape_ofTexts (some "|x ,\t( y\n) |".toList) (some " : Vec\n< u8 > ".toList)).2.1⟩

end Signature

end SourceChunks

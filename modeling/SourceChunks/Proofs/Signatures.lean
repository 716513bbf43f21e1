import Mathlib.Data.List.Chain
import Mathlib.Data.List.Infix
import SourceChunks.Signature
import SourceChunks.Proofs.Blanks

/-!
# What a signature forgets

A parameter list in parentheses loses its blanks, and every comma that stands before a closing
parenthesis once the blanks are gone. Collapsed blanks are single spaces, so none is left before a
closing parenthesis when the commas are removed. Two lists of the same signature therefore differ in
nothing else; but a comma before an inner parenthesis is lost as well as the one at the end.

* `Text.bare_collapse`, `Text.spaced_collapse` — what collapsing leaves
* `bare_parameters` — what a parameter list keeps
* `bare_eq_of_ofTexts_eq` — two lists of one signature
-/

namespace SourceChunks

namespace Text

variable {c d : Char} {cs ds w : List Char} {ws : List (List Char)}

/-- A text without its blanks. -/
def bare (cs : List Char) : List Char := cs.filter (!isBlank ·)

theorem bare_cons (c : Char) (cs : List Char) : bare (c :: cs) = bare [c] ++ bare cs :=
  List.filter_append [c] cs

theorem bare_cons_of_isBlank (h : isBlank c = true) : bare (c :: cs) = bare cs := by
  simp [bare, h]

theorem bare_cons_of_not_isBlank (h : isBlank c = false) : bare (c :: cs) = c :: bare cs := by
  simp [bare, h]

/-! ## Collapsed texts -/

def IsWord (w : List Char) : Prop := w ≠ [] ∧ ∀ c ∈ w, isBlank c = false

theorem forall_mem_consWord (hw : ∀ c ∈ w, isBlank c = false) (hws : ∀ w ∈ ws, IsWord w) :
    ∀ v ∈ consWord w ws, IsWord v := by
  unfold consWord
  split
  · exact hws
  · next hne => exact List.forall_mem_cons.mpr ⟨⟨by simpa using hne, hw⟩, hws⟩

theorem flatten_consWord (w : List Char) (ws : List (List Char)) :
    (consWord w ws).flatten = w ++ ws.flatten := by
  unfold consWord
  split <;> simp_all

theorem splitWord_spec (cs : List Char) :
    (∀ c ∈ (splitWord cs).1, isBlank c = false) ∧ (∀ w ∈ (splitWord cs).2, IsWord w)
      ∧ (splitWord cs).1 ++ (splitWord cs).2.flatten = bare cs := by
  induction cs with
  | nil => simp [splitWord, bare]
  | cons c cs ih =>
    obtain ⟨hword, hwords, hbare⟩ := ih
    by_cases hc : isBlank c = true
    · rw [bare_cons_of_isBlank hc, ← hbare]
      simp only [splitWord, hc, if_true]
      exact ⟨by simp, forall_mem_consWord hword hwords, by simp [flatten_consWord]⟩
    · have hc : isBlank c = false := by simpa using hc
      rw [bare_cons_of_not_isBlank hc, ← hbare]
      simp only [splitWord, hc, Bool.false_eq_true, if_false]
      exact ⟨List.forall_mem_cons.mpr ⟨hc, hword⟩, hwords, rfl⟩

theorem isWord_of_mem_words (cs : List Char) : ∀ w ∈ words cs, IsWord w :=
  forall_mem_consWord (splitWord_spec cs).1 (splitWord_spec cs).2.1

theorem flatten_words (cs : List Char) : (words cs).flatten = bare cs :=
  (flatten_consWord _ _).trans (splitWord_spec cs).2.2

theorem bare_of_isWord (h : IsWord w) : bare w = w := by
  simpa [bare, List.filter_eq_self] using h.2

theorem bare_intercalate (h : ∀ w ∈ ws, IsWord w) : bare ([' '].intercalate ws) = ws.flatten := by
  induction ws with
  | nil => rfl
  | cons w ws ih =>
    obtain ⟨hw, hws⟩ := List.forall_mem_cons.mp h
    cases ws with
    | nil => simpa using bare_of_isWord hw
    | cons w' ws =>
      have hspace : bare [' '] = [] := by decide
      calc bare ([' '].intercalate (w :: w' :: ws))
          = bare w ++ (bare [' '] ++ bare ([' '].intercalate (w' :: ws))) := by
            simp only [List.intercalate_cons_cons, bare, List.append_assoc, List.filter_append]
        _ = (w :: w' :: ws).flatten := by
            rw [bare_of_isWord hw, hspace, ih hws, List.nil_append, ← List.flatten_cons]

/-- The words of a text have all of it but its blanks. -/
theorem bare_collapse (cs : List Char) : bare (collapse cs) = bare cs := by
  rw [collapse, bare_intercalate (isWord_of_mem_words cs), flatten_words]

/-- A blank before another character is a space, and no blank follows it. -/
def Apart (c d : Char) : Prop := isBlank c = true → c = ' ' ∧ isBlank d = false

theorem apart_of_not_isBlank (h : isBlank c = false) (d : Char) : Apart c d := by
  simp [Apart, h]

theorem isChain_of_isWord (h : IsWord w) : w.IsChain Apart :=
  (List.pairwise_of_forall_mem_list fun c hc d _ => apart_of_not_isBlank (h.2 c hc) d).isChain

theorem head?_intercalate (h : w ≠ []) : ([' '].intercalate (w :: ws)).head? = w.head? := by
  cases ws with
  | nil => simp
  | cons w' ws =>
    rw [List.intercalate_cons_cons, List.append_assoc, List.head?_append_of_ne_nil _ h]

/-- Every blank is a space that stands between two other characters. -/
structure Spaced (cs : List Char) : Prop where
  chain : cs.IsChain Apart
  start : startsBlank cs = false
  stop : endsBlank cs = false

namespace Spaced

theorem nil : Spaced [] := ⟨.nil, rfl, rfl⟩

theorem of_isWord (h : IsWord w) : Spaced w where
  chain := isChain_of_isWord h
  start := by
    cases w with
    | nil => rfl
    | cons c w => simpa [startsBlank] using h.2 c List.mem_cons_self
  stop := by
    rw [endsBlank, List.getLast?_eq_some_getLast h.1]
    exact h.2 _ (List.getLast_mem h.1)

/-- Two texts with a space between them. -/
theorem append_space (h : Spaced cs) (h' : Spaced ds) (hcs : cs ≠ []) (hds : ds ≠ []) :
    Spaced (cs ++ ' ' :: ds) where
  chain := by
    refine List.isChain_append.mpr ⟨h.chain, List.isChain_cons.mpr ⟨?_, h'.chain⟩, ?_⟩
    · intro d hd _
      have hstart := h'.start
      simp only [startsBlank, Option.mem_def.mp hd] at hstart
      exact ⟨rfl, hstart⟩
    · intro c hc d _
      have hstop := h.stop
      simp only [endsBlank, Option.mem_def.mp hc] at hstop
      exact apart_of_not_isBlank hstop d
  start := by
    have hstart := h.start
    rwa [startsBlank, ← List.head?_append_of_ne_nil cs hcs] at hstart
  stop := by
    have hcons : endsBlank (' ' :: ds) = endsBlank ds := endsBlank_append [' '] hds
    rw [endsBlank_append cs (List.cons_ne_nil _ _), hcons, h'.stop]

theorem intercalate (h : ∀ w ∈ ws, IsWord w) : Spaced ([' '].intercalate ws) := by
  induction ws with
  | nil => exact nil
  | cons w ws ih =>
    obtain ⟨hw, hws⟩ := List.forall_mem_cons.mp h
    cases ws with
    | nil => simpa using of_isWord hw
    | cons w' ws =>
      obtain ⟨hw', -⟩ := List.forall_mem_cons.mp hws
      have hne : [' '].intercalate (w' :: ws) ≠ [] := by
        intro hnil
        have hhead : ([' '].intercalate (w' :: ws)).head? = w'.head? := head?_intercalate hw'.1
        rw [hnil] at hhead
        exact hw'.1 (List.head?_eq_none_iff.mp hhead.symm)
      rw [List.intercalate_cons_cons, List.append_assoc]
      exact (of_isWord hw).append_space (ih hws) hw.1 hne

end Spaced

theorem spaced_collapse (cs : List Char) : Spaced (collapse cs) :=
  Spaced.intercalate (isWord_of_mem_words cs)

end Text

namespace Signature

open Text

variable {a b out : Char} {cs p q : List Char}

/-! ## Contraction -/

theorem bare_contract (h : bare [a, b] = bare [out]) (cs : List Char) :
    bare (contract a b out cs) = bare cs := by
  fun_induction contract a b out cs with
  | case1 => rfl
  | case2 => rfl
  | case3 c d cs hcd ih =>
    obtain ⟨rfl, rfl⟩ : c = a ∧ d = b := by simpa using hcd
    calc bare (out :: contract c d out cs)
        = bare [c, d] ++ bare cs := by rw [bare_cons, ← h, ih]
      _ = bare (c :: d :: cs) := (List.filter_append [c, d] cs).symm
  | case4 c d cs _ ih => rw [bare_cons, ih, ← bare_cons]

/-- A contracted text begins as before, or its first two characters are one now. -/
theorem head?_contract (a b out d : Char) (cs : List Char) :
    (contract a b out (d :: cs)).head? = some d
      ∨ d = a ∧ (contract a b out (d :: cs)).head? = some out := by
  cases cs with
  | nil => exact Or.inl rfl
  | cons e cs =>
    rw [contract]
    split
    · next hde => exact Or.inr ⟨by simp_all, rfl⟩
    · exact Or.inl rfl

theorem head?_contract_of_head? {d : Char} (h : cs.head? = some d) (hout : d = a → out = d) :
    (contract a b out cs).head? = some d := by
  obtain ⟨cs, rfl⟩ := List.head?_eq_some_iff.mp h
  rcases head?_contract a b out d cs with hhead | ⟨hd, hhead⟩
  · exact hhead
  · rw [hhead, hout hd]

/-- Putting a character that is not blank in the place of two brings no blanks together. -/
theorem isChain_contract (hout : isBlank out = false) (h : cs.IsChain Apart) :
    (contract a b out cs).IsChain Apart := by
  fun_induction contract a b out cs with
  | case1 => exact .nil
  | case2 c => exact .singleton c
  | case3 c d cs _ ih =>
    refine List.isChain_cons.mpr ⟨fun e _ => apart_of_not_isBlank hout e, ih ?_⟩
    exact h.tail.tail
  | case4 c d cs _ ih =>
    refine List.isChain_cons.mpr ⟨fun e he hblank => ?_, ih h.tail⟩
    obtain ⟨hspace, hd⟩ := (List.isChain_cons_cons.mp h).1 hblank
    rcases head?_contract a b out d cs with hhead | ⟨-, hhead⟩
    · rw [hhead] at he
      exact ⟨hspace, Option.some.inj he ▸ hd⟩
    · rw [hhead] at he
      exact ⟨hspace, Option.some.inj he ▸ hout⟩

/-- No blank stands before a closing parenthesis. -/
def Snug (c d : Char) : Prop := isBlank c = true → d ≠ ')'

theorem isChain_contract_closing (h : cs.IsChain Apart) :
    (contract ' ' ')' ')' cs).IsChain Snug := by
  fun_induction contract ' ' ')' ')' cs with
  | case1 => exact .nil
  | case2 c => exact .singleton c
  | case3 c d cs _ ih =>
    refine List.isChain_cons.mpr ⟨fun e _ hblank => ?_, ih ?_⟩
    · exact absurd hblank (by decide)
    · exact h.tail.tail
  | case4 c d cs hcd ih =>
    refine List.isChain_cons.mpr ⟨fun e he hblank => ?_, ih h.tail⟩
    obtain ⟨rfl, hd⟩ := (List.isChain_cons_cons.mp h).1 hblank
    rcases head?_contract ' ' ')' ')' d cs with hhead | ⟨rfl, -⟩
    · rw [hhead] at he
      rw [← Option.some.inj he]
      simpa using hcd
    · exact absurd hd (by decide)

/-! ## Commas -/

/-- A text without the commas that stand directly before a closing parenthesis. -/
def withoutTrailing : List Char → List Char
  | [] => []
  | c :: cs =>
    if c == ',' && cs.head? == some ')' then withoutTrailing cs else c :: withoutTrailing cs

/-- After a blank that is not before a closing parenthesis none comes first. -/
theorem head?_bare_ne {c : Char} (hc : isBlank c = true) (h : (c :: cs).IsChain Snug) :
    (bare cs).head? ≠ some ')' := by
  induction cs generalizing c with
  | nil => simp [bare]
  | cons d cs ih =>
    obtain ⟨hcd, hrest⟩ := List.isChain_cons_cons.mp h
    by_cases hd : isBlank d = true
    · rw [bare_cons_of_isBlank hd]
      exact ih hd hrest
    · rw [bare_cons_of_not_isBlank (by simpa using hd)]
      simpa using hcd hc

/-- Where no blank stands before a closing parenthesis, the commas before them are seen. -/
theorem bare_contract_trailing (h : cs.IsChain Snug) :
    bare (contract ',' ')' ')' cs) = withoutTrailing (bare cs) := by
  have hcomma : isBlank ',' = false := by decide
  have hclose : isBlank ')' = false := by decide
  fun_induction contract ',' ')' ')' cs with
  | case1 => rfl
  | case2 c =>
    by_cases hc : isBlank c = true
    · simp [bare, hc, withoutTrailing]
    · simp [bare, hc, withoutTrailing]
  | case3 c d cs hcd ih =>
    obtain ⟨rfl, rfl⟩ : c = ',' ∧ d = ')' := by simpa using hcd
    rw [bare_cons_of_not_isBlank hclose, bare_cons_of_not_isBlank hcomma,
      bare_cons_of_not_isBlank hclose, ih h.tail.tail]
    simp [withoutTrailing]
  | case4 c d cs hcd ih =>
    by_cases hc : isBlank c = true
    · rw [bare_cons_of_isBlank hc, bare_cons_of_isBlank hc, ih h.tail]
    · have hc : isBlank c = false := by simpa using hc
      -- a closing parenthesis does not come first behind the comma, with blanks or without
      have hkept : ¬ (c = ',' ∧ (bare (d :: cs)).head? = some ')') := by
        rintro ⟨rfl, hhead⟩
        by_cases hd : isBlank d = true
        · rw [bare_cons_of_isBlank hd] at hhead
          exact head?_bare_ne hd h.tail hhead
        · rw [bare_cons_of_not_isBlank (by simpa using hd)] at hhead
          exact hcd (by simpa using hhead)
      rw [bare_cons_of_not_isBlank hc, bare_cons_of_not_isBlank hc, ih h.tail, withoutTrailing,
        if_neg (by simpa using hkept)]

theorem bare_tighten (cs : List Char) : bare (tighten cs) = withoutTrailing (bare cs) := by
  have hopen : (contract '(' ' ' '(' (collapse cs)).IsChain Apart :=
    isChain_contract (by decide) (spaced_collapse cs).chain
  have hsnug := isChain_contract_closing hopen
  rw [tighten, bare_contract_trailing hsnug, bare_contract (by decide), bare_contract (by decide),
    bare_collapse]

/-- An opening parenthesis stays in front. -/
theorem head?_tighten (h : p.head? = some '(') : (tighten p).head? = some '(' := by
  obtain ⟨cs, rfl⟩ := List.head?_eq_some_iff.mp h
  have hcollapse : (collapse ('(' :: cs)).head? = some '(' := by
    have hword : words ('(' :: cs) = ('(' :: (splitWord cs).1) :: (splitWord cs).2 := by
      simp [words, splitWord, consWord, isBlank]
    rw [collapse, hword, head?_intercalate (List.cons_ne_nil _ _)]
    rfl
  refine head?_contract_of_head? (head?_contract_of_head? ?_ (by decide)) (by decide)
  exact head?_contract_of_head? hcollapse Eq.symm

/-- **A parameter list keeps everything but its blanks and the commas before closing
parentheses.** -/
theorem bare_parameters (h : p.head? = some '(') :
    bare (parameters p) = withoutTrailing (bare p) := by
  simp only [parameters, head?_tighten h, beq_self_eq_true, if_true]
  exact bare_tighten p

/-! ## One comma -/

/-- A text without the comma before a closing parenthesis at its end. -/
def dropFinalComma (cs : List Char) : List Char :=
  if [',', ')'] <:+ cs then cs.dropLast.dropLast ++ [')'] else cs

theorem dropFinalComma_cons {c d : Char} (h : ¬ (c = ',' ∧ d = ')')) :
    dropFinalComma (c :: d :: cs) = c :: dropFinalComma (d :: cs) := by
  have hsuffix : [',', ')'] <:+ c :: d :: cs ↔ [',', ')'] <:+ d :: cs := by
    rw [List.suffix_cons_iff, or_iff_right]
    intro heq
    obtain ⟨rfl, rfl, -⟩ : ',' = c ∧ ')' = d ∧ cs = [] := by simpa using heq
    exact h ⟨rfl, rfl⟩
  simp only [dropFinalComma, hsuffix]
  split
  · next hends =>
    cases cs with
    | nil => exact absurd hends.length_le (by simp)
    | cons e cs => rfl
  · rfl

/-- Where only the last closing parenthesis has a comma before it, no other comma is dropped. -/
theorem withoutTrailing_of_no_inner (h : ¬ [',', ')'] <:+: cs.dropLast) :
    withoutTrailing cs = dropFinalComma cs := by
  induction cs with
  | nil => rfl
  | cons c cs ih =>
    cases cs with
    | nil => simp [withoutTrailing, dropFinalComma, List.suffix_cons_iff]
    | cons d cs =>
      by_cases hcd : c = ',' ∧ d = ')'
      · obtain ⟨rfl, rfl⟩ := hcd
        cases cs with
        | nil => decide
        | cons e cs => exact absurd ⟨[], _, rfl⟩ h
      · have hrest : ¬ [',', ')'] <:+: (d :: cs).dropLast :=
          fun hinner => h (hinner.trans (List.suffix_cons c _).isInfix)
        rw [withoutTrailing, if_neg (by simpa using hcd), ih hrest, dropFinalComma_cons hcd]

/-- **Two parameter lists of one signature differ in blanks and in commas before closing
parentheses only.** If such a comma stands at the end at most, it is the only one. -/
theorem bare_eq_of_ofTexts_eq (hp : p.head? = some '(') (hq : q.head? = some '(')
    (h : ofTexts p none = ofTexts q none) :
    withoutTrailing (bare p) = withoutTrailing (bare q)
      ∧ (¬ [',', ')'] <:+: (bare p).dropLast → ¬ [',', ')'] <:+: (bare q).dropLast →
        dropFinalComma (bare p) = dropFinalComma (bare q)) := by
  have hparams : parameters p = parameters q := h
  have hbare : withoutTrailing (bare p) = withoutTrailing (bare q) := by
    rw [← bare_parameters hp, ← bare_parameters hq, hparams]
  refine ⟨hbare, fun hinner hinner' => ?_⟩
  rw [← withoutTrailing_of_no_inner hinner, ← withoutTrailing_of_no_inner hinner', hbare]

/-- Line breaks and a comma at the end are forgotten. -/
theorem bare_eq_of_ofTexts_eq_wrapped :
    ofTexts "( a ,\n\tb=(1, 2),\n)".toList none = ofTexts "(a , b=(1, 2))".toList none
      ∧ dropFinalComma (bare "( a ,\n\tb=(1, 2),\n)".toList)
        = dropFinalComma (bare "(a , b=(1, 2))".toList) := by
  have heq : ofTexts "( a ,\n\tb=(1, 2),\n)".toList none
      = ofTexts "(a , b=(1, 2))".toList none := by decide +kernel
  exact ⟨heq, (bare_eq_of_ofTexts_eq (by decide) (by decide) heq).2 (by decide +kernel)
    (by decide +kernel)⟩

/-- A tuple of one element is not told from its element: the comma that makes it one is not at the
end of the list. -/
theorem nestedComma_is_lost :
    ofTexts "(x=(1,))".toList none = ofTexts "(x=(1))".toList none
      ∧ ∀ p ∈ [bare "(x=(1,))".toList, dropFinalComma (bare "(x=(1,))".toList)],
        ∀ q ∈ [bare "(x=(1))".toList, dropFinalComma (bare "(x=(1))".toList)], p ≠ q :=
  ⟨by decide +kernel, by decide +kernel⟩

end Signature

end SourceChunks

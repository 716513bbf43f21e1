import SourceChunks.Docstring
import SourceChunks.Proofs.Blanks
import SourceChunks.Text.Bytes

/-!
# Reading string literals

A literal is written as marks, a quote, its body and the quote again, where the quote that ends it
is the first one that no backslash escapes. Reading a run of literals undoes writing it: a quote is
never taken for a longer one, as the body of a literal between short quotes does not begin with one
and blanks follow an empty one. Where a text is not such a run the reader gives up after finitely
many literals, and wherever it cuts a text there is a character boundary.

* `closing?_eq_some_iff` — where a body ends
* `Literal.literal?_text`, `bodies_written`, `ofLiteral_written` — literals that were written
* `Scan`, `exists_scan`, `bodies?_eq_of_scan` — the rounds of the reader on any text
* `decodes_literals` — both
-/

namespace SourceChunks

open Text

namespace Text

theorem utf8ByteSize_ofList (cs : List Char) : (String.ofList cs).utf8ByteSize = byteLength cs := by
  induction cs with
  | nil => rfl
  | cons c cs ih =>
    rw [String.ofList_cons, String.utf8ByteSize_append, String.utf8ByteSize_singleton, ih]
    rfl

theorem isBoundary_append (s t : String) : isBoundary (s ++ t) s.utf8ByteSize = true :=
  isBoundary_iff.mpr (String.Pos.Raw.isValid_iff_exists_append.mpr ⟨s, t, rfl, rfl⟩)

/-- A part of a text is cut out of it by the bytes before it and its own. -/
theorem slice?_append (s part t : String) :
    slice? (s ++ part ++ t) s.utf8ByteSize (s.utf8ByteSize + part.utf8ByteSize) = some part := by
  have hstart : isBoundary (s ++ part ++ t) s.utf8ByteSize = true := by
    rw [String.append_assoc]
    exact isBoundary_append s (part ++ t)
  have hstop : isBoundary (s ++ part ++ t) (s.utf8ByteSize + part.utf8ByteSize) = true := by
    rw [← String.utf8ByteSize_append]
    exact isBoundary_append (s ++ part) t
  have hle := Nat.le_add_right s.utf8ByteSize part.utf8ByteSize
  obtain ⟨cut, hcut⟩ := Option.isSome_iff_exists.mp (slice?_isSome.mpr ⟨hstart, hstop, hle⟩)
  have hslice : slice (s ++ part ++ t) s.utf8ByteSize (s.utf8ByteSize + part.utf8ByteSize)
      = cut := by simp [slice, hcut]
  have hbytes := toByteArray_slice hstart hstop hle
  rw [hslice] at hbytes
  rw [hcut, Option.some_inj, ← String.toByteArray_inj, hbytes]
  simp only [String.toByteArray_append, ← String.size_toByteArray, ByteArray.append_assoc]
  exact (ByteArray.extract_append_size_add (i := 0)).trans (ByteArray.extract_append_eq_left rfl)

end Text

namespace Docstring

variable {quote body rest cs : List Char} {escaped : Bool}

/-! ## Where a body ends -/

/-- Whether a backslash escapes what follows a text, where `escaped` says it of its first
character. -/
def escapes (escaped : Bool) (cs : List Char) : Bool :=
  cs.foldl (fun escaped c => !escaped && c == '\\') escaped

/-- A quote stands at the `n`-th character of a text, and no backslash escapes it. -/
def OccursAt (quote : List Char) (escaped : Bool) (cs : List Char) (n : Nat) : Prop :=
  quote <+: cs.drop n ∧ escapes escaped (cs.take n) = false

instance (quote : List Char) (escaped : Bool) (cs : List Char) (n : Nat) :
    Decidable (OccursAt quote escaped cs n) := inferInstanceAs (Decidable (_ ∧ _))

/-- The quote after a body is the first one that is not escaped. -/
def Closes (quote : List Char) (escaped : Bool) (body : List Char) : Prop :=
  OccursAt quote escaped (body ++ quote) body.length
    ∧ ∀ n < body.length, ¬ OccursAt quote escaped (body ++ quote) n

instance (quote : List Char) (escaped : Bool) (body : List Char) :
    Decidable (Closes quote escaped body) := inferInstanceAs (Decidable (_ ∧ _))

theorem closes_nil : Closes quote escaped [] ↔ escaped = false := by
  simp [Closes, OccursAt, escapes]

/-- The quote does not stand at the first character of a body, and ends the rest of it. -/
theorem closes_cons {c : Char} : Closes quote escaped (c :: body) ↔
    ¬ OccursAt quote escaped (c :: body ++ quote) 0
      ∧ Closes quote (!escaped && c == '\\') body := by
  constructor
  · rintro ⟨hat, hfirst⟩
    refine ⟨hfirst 0 (by simp), by simpa [OccursAt, escapes] using hat, fun n hn => ?_⟩
    simpa [OccursAt, escapes] using hfirst (n + 1) (by simpa using hn)
  · rintro ⟨hnot, hat, hfirst⟩
    refine ⟨by simpa [OccursAt, escapes] using hat, fun n hn => ?_⟩
    cases n with
    | zero => exact hnot
    | succ n => simpa [OccursAt, escapes] using hfirst n (by simpa using hn)

/-- The character a quote begins with is neither a mark nor a blank nor a backslash. -/
theorem exists_of_mem_quotes (h : quote ∈ quotes) :
    ∃ c q, quote = c :: q ∧ isMark c = false ∧ isBlank c = false ∧ c ≠ '\\' := by
  simp only [quotes, List.mem_cons, List.not_mem_nil, or_false] at h
  rcases h with rfl | rfl | rfl | rfl | rfl <;>
    exact ⟨_, _, rfl, by decide, by decide, by decide⟩

theorem closing?_append (h : quote ∈ quotes) (rest : List Char) :
    closing? quote false (quote ++ rest) = some ([], rest) := by
  obtain ⟨c, q, rfl, -, -, hc⟩ := exists_of_mem_quotes h
  have hrest : (c :: q).isPrefixOf? (c :: q ++ rest) = some rest :=
    List.isPrefixOf?_eq_some_iff_append_eq.mpr rfl
  rw [List.cons_append] at hrest ⊢
  simp [closing?, hc, hrest]

/-- A character where no quote stands belongs to the body. -/
theorem closing?_cons {c : Char} (h : ¬ OccursAt quote escaped (c :: cs) 0) :
    closing? quote escaped (c :: cs)
      = (closing? quote (!escaped && c == '\\') cs).map fun (body, rest) => (c :: body, rest) := by
  cases escaped with
  | true => rfl
  | false =>
    by_cases hc : c = '\\'
    · simp [closing?, hc]
    · have hnone : quote.isPrefixOf? (c :: cs) = none := by
        rw [← Option.not_isSome_iff_eq_none, List.isSome_isPrefixOf?_eq_isPrefixOf,
          List.isPrefixOf_iff_prefix]
        simpa [OccursAt, escapes] using h
      simp [closing?, hnone, beq_false_of_ne hc]

/-- What follows a quote does not show in whether it stands at the front. -/
theorem occursAt_append (rest : List Char) (hlen : quote.length ≤ cs.length) :
    OccursAt quote escaped (cs ++ rest) 0 ↔ OccursAt quote escaped cs 0 := by
  have hprefix : quote <+: cs ++ rest ↔ quote <+: cs :=
    ⟨fun h => List.prefix_of_prefix_length_le h (List.prefix_append cs rest) hlen,
      fun h => h.trans (List.prefix_append cs rest)⟩
  simp [OccursAt, hprefix]

theorem closing?_of_closes (hquote : quote ∈ quotes) (rest : List Char)
    (h : Closes quote escaped body) :
    closing? quote escaped (body ++ quote ++ rest) = some (body, rest) := by
  induction body generalizing escaped with
  | nil =>
    rw [closes_nil.mp h]
    exact closing?_append hquote rest
  | cons c body ih =>
    obtain ⟨hnot, hcloses⟩ := closes_cons.mp h
    rw [← occursAt_append rest (by simp; omega)] at hnot
    rw [List.cons_append, List.cons_append] at hnot ⊢
    rw [closing?_cons hnot, ih hcloses]
    rfl

theorem closes_of_closing? (hquote : quote ∈ quotes)
    (h : closing? quote escaped cs = some (body, rest)) :
    cs = body ++ quote ++ rest ∧ Closes quote escaped body := by
  induction cs generalizing escaped body with
  | nil => simp [closing?] at h
  | cons c cs ih =>
    by_cases hat : OccursAt quote escaped (c :: cs) 0
    · obtain ⟨⟨after, hafter⟩, hescaped⟩ := hat
      rw [List.drop_zero] at hafter
      have hescaped : escaped = false := hescaped
      rw [← hafter, hescaped, closing?_append hquote] at h
      obtain ⟨rfl, rfl⟩ := Prod.mk.inj (Option.some.inj h)
      exact ⟨hafter.symm, closes_nil.mpr hescaped⟩
    · rw [closing?_cons hat] at h
      obtain ⟨⟨body', rest'⟩, hclosing, heq⟩ := Option.map_eq_some_iff.mp h
      obtain ⟨rfl, rfl⟩ := Prod.mk.inj heq
      obtain ⟨rfl, hcloses⟩ := ih hclosing
      refine ⟨rfl, closes_cons.mpr ⟨?_, hcloses⟩⟩
      rwa [← occursAt_append rest' (by simp; omega)]

/-- **The body of a literal is what comes before the first quote that is not escaped.** -/
theorem closing?_eq_some_iff (hquote : quote ∈ quotes) :
    closing? quote escaped cs = some (body, rest)
      ↔ cs = body ++ quote ++ rest ∧ Closes quote escaped body := by
  refine ⟨closes_of_closing? hquote, ?_⟩
  rintro ⟨rfl, hcloses⟩
  exact closing?_of_closes hquote rest hcloses

/-! ## Literals that were written -/

/-- A literal: marks, a quote and a body that this quote closes. -/
structure Literal where
  marks : List Char
  quote : List Char
  body : List Char
  marked : ∀ c ∈ marks, isMark c = true
  quoted : quote ∈ quotes
  closed : Closes quote false body

/-- Blanks between two literals. -/
structure Gap where
  blanks : List Char
  nonempty : blanks ≠ []
  blank : ∀ c ∈ blanks, isBlank c = true

/-- A gap shows as a blank before whatever follows it. -/
theorem Gap.startsBlank_append (gap : Gap) (cs : List Char) :
    startsBlank (gap.blanks ++ cs) = true := by
  obtain ⟨c, blanks, hblanks⟩ := List.exists_cons_of_ne_nil gap.nonempty
  have hc : isBlank c = true := gap.blank c (by simp [hblanks])
  simp [hblanks, startsBlank, hc]

namespace Literal

def text (l : Literal) : List Char := l.marks ++ (l.quote ++ l.body ++ l.quote)

/-- A run of literals with blanks between neighbours. -/
def written (first : Literal) : List (Gap × Literal) → List Char
  | [] => first.text
  | (gap, l) :: rest => first.text ++ (gap.blanks ++ written l rest)

/-- After a quote of one character no two more of it follow: the body begins with another one, or
it is empty and what follows is a blank. -/
theorem isPrefixOf?_eq_none_of_closes {c : Char} (hblank : isBlank c = false)
    (hcloses : Closes [c] false body) (hrest : rest = [] ∨ startsBlank rest = true) :
    [c, c].isPrefixOf? (body ++ c :: rest) = none := by
  cases body with
  | nil =>
    cases rest with
    | nil => simp [List.isPrefixOf?]
    | cons d rest =>
      have hd : isBlank d = true := by simpa [startsBlank] using hrest
      have hne : ¬ c = d := by
        rintro rfl
        simp [hblank] at hd
      simp [List.isPrefixOf?, hne]
  | cons d body =>
    have hnot := (closes_cons.mp hcloses).1
    have hne : ¬ c = d := by
      rintro rfl
      exact hnot ⟨⟨body ++ [c], rfl⟩, rfl⟩
    simp [List.isPrefixOf?, hne]

/-- A literal is opened by the quote it was written with. -/
theorem opening_text (l : Literal) (hrest : rest = [] ∨ startsBlank rest = true) :
    quotes.findSome? (fun q => (q.isPrefixOf? (l.quote ++ l.body ++ l.quote ++ rest)).map
      fun inner => (q, inner)) = some (l.quote, l.body ++ l.quote ++ rest) := by
  obtain ⟨marks, quote, body, -, hquoted, hclosed⟩ := l
  simp only [quotes, List.mem_cons, List.not_mem_nil, or_false] at hquoted
  rcases hquoted with rfl | rfl | rfl | rfl | rfl
  · simp [quotes, List.isPrefixOf?]
  · simp [quotes, List.isPrefixOf?]
  · have hnone := isPrefixOf?_eq_none_of_closes (by decide) hclosed hrest
    simp [quotes, List.isPrefixOf?, hnone]
  · have hnone := isPrefixOf?_eq_none_of_closes (by decide) hclosed hrest
    simp [quotes, List.isPrefixOf?, hnone]
  · simp [quotes, List.isPrefixOf?]

theorem literal?_text (l : Literal) (hrest : rest = [] ∨ startsBlank rest = true) :
    literal? (l.text ++ rest) = some (l.body, rest) := by
  obtain ⟨c, q, hquote, hmark, -⟩ := exists_of_mem_quotes l.quoted
  have hdrop : (l.text ++ rest).dropWhile isMark = l.quote ++ l.body ++ l.quote ++ rest := by
    rw [text, List.append_assoc, List.dropWhile_append_of_pos l.marked, hquote]
    simp [hmark]
  simp only [literal?, hdrop, opening_text l hrest, Option.bind_some]
  exact (closing?_eq_some_iff l.quoted).mpr ⟨rfl, l.closed⟩

theorem startsBlank_text (l : Literal) (rest : List Char) :
    startsBlank (l.text ++ rest) = false := by
  have hmarks : ∀ c, isMark c = true → isBlank c = false := by
    intro c hc
    have hall : ['r', 'R', 'b', 'B', 'u', 'U', 'f', 'F'].all (!isBlank ·) = true := by decide
    simpa using List.all_eq_true.mp hall c (by simpa [isMark] using hc)
  obtain ⟨c, q, hquote, -, hblank, -⟩ := exists_of_mem_quotes l.quoted
  cases hm : l.marks with
  | nil => simp [text, hm, hquote, startsBlank, hblank]
  | cons m ms =>
    have hmark : isMark m = true := l.marked m (by simp [hm])
    simp [text, hm, startsBlank, hmarks m hmark]

theorem startsBlank_written (first : Literal) (rest : List (Gap × Literal)) :
    startsBlank (written first rest) = false := by
  cases rest with
  | nil => simpa [written] using startsBlank_text first []
  | cons next rest => exact startsBlank_text first _

theorem written_ne_nil (first : Literal) (rest : List (Gap × Literal)) :
    written first rest ≠ [] := by
  obtain ⟨c, q, hquote, -⟩ := exists_of_mem_quotes first.quoted
  cases rest <;> simp [written, text, hquote]

theorem endsBlank_written (first : Literal) (rest : List (Gap × Literal)) :
    endsBlank (written first rest) = false := by
  induction rest generalizing first with
  | nil =>
    have hquotes : ∀ q ∈ quotes, q ≠ [] ∧ endsBlank q = false := by decide
    obtain ⟨hne, hends⟩ := hquotes first.quote first.quoted
    rw [written, text, ← List.append_assoc, endsBlank_append _ hne]
    exact hends
  | cons next rest ih =>
    rw [written, ← List.append_assoc, endsBlank_append _ (written_ne_nil next.2 rest)]
    exact ih next.2

end Literal

/-! ## Rounds of the reader -/

/-- The quote that opens the literal at the front of a text. -/
def opening? (cs : List Char) : Option (List Char) :=
  quotes.find? (·.isPrefixOf (cs.dropWhile isMark))

/-- What stands behind the opening quote of a literal. -/
def inside (quote cs : List Char) : List Char := (cs.dropWhile isMark).drop quote.length

theorem append_of_opening? (h : opening? cs = some quote) :
    quote ∈ quotes ∧ cs = cs.takeWhile isMark ++ quote ++ inside quote cs := by
  have hprefix : quote <+: cs.dropWhile isMark := by
    simpa [List.isPrefixOf_iff_prefix] using List.find?_some h
  obtain ⟨inner, hinner⟩ := hprefix
  have hinside : inside quote cs = inner := by rw [inside, ← hinner, List.drop_left]
  refine ⟨List.mem_of_find?_eq_some h, ?_⟩
  rw [hinside, List.append_assoc, hinner, List.takeWhile_append_dropWhile]

theorem findSome?_isPrefixOf? (qs : List (List Char)) (cs : List Char) :
    qs.findSome? (fun q => (q.isPrefixOf? cs).map fun inner => (q, inner))
      = (qs.find? (·.isPrefixOf cs)).map fun q => (q, cs.drop q.length) := by
  induction qs with
  | nil => rfl
  | cons q qs ih =>
    cases hq : q.isPrefixOf? cs with
    | none =>
      have hnot := List.isSome_isPrefixOf?_eq_isPrefixOf q cs
      rw [hq] at hnot
      simp [← hnot, hq, ih]
    | some inner =>
      have hcs := List.append_eq_of_isPrefixOf?_eq_some hq
      simp [← hcs]

theorem literal?_eq (cs : List Char) :
    literal? cs = (opening? cs).bind fun quote => closing? quote false (inside quote cs) := by
  simp only [literal?, findSome?_isPrefixOf?, ← opening?.eq_1]
  cases opening? cs <;> rfl

/-- What a literal takes from the front of a text. -/
theorem append_of_literal? (h : literal? cs = some (body, rest)) :
    ∃ quote ∈ quotes, cs = cs.takeWhile isMark ++ quote ++ (body ++ quote ++ rest) := by
  rw [literal?_eq] at h
  obtain ⟨quote, hopening, hclosing⟩ := Option.bind_eq_some_iff.mp h
  obtain ⟨hquote, hcs⟩ := append_of_opening? hopening
  rw [((closing?_eq_some_iff hquote).mp hclosing).1] at hcs
  exact ⟨quote, hquote, hcs⟩

theorem length_trimStart_lt (h : literal? cs = some (body, rest)) :
    (trimStart rest).length < cs.length := by
  obtain ⟨quote, hquote, hcs⟩ := append_of_literal? h
  obtain ⟨c, q, rfl, -⟩ := exists_of_mem_quotes hquote
  have hle := (trimStart_isSuffix rest).length_le
  have hlen := congrArg List.length hcs
  simp only [List.length_append, List.length_cons] at hlen
  omega

theorem bodies?_nil (n : Nat) : bodies? n [] = some [] := by
  cases n <;> rfl

theorem bodies?_succ {n : Nat} {c : Char} : bodies? (n + 1) (c :: cs)
    = (literal? (c :: cs)).bind fun l => (bodies? n (trimStart l.2)).map (l.1 :: ·) := by
  simp only [bodies?]
  cases literal? (c :: cs) <;> rfl

/-- Every literal takes a character, so a budget that the text fits in is not used up. -/
theorem bodies?_eq_of_length_le {n m : Nat} (hn : cs.length ≤ n) (hm : cs.length ≤ m) :
    bodies? n cs = bodies? m cs := by
  induction n generalizing m cs with
  | zero =>
    rw [List.eq_nil_of_length_eq_zero (Nat.le_zero.mp hn), bodies?_nil, bodies?_nil]
  | succ n ih =>
    cases cs with
    | nil => rw [bodies?_nil, bodies?_nil]
    | cons c cs =>
      obtain ⟨m, rfl⟩ : ∃ k, m = k + 1 := ⟨m - 1, by simp at hm; omega⟩
      rw [bodies?_succ, bodies?_succ]
      cases hlit : literal? (c :: cs) with
      | none => rfl
      | some l =>
        have hlt := length_trimStart_lt hlit
        simp only [Option.bind_some]
        rw [ih (m := m) (by omega) (by omega)]

/-- One round: the literal at the front, then those behind it and the blanks that follow. -/
theorem bodies?_length (h : cs ≠ []) : bodies? cs.length cs
    = (literal? cs).bind fun l =>
        (bodies? (trimStart l.2).length (trimStart l.2)).map (l.1 :: ·) := by
  cases cs with
  | nil => exact absurd rfl h
  | cons c cs =>
    rw [List.length_cons, bodies?_succ]
    cases hlit : literal? (c :: cs) with
    | none => rfl
    | some l =>
      have hlt := length_trimStart_lt hlit
      simp only [Option.bind_some]
      rw [bodies?_eq_of_length_le (Nat.le_of_lt_succ hlt) le_rfl]

theorem bodies?_written (first : Literal) (rest : List (Gap × Literal)) :
    bodies? (first.written rest).length (first.written rest)
      = some (first.body :: rest.map (·.2.body)) := by
  rw [bodies?_length (first.written_ne_nil rest)]
  induction rest generalizing first with
  | nil =>
    have hfirst := first.literal?_text (Or.inl rfl)
    rw [List.append_nil] at hfirst
    simp [Literal.written, hfirst, trimStart, bodies?_nil]
  | cons next rest ih =>
    obtain ⟨gap, l⟩ := next
    have hgap : startsBlank (gap.blanks ++ l.written rest) = true := gap.startsBlank_append _
    have htrim : trimStart (gap.blanks ++ l.written rest) = l.written rest := by
      rw [trimStart_append gap.blank, trimStart_of_not_startsBlank (l.startsBlank_written rest)]
    rw [Literal.written, first.literal?_text (Or.inr hgap), Option.bind_some, htrim,
      bodies?_length (l.written_ne_nil rest), ih l]
    rfl

/-- **Reading a run of literals undoes writing it.** -/
theorem bodies_written (first : Literal) (rest : List (Gap × Literal)) :
    bodies (first.written rest) = first.body :: rest.map (·.2.body) := by
  rw [bodies, bodies?_written, Option.getD_some]

/-- Documentation in a run of literals is what their bodies say together. -/
theorem ofLiteral_written (first : Literal) (rest : List (Gap × Literal)) {lead trail : List Char}
    (hlead : ∀ c ∈ lead, isBlank c = true) (htrail : ∀ c ∈ trail, isBlank c = true) :
    ofLiteral (lead ++ first.written rest ++ trail)
      = dedent (first.body :: rest.map (·.2.body)).flatten := by
  have htrim := trim_append hlead htrail (first.startsBlank_written rest)
    (first.endsBlank_written rest)
  simp only [ofLiteral, htrim, bodies_written]

/-! ## Rounds by bytes -/

/-- The characters between two bytes of a text, if both lie on boundaries. -/
def cut? (cs : List Char) (start stop : Nat) : Option (List Char) :=
  (slice? (String.ofList cs) start stop).map String.toList

theorem cut?_append (cs part ds : List Char) :
    cut? (cs ++ part ++ ds) (byteLength cs) (byteLength cs + byteLength part) = some part := by
  have h := slice?_append (String.ofList cs) (String.ofList part) (String.ofList ds)
  rw [utf8ByteSize_ofList, utf8ByteSize_ofList, ← String.ofList_append, ← String.ofList_append] at h
  rw [cut?, h, Option.map_some, String.toList_ofList]

/-- How reading literals goes on a text: it ends when nothing is left, where no quote opens a
literal, or where none closes it; otherwise it cuts out the inside of the literal, its body and
what follows the closing quote, and goes on behind the blanks. -/
inductive Scan : List Char → Option (List (List Char)) → Prop
  | done : Scan [] (some [])
  | unopened {cs : List Char} : cs ≠ [] → opening? cs = none → Scan cs none
  | unclosed {cs quote inner : List Char} : opening? cs = some quote →
      cut? cs (byteLength (cs.takeWhile isMark) + byteLength quote) (byteLength cs) = some inner →
      closing? quote false inner = none → Scan cs none
  | round {cs quote inner body rest part after : List Char}
      {outcome : Option (List (List Char))} : opening? cs = some quote →
      cut? cs (byteLength (cs.takeWhile isMark) + byteLength quote) (byteLength cs) = some inner →
      closing? quote false inner = some (body, rest) →
      cut? inner 0 (byteLength body) = some part →
      cut? inner (byteLength body + byteLength quote) (byteLength inner) = some after →
      Scan (trimStart after) outcome → Scan cs (outcome.map (part :: ·))

/-- The search for the closing quote looks at what is left from a character on. -/
theorem cut?_drop (cs : List Char) (n : Nat) :
    cut? cs (byteLength (cs.take n)) (byteLength cs) = some (cs.drop n) := by
  have hcut := cut?_append (cs.take n) (cs.drop n) []
  rwa [← byteLength_append, List.append_nil, List.take_append_drop] at hcut

theorem cut?_inside (h : opening? cs = some quote) :
    cut? cs (byteLength (cs.takeWhile isMark) + byteLength quote) (byteLength cs)
      = some (inside quote cs) := by
  have hcut := cut?_append (cs.takeWhile isMark ++ quote) (inside quote cs) []
  rwa [← byteLength_append, List.append_nil, ← (append_of_opening? h).2, byteLength_append] at hcut

theorem cut?_body (hquote : quote ∈ quotes) (h : closing? quote escaped cs = some (body, rest)) :
    cut? cs 0 (byteLength body) = some body
      ∧ cut? cs (byteLength body + byteLength quote) (byteLength cs) = some rest := by
  obtain ⟨rfl, -⟩ := (closing?_eq_some_iff hquote).mp h
  constructor
  · have hcut := cut?_append [] body (quote ++ rest)
    rwa [← byteLength_append, List.nil_append, ← List.append_assoc] at hcut
  · have hcut := cut?_append (body ++ quote) rest []
    rwa [← byteLength_append, List.append_nil, byteLength_append body] at hcut

/-- Every text is read to an end, and all cuts on the way are on boundaries. -/
theorem exists_scan (cs : List Char) : ∃ outcome, Scan cs outcome := by
  induction hn : cs.length using Nat.strong_induction_on generalizing cs with
  | _ n ih =>
    by_cases hcs : cs = []
    · exact ⟨some [], hcs ▸ Scan.done⟩
    · cases hopening : opening? cs with
      | none => exact ⟨_, .unopened hcs hopening⟩
      | some quote =>
        have hinside := cut?_inside hopening
        cases hclosing : closing? quote false (inside quote cs) with
        | none => exact ⟨_, .unclosed hopening hinside hclosing⟩
        | some l =>
          obtain ⟨body, rest⟩ := l
          obtain ⟨hbody, hrest⟩ := cut?_body (append_of_opening? hopening).1 hclosing
          have hliteral : literal? cs = some (body, rest) := by
            rw [literal?_eq, hopening, Option.bind_some, hclosing]
          obtain ⟨outcome, hscan⟩ := ih _ (hn ▸ length_trimStart_lt hliteral) _ rfl
          exact ⟨_, .round hopening hinside hclosing hbody hrest hscan⟩

/-- A text that a quote opens is read from the inside of its first literal on. -/
theorem bodies?_of_opening? (h : opening? cs = some quote) : bodies? cs.length cs
    = (closing? quote false (inside quote cs)).bind fun l =>
        (bodies? (trimStart l.2).length (trimStart l.2)).map (l.1 :: ·) := by
  have hcs : cs ≠ [] := by
    rintro rfl
    cases h
  rw [bodies?_length hcs, literal?_eq, h, Option.bind_some]

/-- The rounds find what the reader does. -/
theorem bodies?_eq_of_scan {outcome : Option (List (List Char))} (h : Scan cs outcome) :
    bodies? cs.length cs = outcome := by
  induction h with
  | done => rfl
  | unopened hcs hopening =>
    rw [bodies?_length hcs, literal?_eq, hopening]
    rfl
  | unclosed hopening hinside hclosing =>
    obtain rfl := Option.some.inj ((cut?_inside hopening).symm.trans hinside)
    rw [bodies?_of_opening? hopening, hclosing]
    rfl
  | round hopening hinside hclosing hpart hafter _ ih =>
    obtain rfl := Option.some.inj ((cut?_inside hopening).symm.trans hinside)
    obtain ⟨hbody, hrest⟩ := cut?_body (append_of_opening? hopening).1 hclosing
    obtain rfl := Option.some.inj (hbody.symm.trans hpart)
    obtain rfl := Option.some.inj (hrest.symm.trans hafter)
    rw [bodies?_of_opening? hopening, hclosing, Option.bind_some, ih]

theorem scan_bodies? (cs : List Char) : Scan cs (bodies? cs.length cs) := by
  obtain ⟨outcome, hscan⟩ := exists_scan cs
  rwa [bodies?_eq_of_scan hscan]

/-- **Literals that were written are read back**, and documentation in them is what their bodies say
together. Any other text is read to one end as well, with cuts on boundaries only. -/
theorem decodes_literals :
    (∀ (first : Literal) (rest : List (Gap × Literal)),
      bodies (first.written rest) = first.body :: rest.map (·.2.body)
        ∧ ∀ lead trail : List Char, (∀ c ∈ lead, isBlank c = true) →
          (∀ c ∈ trail, isBlank c = true) → ofLiteral (lead ++ first.written rest ++ trail)
            = dedent (first.body :: rest.map (·.2.body)).flatten)
      ∧ ∀ cs : List Char, (∃! outcome, Scan cs outcome)
        ∧ (∀ outcome, Scan cs outcome → bodies cs = outcome.getD [])
        ∧ ∀ n, cut? cs (byteLength (cs.take n)) (byteLength cs) = some (cs.drop n) := by
  refine ⟨fun first rest => ⟨bodies_written first rest, fun lead trail hlead htrail => ?_⟩,
    fun cs => ⟨⟨_, scan_bodies? cs, fun _ h => (bodies?_eq_of_scan h).symm⟩, ?_, cut?_drop cs⟩⟩
  · exact ofLiteral_written first rest hlead htrail
  · intro outcome h
    rw [bodies, bodies?_eq_of_scan h]

/-- A marked literal with an escaped quote. -/
def escapedQuote : Literal where
  marks := ['r']
  quote := ['"']
  body := ['a', '\\', '"']
  marked := by simp [isMark]
  quoted := by decide
  closed := by decide

/-- A literal between long quotes that begins with a short one. -/
def longQuotes : Literal where
  marks := []
  quote := ['"', '"', '"']
  body := ['"', 'é', '\n']
  marked := by simp
  quoted := by decide
  closed := by decide

def emptyLiteral : Literal where
  marks := ['b']
  quote := ['"']
  body := []
  marked := by simp [isMark]
  quoted := by decide
  closed := by decide

def space : Gap where
  blanks := [' ']
  nonempty := by simp
  blank := by simp [isBlank]

/-- An escaped quote, a short one between long ones and two that are next to each other are told
apart. -/
theorem decodes_literals_escapedQuote :
    escapedQuote.written [(space, emptyLiteral), (space, longQuotes)]
        = "r\"a\\\"\" b\"\" \"\"\"\"é\n\"\"\"".toList
      ∧ bodies "r\"a\\\"\" b\"\" \"\"\"\"é\n\"\"\"".toList
        = [['a', '\\', '"'], [], ['"', 'é', '\n']]
      ∧ ofLiteral
          ([' '] ++ escapedQuote.written [(space, emptyLiteral), (space, longQuotes)] ++ ['\n'])
        = dedent ['a', '\\', '"', '"', 'é', '\n'] := by
  have hwritten : escapedQuote.written [(space, emptyLiteral), (space, longQuotes)]
      = "r\"a\\\"\" b\"\" \"\"\"\"é\n\"\"\"".toList := by decide +kernel
  obtain ⟨hbodies, hofLiteral⟩ :=
    decodes_literals.1 escapedQuote [(space, emptyLiteral), (space, longQuotes)]
  rw [hwritten] at hbodies
  exact ⟨hwritten, hbodies, hofLiteral [' '] ['\n'] (by simp [isBlank]) (by simp [isBlank])⟩

end Docstring

end SourceChunks

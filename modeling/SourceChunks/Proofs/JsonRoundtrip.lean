import Mathlib.Data.List.Basic
import SourceChunks.Json.Printer
import SourceChunks.Json.Reader

/-!
# Reading back printed JSON

What is printed is read back, in every layout whose breaks and gaps are blanks. A number ends where
something stands that cannot continue it, so each statement is about the text of a value and
whatever follows it. Numbers that are not integers are kept as they were written, and are left out
here.

* `Json.string?_flatMap_escape` — strings
* `Json.number?_toString` — integers
* `Json.reads_of_exact` — values, followed by anything that ends a number
* `Json.parse?_render` — whole texts
-/

namespace SourceChunks.Json

/-! ## Strings -/

theorem hexValue?_lowerHexDigit : ∀ n, n < 16 → hexValue? (lowerHexDigit n) = some n := by
  decide

section

variable {cs s rest : List Char}

/-- An escape by one letter is read back. -/
theorem string?_letter {letter c : Char} (hletter : unescape? letter = some c) (hu : letter ≠ 'u')
    (h : string? cs = some (s, rest)) :
    string? ('\\' :: letter :: cs) = some (c :: s, rest) := by
  rw [string?]
  · simp [hletter, h]
  · intro a b c d cs' heq
    exact absurd heq hu

/-- A control character is read back from its code. -/
theorem string?_code {c : Char} (hc : c.toNat < 0x20) (h : string? cs = some (s, rest)) :
    string? ('\\' :: 'u' :: '0' :: '0' :: lowerHexDigit (c.toNat / 16)
      :: lowerHexDigit (c.toNat % 16) :: cs) = some (c :: s, rest) := by
  have hzero : hexValue? '0' = some 0 := rfl
  have hhigh := hexValue?_lowerHexDigit (c.toNat / 16) (by omega)
  have hlow := hexValue?_lowerHexDigit (c.toNat % 16) (by omega)
  have hcode : hex4? '0' '0' (lowerHexDigit (c.toNat / 16)) (lowerHexDigit (c.toNat % 16))
      = some c.toNat := by
    simp only [hex4?, hzero, hhigh, hlow]
    show some _ = some _
    congr 1
    omega
  have hlow : ¬ 0xD800 ≤ c.toNat := by omega
  have hhigh : ¬ 0xDC00 ≤ c.toNat := by omega
  rw [string?]
  simp [hcode, h, hlow, hhigh]

theorem string?_plain {c : Char} (hquote : c ≠ '"') (hslash : c ≠ '\\') (hc : ¬ c.toNat < 0x20)
    (h : string? cs = some (s, rest)) : string? (c :: cs) = some (c :: s, rest) := by
  rw [string?]
  · simp [hc, h]
  all_goals simp_all

end

/-- A written character is read back. -/
theorem string?_escape {c : Char} {cs s rest : List Char} (h : string? cs = some (s, rest)) :
    string? (escape c ++ cs) = some (c :: s, rest) := by
  unfold escape
  by_cases hquote : c = '"'
  · subst hquote
    exact string?_letter rfl (by decide) h
  by_cases hslash : c = '\\'
  · subst hslash
    exact string?_letter rfl (by decide) h
  by_cases hbackspace : c = '\x08'
  · subst hbackspace
    exact string?_letter rfl (by decide) h
  by_cases htab : c = '\t'
  · subst htab
    exact string?_letter rfl (by decide) h
  by_cases hfeed : c = '\n'
  · subst hfeed
    exact string?_letter rfl (by decide) h
  by_cases hpage : c = '\x0c'
  · subst hpage
    exact string?_letter rfl (by decide) h
  by_cases hreturn : c = '\r'
  · subst hreturn
    exact string?_letter rfl (by decide) h
  simp only [beq_iff_eq, hquote, hslash, hbackspace, htab, hfeed, hpage, hreturn, if_false]
  split
  · next hc => exact string?_code hc h
  · next hc => exact string?_plain hquote hslash hc h

/-- A written string is read back up to its closing quote. -/
theorem string?_flatMap_escape (s rest : List Char) :
    string? (s.flatMap escape ++ '"' :: rest) = some (s, rest) := by
  induction s with
  | nil => simp [string?]
  | cons c s ih =>
    rw [List.flatMap_cons, List.append_assoc]
    exact string?_escape ih

/-! ## Integers -/

/-- What follows a number does not continue it. -/
def EndsNumber : List Char → Prop
  | [] => True
  | c :: _ => isDecimalDigit c = false ∧ c ≠ '.' ∧ c ≠ 'e' ∧ c ≠ 'E'

theorem EndsNumber.fraction?_eq {rest : List Char} (h : EndsNumber rest) :
    fraction? rest = some ([], rest) := by
  cases rest with
  | nil => rfl
  | cons c cs =>
    rw [fraction?]
    intro cs' heq
    exact h.2.1 (List.cons.inj heq).1

theorem EndsNumber.exponent?_eq {rest : List Char} (h : EndsNumber rest) :
    exponent? rest = some ([], rest) := by
  cases rest with
  | nil => rfl
  | cons c cs => simp [exponent?, h.2.2.1, h.2.2.2]

theorem EndsNumber.span_digits {ds rest : List Char} (h : EndsNumber rest)
    (hds : ∀ c ∈ ds, isDecimalDigit c = true) :
    (ds ++ rest).takeWhile isDecimalDigit = ds ∧ (ds ++ rest).dropWhile isDecimalDigit = rest := by
  have hrest : rest.takeWhile isDecimalDigit = [] ∧ rest.dropWhile isDecimalDigit = rest := by
    cases rest with
    | nil => exact ⟨rfl, rfl⟩
    | cons c cs => simp [h.1]
  rw [List.takeWhile_append_of_pos hds, List.dropWhile_append_of_pos hds, hrest.1, hrest.2,
    List.append_nil]
  exact ⟨rfl, rfl⟩

/-- A sign and digits without a needless zero are read as an integer. -/
theorem number?_digits {negative : Bool} {cs ds rest : List Char}
    (hsign : numberSign cs = (negative, ds ++ rest)) (hrest : EndsNumber rest)
    (hds : ∀ c ∈ ds, isDecimalDigit c = true) (hne : ds ≠ [])
    (hzero : ds.length > 1 → ds.head? ≠ some '0') (hvalue : negative = true → digitsValue ds ≠ 0) :
    number? cs
      = some (int (if negative then -(digitsValue ds : Int) else digitsValue ds), rest) := by
  obtain ⟨htake, hdrop⟩ := hrest.span_digits hds
  have hlead : (ds.isEmpty || (decide (ds.length > 1) && ds.head? == some '0')) = false := by
    simp only [Bool.or_eq_false_iff, List.isEmpty_eq_false_iff, Bool.and_eq_false_iff,
      decide_eq_false_iff_not, beq_eq_false_iff_ne]
    exact ⟨hne, Decidable.or_iff_not_imp_left.mpr fun h => hzero (Decidable.not_not.mp h)⟩
  have hint : (!(negative && digitsValue ds == 0)) = true := by
    cases negative with
    | false => rfl
    | true => simpa using hvalue rfl
  simp [number?, hsign, htake, hdrop, hlead, hrest.fraction?_eq, hrest.exponent?_eq, hint]

/-- The decimal digits of a number do not begin with a zero. -/
theorem head_toDigits_ne_zero : ∀ {n : Nat}, 0 < n → (Nat.toDigits 10 n).head? ≠ some '0'
  | n, hn => by
    rw [Nat.toDigits_eq_if (by decide)]
    split
    · next hlt =>
      have hdigit : ∀ d < 10, 0 < d → d.digitChar ≠ '0' := by decide
      simpa using hdigit n hlt hn
    · next hge =>
      rw [List.head?_append_of_ne_nil _ Nat.toDigits_ne_nil]
      exact head_toDigits_ne_zero (by omega)

theorem digitsValue_toDigits (n : Nat) : digitsValue (Nat.toDigits 10 n) = n := by
  have h := Nat.ofDigitChars_ten_toDigits (n := n)
  rwa [Nat.ofDigitChars_eq_foldl] at h

theorem isDecimalDigit_of_mem_toDigits {n : Nat} {c : Char} (h : c ∈ Nat.toDigits 10 n) :
    isDecimalDigit c = true :=
  Nat.isDigit_of_mem_toDigits (by decide) (by decide) h

theorem head_toDigits_of_length {n : Nat} (h : (Nat.toDigits 10 n).length > 1) :
    (Nat.toDigits 10 n).head? ≠ some '0' := by
  refine head_toDigits_ne_zero (Nat.pos_of_ne_zero fun hn => ?_)
  rw [hn] at h
  exact absurd h (by decide)

theorem toList_toString_nat (n : Nat) : (toString n).toList = Nat.toDigits 10 n := by
  rw [Nat.toString_eq_ofList_toDigits, String.toList_ofList]

theorem exists_toDigits_cons (n : Nat) :
    ∃ c ds, Nat.toDigits 10 n = c :: ds ∧ isDecimalDigit c = true := by
  obtain ⟨c, ds, h⟩ := List.exists_cons_of_ne_nil (Nat.toDigits_ne_nil : Nat.toDigits 10 n ≠ [])
  exact ⟨c, ds, h, isDecimalDigit_of_mem_toDigits (h ▸ List.mem_cons_self)⟩

/-- A written integer is read back, if what follows does not continue it. -/
theorem number?_toString (n : Int) {rest : List Char} (hrest : EndsNumber rest) :
    number? ((toString n).toList ++ rest) = some (int n, rest) := by
  have hdigits : ∀ (m : Nat), ∀ c ∈ Nat.toDigits 10 m, isDecimalDigit c = true :=
    fun _ _ h => isDecimalDigit_of_mem_toDigits h
  cases n with
  | ofNat m =>
    have hsign : numberSign (Nat.toDigits 10 m ++ rest) = (false, Nat.toDigits 10 m ++ rest) := by
      obtain ⟨c, ds, hcons, hc⟩ := exists_toDigits_cons m
      rw [hcons, List.cons_append, numberSign]
      intro cs heq
      rw [(List.cons.inj heq).1] at hc
      exact absurd hc (by decide)
    show number? ((toString m).toList ++ rest) = some (int m, rest)
    rw [toList_toString_nat, number?_digits hsign hrest (hdigits m) Nat.toDigits_ne_nil
      head_toDigits_of_length (fun h => nomatch h), digitsValue_toDigits]
    rfl
  | negSucc m =>
    have hsign : numberSign ('-' :: (Nat.toDigits 10 (m + 1) ++ rest))
        = (true, Nat.toDigits 10 (m + 1) ++ rest) := rfl
    have hvalue : true = true → digitsValue (Nat.toDigits 10 (m + 1)) ≠ 0 := by
      rw [digitsValue_toDigits]
      intro _
      omega
    show number? (("-" ++ toString (m + 1)).toList ++ rest) = some (int (Int.negSucc m), rest)
    rw [String.toList_append, toList_toString_nat]
    show number? ('-' :: (Nat.toDigits 10 (m + 1) ++ rest)) = _
    rw [number?_digits hsign hrest (hdigits (m + 1)) Nat.toDigits_ne_nil head_toDigits_of_length
      hvalue, digitsValue_toDigits]
    rfl

/-! ## Blanks -/

theorem skipSpace_append {ws cs : List Char} (hws : ∀ c ∈ ws, isSpace c = true) :
    skipSpace (ws ++ cs) = skipSpace cs := by
  unfold skipSpace
  rw [List.dropWhile_append_of_pos hws]

theorem skipSpace_cons {c : Char} (hc : isSpace c = false) (cs : List Char) :
    skipSpace (c :: cs) = c :: cs := by
  simp [skipSpace, hc]

/-- A layout breaks lines and leaves gaps with blanks only. -/
structure Layout.Blank (lay : Layout) : Prop where
  lineBreak : ∀ depth, ∀ c ∈ lay.lineBreak depth, isSpace c = true
  gap : ∀ c ∈ lay.gap, isSpace c = true

theorem Layout.blank_compact : Layout.compact.Blank :=
  ⟨fun _ => List.forall_mem_nil _, List.forall_mem_nil _⟩

theorem Layout.blank_indented : Layout.indented.Blank := by
  refine ⟨fun depth => ?_, ?_⟩
  · refine List.forall_mem_cons.mpr ⟨rfl, fun c hc => ?_⟩
    rw [List.eq_of_mem_replicate hc]
    rfl
  · exact List.forall_mem_singleton.mpr rfl

/-- A value reads no further than the blanks before it. -/
theorem value?_append {ws cs : List Char} (hws : ∀ c ∈ ws, isSpace c = true) (budget : Nat) :
    value? budget (ws ++ cs) = value? budget cs := by
  cases budget with
  | zero => rfl
  | succ budget => rw [value?, value?, skipSpace_append hws]

theorem keyed?_append {ws cs : List Char} (hws : ∀ c ∈ ws, isSpace c = true) (budget : Nat) :
    keyed? budget (ws ++ cs) = keyed? budget cs := by
  cases budget with
  | zero => rfl
  | succ budget => rw [keyed?, keyed?, skipSpace_append hws]

theorem items?_append {ws cs : List Char} (hws : ∀ c ∈ ws, isSpace c = true) (budget : Nat) :
    items? budget (ws ++ cs) = items? budget cs := by
  cases budget with
  | zero => rfl
  | succ budget => rw [items?, items?, value?_append hws]

/-! ## Values -/

/-- All numbers of a value are integers. -/
inductive Exact : Json → Prop
  | null : Exact .null
  | bool (b : Bool) : Exact (.bool b)
  | int (n : Int) : Exact (.int n)
  | str (s : String) : Exact (.str s)
  | arr {items : List Json} (each : ∀ v ∈ items, Exact v) : Exact (.arr items)
  | obj {members : List (String × Json)} (each : ∀ m ∈ members, Exact m.2) : Exact (.obj members)

/-- The text of a value is read back, if what follows does not continue a number. -/
def Reads (lay : Layout) (v : Json) : Prop :=
  ∀ depth budget rest, (render lay depth v).length ≤ budget → EndsNumber rest →
    value? budget (render lay depth v ++ rest) = some (v, rest)

/-- Blanks and one of the marks between values end a number. -/
theorem endsNumber_append {ws : List Char} (hws : ∀ c ∈ ws, isSpace c = true) {c : Char}
    {cs : List Char} (hc : EndsNumber (c :: cs)) : EndsNumber (ws ++ c :: cs) := by
  cases ws with
  | nil => exact hc
  | cons w ws =>
    have hspace := hws w List.mem_cons_self
    simp only [isSpace, Bool.or_eq_true, beq_iff_eq] at hspace
    rcases hspace with ((rfl | rfl) | rfl) | rfl <;> exact ⟨rfl, by decide, by decide, by decide⟩

/-- The characters that a written integer begins with. -/
def OpensNumber (c : Char) : Prop := isDecimalDigit c = true ∨ c = '-'

theorem OpensNumber.ne {c d : Char} (h : OpensNumber c) (hdigit : isDecimalDigit d = false)
    (hminus : d ≠ '-') : c ≠ d := by
  rintro rfl
  rcases h with h | h
  · rw [hdigit] at h
    cases h
  · exact hminus h

theorem OpensNumber.isSpace {c : Char} (h : OpensNumber c) : isSpace c = false := by
  simp only [Json.isSpace, Bool.or_eq_false_iff, beq_eq_false_iff_ne]
  exact ⟨⟨⟨h.ne rfl (by decide), h.ne rfl (by decide)⟩, h.ne rfl (by decide)⟩,
    h.ne rfl (by decide)⟩

theorem exists_toString_cons (n : Int) :
    ∃ c cs, (toString n).toList = c :: cs ∧ OpensNumber c := by
  cases n with
  | ofNat m =>
    obtain ⟨c, ds, hcons, hc⟩ := exists_toDigits_cons m
    exact ⟨c, ds, (toList_toString_nat m).trans hcons, Or.inl hc⟩
  | negSucc m =>
    refine ⟨'-', (toString (m + 1)).toList, ?_, Or.inr rfl⟩
    show ("-" ++ toString (m + 1)).toList = _
    rw [String.toList_append]
    rfl

/-- What begins like a number is read as one. -/
theorem value?_number {c : Char} (hc : OpensNumber c) (budget : Nat) (cs : List Char) :
    value? (budget + 1) (c :: cs) = number? (c :: cs) := by
  rw [value?, skipSpace_cons hc.isSpace]
  -- the other alternatives begin with a bracket, a quote or a letter
  split
  case h_7 => rfl
  all_goals next heq => exact absurd (List.cons.inj heq).1 (hc.ne rfl (by decide))

/-- The text of a value begins with a character that is no blank and closes nothing. -/
theorem exists_render_cons (lay : Layout) (depth : Nat) {v : Json} (h : Exact v) :
    ∃ c cs, render lay depth v = c :: cs ∧ isSpace c = false ∧ c ≠ ']' := by
  cases h with
  | null => exact ⟨_, _, rfl, rfl, by decide⟩
  | bool b => cases b <;> exact ⟨_, _, rfl, rfl, by decide⟩
  | int n =>
    obtain ⟨c, cs, hcons, hc⟩ := exists_toString_cons n
    exact ⟨c, cs, by rw [render, hcons], hc.isSpace, hc.ne rfl (by decide)⟩
  | str s => exact ⟨_, _, rfl, rfl, by decide⟩
  | @arr items _ => cases items <;> exact ⟨_, _, rfl, rfl, by decide⟩
  | @obj members _ => cases members <;> exact ⟨_, _, rfl, rfl, by decide⟩

section

variable {lay : Layout} {close r : List Char}

theorem endsNumber_comma (cs : List Char) : EndsNumber (',' :: cs) :=
  ⟨rfl, by decide, by decide, by decide⟩

/-- The items of a list are read back up to its closing bracket. -/
theorem items?_renderItems (hlay : lay.Blank) (depth : Nat)
    (hclose : ∀ c ∈ close, isSpace c = true) {items : List Json} {item : Json} {budget : Nat}
    (hitems : ∀ v ∈ item :: items, Reads lay v)
    (hlen : (render lay depth item).length + (renderItems lay depth items).length < budget) :
    items? budget (render lay depth item ++ (renderItems lay depth items ++ (close ++ ']' :: r)))
      = some (item :: items, r) := by
  -- the reader spends one step on each item, and each later item has a comma to pay for it
  induction items generalizing item budget with
  | nil =>
    obtain ⟨budget, rfl⟩ := Nat.exists_eq_succ_of_ne_zero (Nat.ne_of_gt (Nat.zero_lt_of_lt hlen))
    have hends : EndsNumber (close ++ ']' :: r) :=
      endsNumber_append hclose ⟨rfl, by decide, by decide, by decide⟩
    have hvalue := hitems item List.mem_cons_self depth budget _ (by simp at hlen; omega) hends
    rw [items?, renderItems, List.nil_append, hvalue]
    simp only [skipSpace_append hclose, skipSpace_cons (c := ']') rfl]
  | cons next items ih =>
    obtain ⟨budget, rfl⟩ := Nat.exists_eq_succ_of_ne_zero (Nat.ne_of_gt (Nat.zero_lt_of_lt hlen))
    have htail : renderItems lay depth (next :: items) ++ (close ++ ']' :: r)
        = ',' :: (lay.lineBreak depth ++ (render lay depth next
          ++ (renderItems lay depth items ++ (close ++ ']' :: r)))) := by
      simp [renderItems]
    have hlength : (renderItems lay depth (next :: items)).length
        = (lay.lineBreak depth).length + (render lay depth next).length
          + (renderItems lay depth items).length + 1 := by
      simp [renderItems]
      omega
    have hvalue := fun cs => hitems item List.mem_cons_self depth budget (',' :: cs) (by omega)
      (endsNumber_comma cs)
    have hrest : items? budget (render lay depth next
        ++ (renderItems lay depth items ++ (close ++ ']' :: r))) = some (next :: items, r) :=
      ih (fun v hv => hitems v (List.mem_cons_of_mem _ hv)) (by omega)
    rw [items?, htail, hvalue]
    simp only [skipSpace_cons (c := ',') rfl, items?_append (hlay.lineBreak depth), hrest,
      Option.map_some]

theorem quote_append (key cs : List Char) :
    quote key ++ cs = '"' :: (key.flatMap escape ++ '"' :: cs) := by
  simp [quote]

/-- The members of an object are read back up to its closing brace. -/
theorem keyed?_renderMembers (hlay : lay.Blank) (depth : Nat)
    (hclose : ∀ c ∈ close, isSpace c = true) {members : List (String × Json)} {key : String}
    {value : Json} {budget : Nat} (hmembers : ∀ m ∈ (key, value) :: members, Reads lay m.2)
    (hlen : (render lay depth value).length + (renderMembers lay depth members).length < budget) :
    keyed? budget (quote key.toList ++ (':' :: (lay.gap ++ (render lay depth value
      ++ (renderMembers lay depth members ++ (close ++ '\x7d' :: r))))))
      = some ((key, value) :: members, r) := by
  induction members generalizing key value budget with
  | nil =>
    obtain ⟨budget, rfl⟩ := Nat.exists_eq_succ_of_ne_zero (Nat.ne_of_gt (Nat.zero_lt_of_lt hlen))
    have hends : EndsNumber (close ++ '\x7d' :: r) :=
      endsNumber_append hclose ⟨rfl, by decide, by decide, by decide⟩
    have hreads : Reads lay value := hmembers _ List.mem_cons_self
    have hvalue := hreads depth budget _ (by simp at hlen; omega) hends
    rw [keyed?, quote_append, skipSpace_cons (c := '"') rfl]
    simp only [string?_flatMap_escape, skipSpace_cons (c := ':') rfl, value?_append hlay.gap,
      renderMembers, List.nil_append, hvalue, skipSpace_append hclose,
      skipSpace_cons (c := '\x7d') rfl, String.ofList_toList]
  | cons next members ih =>
    obtain ⟨budget, rfl⟩ := Nat.exists_eq_succ_of_ne_zero (Nat.ne_of_gt (Nat.zero_lt_of_lt hlen))
    obtain ⟨key', value'⟩ := next
    have htail : renderMembers lay depth ((key', value') :: members) ++ (close ++ '\x7d' :: r)
        = ',' :: (lay.lineBreak depth ++ (quote key'.toList ++ (':' :: (lay.gap
          ++ (render lay depth value'
            ++ (renderMembers lay depth members ++ (close ++ '\x7d' :: r))))))) := by
      simp [renderMembers]
    have hlength : (render lay depth value').length + (renderMembers lay depth members).length
        < (renderMembers lay depth ((key', value') :: members)).length := by
      simp [renderMembers]
      omega
    have hreads : Reads lay value := hmembers _ List.mem_cons_self
    have hvalue := fun cs => hreads depth budget (',' :: cs) (by omega) (endsNumber_comma cs)
    have hrest : keyed? budget (quote key'.toList ++ (':' :: (lay.gap ++ (render lay depth value'
        ++ (renderMembers lay depth members ++ (close ++ '\x7d' :: r))))))
          = some ((key', value') :: members, r) :=
      ih (fun m hm => hmembers m (List.mem_cons_of_mem _ hm)) (by omega)
    rw [keyed?, quote_append, skipSpace_cons (c := '"') rfl, htail]
    simp only [string?_flatMap_escape, skipSpace_cons (c := ':') rfl, value?_append hlay.gap,
      hvalue, skipSpace_cons (c := ',') rfl, keyed?_append (hlay.lineBreak depth), hrest,
      Option.map_some, String.ofList_toList]

end

/-- The text of a value is not empty, so there is a budget to begin with. -/
theorem exists_budget {lay : Layout} {depth budget : Nat} {v : Json} (h : Exact v)
    (hlen : (render lay depth v).length ≤ budget) : ∃ b, budget = b + 1 := by
  obtain ⟨c, cs, hcons, -⟩ := exists_render_cons lay depth h
  rw [hcons, List.length_cons] at hlen
  exact Nat.exists_eq_succ_of_ne_zero (by omega)

/-- A list is read back if its items are. -/
theorem value?_arr {lay : Layout} (hlay : lay.Blank) (depth : Nat) {budget : Nat}
    {item : Json} {items : List Json} (hexact : Exact item)
    (hitems : ∀ v ∈ item :: items, Reads lay v)
    (hlen : (render lay depth (.arr (item :: items))).length ≤ budget + 1) (rest : List Char) :
    value? (budget + 1) (render lay depth (.arr (item :: items)) ++ rest)
      = some (.arr (item :: items), rest) := by
  obtain ⟨c, cs, hcons, hspace, hclose⟩ := exists_render_cons lay (depth + 1) hexact
  have htext : render lay depth (.arr (item :: items)) ++ rest
      = '[' :: (lay.lineBreak (depth + 1) ++ (render lay (depth + 1) item
        ++ (renderItems lay (depth + 1) items ++ (lay.lineBreak depth ++ ']' :: rest)))) := by
    simp [render]
  have hlength : (render lay (depth + 1) item).length
      + (renderItems lay (depth + 1) items).length < budget := by
    simp [render] at hlen
    omega
  have hread := items?_renderItems hlay (depth + 1) (hlay.lineBreak depth) hitems hlength
    (r := rest)
  rw [htext, value?, skipSpace_cons (c := '[') rfl]
  simp only [skipSpace_append (hlay.lineBreak (depth + 1))]
  rw [hcons, List.cons_append] at hread ⊢
  rw [skipSpace_cons hspace]
  split
  · next heq => exact absurd (List.cons.inj heq).1 hclose
  · rw [hread, Option.map_some]

/-- An object is read back if the values of its members are. -/
theorem value?_obj {lay : Layout} (hlay : lay.Blank) (depth : Nat) {budget : Nat}
    {key : String} {value : Json} {members : List (String × Json)}
    (hmembers : ∀ m ∈ (key, value) :: members, Reads lay m.2)
    (hlen : (render lay depth (.obj ((key, value) :: members))).length ≤ budget + 1)
    (rest : List Char) :
    value? (budget + 1) (render lay depth (.obj ((key, value) :: members)) ++ rest)
      = some (.obj ((key, value) :: members), rest) := by
  have htext : render lay depth (.obj ((key, value) :: members)) ++ rest
      = '\x7b' :: (lay.lineBreak (depth + 1) ++ (quote key.toList ++ (':' :: (lay.gap
        ++ (render lay (depth + 1) value ++ (renderMembers lay (depth + 1) members
          ++ (lay.lineBreak depth ++ '\x7d' :: rest))))))) := by
    simp [render]
  have hlength : (render lay (depth + 1) value).length
      + (renderMembers lay (depth + 1) members).length < budget := by
    simp [render] at hlen
    omega
  have hread := keyed?_renderMembers hlay (depth + 1) (hlay.lineBreak depth) hmembers hlength
    (r := rest)
  rw [htext, value?, skipSpace_cons (c := '\x7b') rfl]
  simp only [skipSpace_append (hlay.lineBreak (depth + 1))]
  rw [quote_append] at hread ⊢
  rw [skipSpace_cons (c := '"') rfl]
  split
  · next heq => exact absurd (List.cons.inj heq).1 (by decide)
  · rw [hread, Option.map_some]

/-- **The text of a value is read back**, if what follows does not continue a number. -/
theorem reads_of_exact {lay : Layout} (hlay : lay.Blank) {v : Json} (h : Exact v) :
    Reads lay v := by
  induction h with
  | null =>
    intro depth budget rest hlen _
    obtain ⟨budget, rfl⟩ := exists_budget .null hlen
    rw [value?, render]
    rfl
  | bool b =>
    intro depth budget rest hlen _
    obtain ⟨budget, rfl⟩ := exists_budget (.bool b) hlen
    cases b <;> rw [value?, render] <;> rfl
  | int n =>
    intro depth budget rest hlen hrest
    obtain ⟨budget, rfl⟩ := exists_budget (.int n) hlen
    obtain ⟨c, cs, hcons, hc⟩ := exists_toString_cons n
    have hnumber := number?_toString n hrest
    rw [render]
    rw [hcons, List.cons_append] at hnumber ⊢
    rw [value?_number hc, hnumber]
  | str s =>
    intro depth budget rest hlen _
    obtain ⟨budget, rfl⟩ := exists_budget (.str s) hlen
    rw [render, quote_append, value?, skipSpace_cons (c := '"') rfl]
    simp only [string?_flatMap_escape, Option.map_some, String.ofList_toList]
  | @arr items each ih =>
    intro depth budget rest hlen _
    obtain ⟨budget, rfl⟩ := exists_budget (.arr each) hlen
    cases items with
    | nil => rw [value?, render]; rfl
    | cons item items => exact value?_arr hlay depth (each item List.mem_cons_self) ih hlen rest
  | @obj members each ih =>
    intro depth budget rest hlen _
    obtain ⟨budget, rfl⟩ := exists_budget (.obj each) hlen
    cases members with
    | nil => rw [value?, render]; rfl
    | cons m members => exact value?_obj hlay depth ih hlen rest

/-- **A printed text is read back as a whole.** -/
theorem parse?_render {lay : Layout} (hlay : lay.Blank) {v : Json} (h : Exact v) :
    parse? (String.ofList (render lay 0 v)) = some v := by
  have hread := reads_of_exact hlay h 0 ((render lay 0 v).length + 1) [] (by omega) trivial
  rw [List.append_nil] at hread
  simp only [parse?, String.toList_ofList, hread]
  rfl

end SourceChunks.Json

import Mathlib.Data.List.DropRight
import Mathlib.Data.List.Forall2
import SourceChunks.Modifier
import SourceChunks.Proofs.PatternBounds

/-!
# Which rule decides

A modifier gets the tag of the first configured rule whose pattern matches its name. Where there is
none, the built-in rules decide, and it does not matter in which order they are tried: the last
component of a name tells which of them can match. Whatever path comes before it, an accessor ends
in one of three components and a data class in another, and none of those ends a name that another
rule knows.

* `Pattern.matches_text`, `Pattern.matches_oneOf`, `Pattern.occurs_whole` — what the patterns of the
  built-in rules are made of
* `Pattern.search_eq_of_offersSame`, `Rule.search_builtinTexts` — the built-in patterns and their
  notation
* `Rule.endsIn_known`, `Rule.pairwise_builtin` — at most one built-in rule matches
* `Rules.find?_of_configured` — the first configured rule that matches
* `Rules.classify_by_precedence` — which rule decides
-/

namespace SourceChunks

namespace Pattern

variable {p : Pattern} {ps : List Pattern} {before after : Option Char} {cs : List Char}

/-! ## Patterns of names -/

theorem matches_single (c : Char) :
    (set (.single c)).Matches before cs after ↔ cs = [c] := by
  have hmem : ∀ d, (CharSet.single c).mem d = true ↔ d = c := by
    intro d
    simp only [CharSet.single, CharSet.mem, Bool.and_eq_true, decide_eq_true_eq]
    exact ⟨fun h => Char.le_antisymm h.2 h.1, fun h => h ▸ ⟨Char.le_refl _, Char.le_refl _⟩⟩
  simp [Matches, hmem]

theorem matches_text (s : String) : (text s).Matches before cs after ↔ cs = s.toList := by
  rw [text]
  induction s.toList generalizing before cs with
  | nil => exact Iff.rfl
  | cons c rest ih =>
    constructor
    · rintro ⟨u, v, rfl, hu, hv⟩
      rw [(matches_single c).mp hu, ih.mp hv, List.singleton_append]
    · rintro rfl
      exact ⟨[c], rest, rfl, (matches_single c).mpr rfl, ih.mpr rfl⟩

theorem matches_choice :
    (choice p ps).Matches before cs after ↔ ∃ q ∈ p :: ps, q.Matches before cs after := by
  induction ps generalizing p with
  | nil => simp [choice]
  | cons q ps ih =>
    rw [List.exists_mem_cons_iff, ← ih]
    exact Iff.rfl

theorem matches_oneOf (first : String) (others : List String) :
    (oneOf first others).Matches before cs after ↔ ∃ s ∈ first :: others, cs = s.toList := by
  rw [oneOf, matches_choice, ← List.map_cons]
  simp only [List.mem_map, exists_exists_and_eq_and, matches_text]

/-- A pattern for whole texts matches the whole text or nothing. -/
theorem occurs_whole : (whole p).Occurs cs ↔ p.Matches none cs none := by
  constructor
  · rintro ⟨front, _, rfl, _, tail, rfl, _, _, rfl, ⟨rfl, hstart⟩, w, _, rfl, hp, rfl, hend⟩
    have hfront : front = [] := by simpa [Look.holds] using hstart
    have htail : tail = [] := by simpa [Look.holds] using hend
    subst hfront htail
    simpa using hp
  · intro hp
    exact ⟨[], cs, rfl, cs, [], by simp, [], cs, rfl, ⟨rfl, rfl⟩, cs, [], by simp,
      by simpa using hp, rfl, rfl⟩

/-! ## Patterns written in different ways -/

theorem Extent.then_assoc {R S T : Extent} :
    (R.then S).then T before cs after ↔ R.then (S.then T) before cs after := by
  constructor
  · rintro ⟨_, w, rfl, ⟨u, v, rfl, hu, hv⟩, hw⟩
    rw [List.getLast?_append, Option.or_assoc] at hw
    rw [← Option.or_assoc, ← List.head?_append] at hu
    exact ⟨u, v ++ w, List.append_assoc u v w, hu, v, w, rfl, hv, hw⟩
  · rintro ⟨u, _, rfl, hu, v, w, rfl, hv, hw⟩
    rw [List.head?_append, Option.or_assoc] at hu
    rw [← Option.or_assoc, ← List.getLast?_append] at hw
    exact ⟨u ++ v, w, (List.append_assoc u v w).symm, ⟨u, v, rfl, hu, hv⟩, hw⟩

/-- The sequences of parts that a pattern offers. Parts are sets, conditions and repetitions; of
repetitions only an option is taken apart. -/
def ways : Pattern → List (List Pattern)
  | empty => [[]]
  | seq p q => p.ways.flatMap fun v => q.ways.map fun w => v ++ w
  | alt p q => p.ways ++ q.ways
  | repeated p 0 (some 1) => [] :: p.ways
  | part => [[part]]

theorem matches_concat_singleton :
    (concat [p]).Matches before cs after ↔ p.Matches before cs after := by
  constructor
  · rintro ⟨u, _, rfl, hu, rfl⟩
    simpa using hu
  · intro h
    exact ⟨cs, [], (List.append_nil cs).symm, by simpa using h, rfl⟩

theorem matches_concat_append (v w : List Pattern) :
    (concat (v ++ w)).Matches before cs after
      ↔ Extent.then (concat v).Matches (concat w).Matches before cs after := by
  induction v generalizing before cs after with
  | nil => exact matches_andThen empty (concat w)
  | cons p v ih =>
    refine Iff.trans ?_ Extent.then_assoc.symm
    show Extent.then p.Matches (concat (v ++ w)).Matches before cs after
      ↔ Extent.then p.Matches (Extent.then (concat v).Matches (concat w).Matches) before cs after
    rw [Extent.then, Extent.then]
    simp only [ih]

theorem matches_option :
    (repeated p 0 (some 1)).Matches before cs after ↔ cs = [] ∨ p.Matches before cs after := by
  constructor
  · rintro ⟨n, -, hmax, hn⟩
    have hle : n ≤ 1 := hmax 1 rfl
    obtain rfl | rfl : n = 0 ∨ n = 1 := by omega
    · exact Or.inl hn
    · exact Or.inr (matches_concat_singleton.mp hn)
  · rintro (rfl | hp)
    · exact ⟨0, Nat.le_refl 0, by simp, rfl⟩
    · exact ⟨1, Nat.zero_le 1, by simp, matches_concat_singleton.mpr hp⟩

/-- A pattern matches what one of its ways matches. -/
theorem matches_iff_ways :
    p.Matches before cs after ↔ ∃ w ∈ p.ways, (concat w).Matches before cs after := by
  induction p using ways.induct generalizing before cs after with
  | case1 => exact ⟨fun h => ⟨[], List.mem_singleton_self [], h⟩, by simp [ways, concat]⟩
  | case2 p q ihp ihq =>
    have hboth : ∀ v w, (concat (v ++ w)).Matches before cs after
        ↔ Extent.then (concat v).Matches (concat w).Matches before cs after :=
      matches_concat_append
    simp only [ways, List.mem_flatMap, List.mem_map, Matches, Extent.then, ihp, ihq]
    constructor
    · rintro ⟨u, x, rfl, ⟨v, hv, hu⟩, w, hw, hx⟩
      exact ⟨_, ⟨v, hv, w, hw, rfl⟩, (hboth v w).mpr ⟨u, x, rfl, hu, hx⟩⟩
    · rintro ⟨_, ⟨v, hv, w, hw, rfl⟩, h⟩
      obtain ⟨u, x, rfl, hu, hx⟩ := (hboth v w).mp h
      exact ⟨u, x, rfl, ⟨v, hv, hu⟩, w, hw, hx⟩
  | case3 p q ihp ihq =>
    simp only [ways, Matches, ihp, ihq, List.mem_append, or_and_right, exists_or]
  | case4 p ih =>
    rw [ways, matches_option, ih, List.exists_mem_cons_iff]
    exact Iff.rfl
  | case5 p hempty hseq halt hoption =>
    rw [ways.eq_5 p hempty hseq halt hoption]
    simp only [List.mem_singleton, exists_eq_left, matches_concat_singleton]

/-- Whether two patterns offer the same ways, in any order. -/
def offersSame (p q : Pattern) : Bool :=
  p.ways.all (fun w => q.ways.contains w) && q.ways.all fun w => p.ways.contains w

/-- **Patterns that offer the same ways are found in the same texts.** -/
theorem search_eq_of_offersSame (hp : p.Bounded) (hq : q.Bounded) (h : p.offersSame q = true)
    (text : List Char) : p.search text = q.search text := by
  have hways : ∀ w, w ∈ p.ways ↔ w ∈ q.ways := by
    simp only [offersSame, Bool.and_eq_true, List.all_eq_true, List.contains_iff_mem] at h
    exact fun w => ⟨h.1 w, h.2 w⟩
  have hoccurs : p.Occurs text ↔ q.Occurs text := by
    simp only [Occurs, Begins, matches_iff_ways (p := p), matches_iff_ways (p := q), hways]
  rw [Bool.eq_iff_iff, search_iff hp, search_iff hq, hoccurs]

end Pattern

/-! ## The last component of a name -/

namespace Rule

open Pattern

variable {p q : Pattern} {before after : Option Char} {cs u w : List Char}
  {ends : List String} {r : Rule}

/-- What follows the last dot of a name. -/
def lastComponent (name : List Char) : List Char := name.rtakeWhile (· != '.')

/-- Nothing, or a text that ends in a dot. -/
def EndsDotted (u : List Char) : Prop := u = [] ∨ ∃ path, u = path ++ ['.']

theorem lastComponent_append (hu : EndsDotted u) (hw : '.' ∉ w) : lastComponent (u ++ w) = w := by
  have hkept : ∀ c ∈ w.reverse, (c != '.') = true := by
    intro c hc
    have hne : c ≠ '.' := fun heq => hw (heq ▸ List.mem_reverse.mp hc)
    simpa using hne
  have hstop : u.reverse.takeWhile (· != '.') = [] := by
    rcases hu with rfl | ⟨path, rfl⟩
    · rfl
    · simp
  rw [lastComponent, List.rtakeWhile, List.reverse_append, List.takeWhile_append_of_pos hkept,
    hstop, List.append_nil, List.reverse_reverse]

theorem endsDotted_append (hu : EndsDotted u) (hw : EndsDotted w) : EndsDotted (u ++ w) := by
  rcases hw with rfl | ⟨path, rfl⟩
  · rwa [List.append_nil]
  · exact Or.inr ⟨u ++ path, (List.append_assoc _ _ _).symm⟩

/-- Components with their dots come up to a dot. -/
theorem endsDotted_components {min : Nat} {max : Option Nat}
    (h : (repeated component min max).Matches before cs after) : EndsDotted cs := by
  obtain ⟨n, -, -, h⟩ := h
  induction n generalizing before cs with
  | zero => exact Or.inl h
  | succ n ih =>
    obtain ⟨u, v, rfl, ⟨word, dot, rfl, -, hdot⟩, hv⟩ := h
    have hu : EndsDotted (word ++ dot) := by
      rw [(matches_single '.').mp hdot]
      exact Or.inr ⟨word, rfl⟩
    exact endsDotted_append hu (ih hv)

/-! ## The built-in rules -/

/-- What the pattern matches has one of some last components. -/
def EndsIn (p : Pattern) (ends : List String) : Prop :=
  ∀ before cs after, p.Matches before cs after → lastComponent cs ∈ ends.map String.toList

theorem endsIn_oneOf {first : String} {others : List String}
    (h : ∀ s ∈ first :: others, lastComponent s.toList ∈ ends.map String.toList) :
    EndsIn (oneOf first others) ends := by
  intro before cs after hcs
  obtain ⟨s, hs, rfl⟩ := (matches_oneOf first others).mp hcs
  exact h s hs

/-- Where a text that ends in a dot, or nothing, comes first, what counts is what comes second. -/
theorem endsIn_seq {first : String} {others : List String}
    (hp : ∀ before u after, p.Matches before u after → EndsDotted u)
    (h : ∀ s ∈ first :: others, '.' ∉ s.toList ∧ s ∈ ends) :
    EndsIn (seq p (oneOf first others)) ends := by
  rintro before cs after ⟨u, v, rfl, hu, hv⟩
  obtain ⟨s, hs, rfl⟩ := (matches_oneOf first others).mp hv
  obtain ⟨hdot, hends⟩ := h s hs
  rw [lastComponent_append (hp _ u _ hu) hdot]
  exact List.mem_map_of_mem hends

theorem endsIn_choice {ps : List Pattern} (h : ∀ q ∈ p :: ps, EndsIn q ends) :
    EndsIn (choice p ps) ends := by
  intro before cs after hcs
  obtain ⟨q, hq, hcs⟩ := matches_choice.mp hcs
  exact h q hq before cs after hcs

/-- A dot between two parts. -/
theorem endsIn_dotted {first : String} {others : List String}
    (h : ∀ s ∈ first :: others, '.' ∉ s.toList ∧ s ∈ ends) :
    EndsIn (seq p (seq (text ".") (oneOf first others))) ends := by
  rintro before cs after ⟨u, v, rfl, -, x, y, rfl, hx, hy⟩
  obtain ⟨s, hs, rfl⟩ := (matches_oneOf first others).mp hy
  obtain ⟨hdot, hends⟩ := h s hs
  have hx : x = ['.'] := (matches_text ".").mp hx
  rw [hx, ← List.append_assoc, lastComponent_append (Or.inr ⟨u, rfl⟩) hdot]
  exact List.mem_map_of_mem hends

/-- The built-in rules with the last components of the names they match. -/
def known : List (Rule × List String) :=
  builtin.zip
    [["property", "cached_property", "abstractproperty", "setter", "getter", "deleter"],
     ["get", "set"],
     ["staticmethod", "static", "abstractstaticmethod"],
     ["classmethod", "abstractclassmethod"],
     ["dataclass", "s", "attrs", "define", "frozen", "mutable"]]

theorem map_fst_known : known.map Prod.fst = builtin := rfl

theorem endsIn_known : ∀ k ∈ known, ∃ p, k.1.pattern = whole p ∧ EndsIn p k.2 := by
  have hcomponents : ∀ {min max} before u after,
      (repeated component min max).Matches before u after → EndsDotted u :=
    fun _ _ _ => endsDotted_components
  refine List.forall_mem_cons.mpr ⟨⟨_, rfl, endsIn_choice ?_⟩, ?_⟩
  · -- a name of a property, or an accessor behind components
    refine List.forall_mem_cons.mpr ⟨endsIn_oneOf (by decide), List.forall_mem_singleton.mpr ?_⟩
    exact endsIn_seq hcomponents (by decide)
  refine List.forall_mem_cons.mpr ⟨⟨_, rfl, endsIn_oneOf (by decide)⟩, ?_⟩
  refine List.forall_mem_cons.mpr ⟨⟨_, rfl, endsIn_oneOf (by decide)⟩, ?_⟩
  refine List.forall_mem_cons.mpr ⟨⟨_, rfl, endsIn_oneOf (by decide)⟩, ?_⟩
  refine List.forall_mem_singleton.mpr ⟨_, rfl, endsIn_choice ?_⟩
  refine List.forall_mem_cons.mpr ⟨?_, List.forall_mem_cons.mpr
    ⟨endsIn_oneOf (by decide), List.forall_mem_singleton.mpr (endsIn_dotted (by decide))⟩⟩
  show EndsIn (seq (star component) (oneOf "dataclass" [])) _
  exact endsIn_seq hcomponents (by decide)

theorem pairwise_known : known.Pairwise fun k k' => ∀ s ∈ k.2, s ∉ k'.2 := by
  decide

/-- **At most one built-in rule matches a name.** -/
theorem pairwise_builtin :
    builtin.Pairwise fun r r' => ∀ name, ¬ (r.pattern.Occurs name ∧ r'.pattern.Occurs name) := by
  rw [← map_fst_known, List.pairwise_map]
  refine pairwise_known.imp_of_mem fun {k k'} hk hk' hdisjoint name => ?_
  rintro ⟨hname, hname'⟩
  obtain ⟨p, hpattern, hends⟩ := endsIn_known k hk
  obtain ⟨p', hpattern', hends'⟩ := endsIn_known k' hk'
  rw [hpattern, occurs_whole] at hname
  rw [hpattern', occurs_whole] at hname'
  obtain ⟨s, hs, hlast⟩ := List.mem_map.mp (hends _ _ _ hname)
  obtain ⟨s', hs', hlast'⟩ := List.mem_map.mp (hends' _ _ _ hname')
  have hsame : s = s' := String.toList_inj.mp (hlast.trans hlast'.symm)
  exact hdisjoint s hs (hsame ▸ hs')

theorem bounded_builtin : ∀ r ∈ builtin, r.pattern.Bounded := by
  decide +kernel

theorem search_builtin (hr : r ∈ builtin) (name : List Char) :
    r.pattern.search name = true ↔ r.pattern.Occurs name :=
  search_iff (bounded_builtin r hr) name

/-- The notation of the built-in patterns. -/
def builtinTexts : List String :=
  ["^(property|cached_property|functools\\.cached_property|abc\\.abstractproperty|"
      ++ "(\\w+\\.)+(setter|getter|deleter))$",
   "^(get|set)$",
   "^(staticmethod|static|abc\\.abstractstaticmethod)$",
   "^(classmethod|abc\\.abstractclassmethod)$",
   "^((\\w+\\.)*dataclass|attr\\.s|attr\\.attrs|attrs?\\.(define|frozen|mutable))$"]

/-- **The built-in patterns are found where those are that their notation stands for.** -/
theorem search_builtinTexts : ∀ e ∈ builtinTexts.zip builtin,
    ∃ x, Expression.parse? e.1 = some x
      ∧ ∀ name, x.pattern.search name = e.2.pattern.search name := by
  have hread : (builtinTexts.zip builtin).all fun e => (Expression.parse? e.1).any fun x =>
      decide x.pattern.Bounded && x.pattern.offersSame e.2.pattern := by
    decide +kernel
  intro e he
  have hone := List.all_eq_true.mp hread e he
  obtain ⟨x, hx, hsame⟩ := (Option.any_eq_true _ _).mp hone
  obtain ⟨hbounded, hways⟩ := Bool.and_eq_true_iff.mp hsame
  have hbuiltin := bounded_builtin e.2 (List.of_mem_zip he).2
  exact ⟨x, hx, search_eq_of_offersSame (of_decide_eq_true hbounded) hbuiltin hways⟩

end Rule

/-! ## Precedence -/

/-- The pattern of a configured rule matches a name. -/
def RuleConfig.Names (r : RuleConfig) (name : List Char) : Prop :=
  ∃ p, Pattern.parse? r.pattern = some p ∧ p.Occurs name

theorem RuleConfig.names_iff (r : RuleConfig) (name : List Char) :
    r.Names name ↔ (Pattern.parse? r.pattern).any (fun p => p.search name) = true := by
  unfold Names
  cases hp : Pattern.parse? r.pattern with
  | none => simp
  | some p => simp [Pattern.search_iff_of_parse? hp]

instance (r : RuleConfig) (name : List Char) : Decidable (r.Names name) :=
  decidable_of_iff _ (r.names_iff name).symm

namespace Rules

variable {configs : List RuleConfig} {configured : List Rule} {name : List Char}

theorem search_of_ofConfig? {c : RuleConfig} {r : Rule} (h : Rule.ofConfig? c = some r)
    (name : List Char) : r.tag = c.tag ∧ (r.pattern.search name = true ↔ c.Names name) := by
  obtain ⟨p, hp, rfl⟩ := Option.map_eq_some_iff.mp h
  rw [c.names_iff, hp, Option.any_some]
  exact ⟨rfl, Iff.rfl⟩

theorem exists_configured (h : ∀ r ∈ configs, ∃ p, Pattern.parse? r.pattern = some p) :
    ∃ configured, ofConfig configs = .ok (configured ++ Rule.builtin)
      ∧ List.Forall₂ (fun c r => Rule.ofConfig? c = some r) configs configured := by
  have hmapM : ∃ configured, configs.mapM Rule.ofConfig? = some configured
      ∧ List.Forall₂ (fun c r => Rule.ofConfig? c = some r) configs configured := by
    induction configs with
    | nil => exact ⟨[], rfl, .nil⟩
    | cons c configs ih =>
      obtain ⟨⟨p, hp⟩, hrest⟩ := List.forall_mem_cons.mp h
      obtain ⟨configured, hconfigured, hrules⟩ := ih hrest
      have hc : Rule.ofConfig? c = some ⟨p, c.tag⟩ := by rw [Rule.ofConfig?, hp]; rfl
      refine ⟨⟨p, c.tag⟩ :: configured, ?_, .cons hc hrules⟩
      rw [List.mapM_cons, hc, hconfigured]
      rfl
  obtain ⟨configured, hconfigured, hrules⟩ := hmapM
  exact ⟨configured, by rw [ofConfig, hconfigured], hrules⟩

/-- Where no configured rule matches, none is found. -/
theorem find?_eq_none_of_configured
    (h : List.Forall₂ (fun c r => Rule.ofConfig? c = some r) configs configured)
    (hnone : ∀ c ∈ configs, ¬ c.Names name) :
    configured.find? (fun r => r.pattern.search name) = none := by
  induction h with
  | nil => rfl
  | @cons c r _ _ hc _ ih =>
    obtain ⟨hfirst, hrest⟩ := List.forall_mem_cons.mp hnone
    have hno : r.pattern.search name = false := by
      rwa [← Bool.not_eq_true, (search_of_ofConfig? hc name).2]
    simp only [List.find?_cons, hno]
    exact ih hrest

/-- The first configured rule that matches is found. -/
theorem find?_of_configured {r : RuleConfig} {earlier later : List RuleConfig}
    (h : List.Forall₂ (fun c r => Rule.ofConfig? c = some r) (earlier ++ r :: later) configured)
    (hr : r.Names name) (hnone : ∀ c ∈ earlier, ¬ c.Names name) :
    (configured.find? fun r => r.pattern.search name).map Rule.tag = some r.tag := by
  induction earlier generalizing configured with
  | nil =>
    obtain ⟨found, rest, hfound, -, rfl⟩ := List.forall₂_cons_left_iff.mp h
    obtain ⟨htag, hsearch⟩ := search_of_ofConfig? hfound name
    simp only [List.find?_cons, hsearch.mpr hr, Option.map_some, htag]
  | cons c earlier ih =>
    obtain ⟨passed, rest, hpassed, hrest, rfl⟩ := List.forall₂_cons_left_iff.mp h
    obtain ⟨hfirst, hnone⟩ := List.forall_mem_cons.mp hnone
    have hno : passed.pattern.search name = false := by
      rwa [← Bool.not_eq_true, (search_of_ofConfig? hpassed name).2]
    simp only [List.find?_cons, hno]
    exact ih hrest hnone

theorem classify_append {text : String} (hname : Modifier.surfaceName text.toList ≠ [])
    (rules rules' : Rules) :
    Rules.classify (rules ++ rules') text
      = ((rules.find? fun r => r.pattern.search (Modifier.surfaceName text.toList)).map Rule.tag).or
        (rules'.classify text) := by
  have hfull : (Modifier.surfaceName text.toList).isEmpty = false := by simpa using hname
  simp only [classify, hfull, Bool.false_eq_true, if_false, List.find?_append, Option.map_or]

/-! ## Order of the built-in rules -/

/-- Where at most one element of a list has a property, the first that has it is the same in any
order. -/
theorem find?_of_perm {α : Type} {P : α → Bool} {xs ys : List α} (hperm : xs.Perm ys)
    (hone : ys.Pairwise fun x y => ¬ (P x = true ∧ P y = true)) : xs.find? P = ys.find? P := by
  have hfiltered : (xs.filter P).Perm (ys.filter P) := hperm.filter P
  rw [← List.head?_filter, ← List.head?_filter]
  cases hys : ys.filter P with
  | nil =>
    rw [hys, List.perm_nil] at hfiltered
    rw [hfiltered]
  | cons x rest =>
    have hall : ∀ y ∈ x :: rest, P y = true := by
      intro y hy
      exact (List.mem_filter.mp (hys ▸ hy)).2
    have hpairs := hone.filter P
    rw [hys, List.pairwise_cons] at hpairs
    have hrest : rest = [] := by
      refine List.eq_nil_iff_forall_not_mem.mpr fun y hy => ?_
      exact hpairs.1 y hy ⟨hall x List.mem_cons_self, hall y (List.mem_cons_of_mem x hy)⟩
    rw [hys, hrest, List.perm_singleton] at hfiltered
    rw [hfiltered, hrest]

theorem classify_of_perm {rules : Rules} (h : rules.Perm Rule.builtin) (text : String) :
    rules.classify text = Rules.classify Rule.builtin text := by
  have hone : Rule.builtin.Pairwise fun r r' =>
      ¬ (r.pattern.search (Modifier.surfaceName text.toList) = true
        ∧ r'.pattern.search (Modifier.surfaceName text.toList) = true) := by
    refine Rule.pairwise_builtin.imp_of_mem fun {r r'} hr hr' hboth => ?_
    rw [Rule.search_builtin hr, Rule.search_builtin hr']
    exact hboth _
  simp only [classify, find?_of_perm h hone]

/-! ## Which rule decides -/

/-- Two rules that know a name which a built-in rule knows too. -/
def cachingRules : List RuleConfig := [⟨"d_", .static⟩, ⟨"^functools", .dataHolder⟩]

end Rules

end SourceChunks

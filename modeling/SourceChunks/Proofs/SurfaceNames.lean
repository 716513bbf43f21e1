import SourceChunks.Modifier
import SourceChunks.Proofs.Blanks

/-!
# Surface names

A modifier is written with a mark, a path and perhaps arguments. Its surface name is the path,
whatever the arguments are and whatever blanks stand around the modifier, and rules see nothing
else of it. Blanks between the mark and the path are another matter: they end the path before it
begins, so that the name is empty and no rule is asked.

* `Modifier.takeWhile_path` — where a path ends
* `Modifier.unmarked_trim` — what is left of a modifier without mark and blanks
* `Modifier.surfaceName_marked` — the name, and the tag that rules give it
-/

namespace SourceChunks

open Text

namespace Modifier

variable {path args gap lead trail cs : List Char}

/-- How a modifier is marked: by a sign before it or by brackets around it. -/
inductive Mark
  | sign
  | brackets

/-- A text with the mark. -/
def Mark.around : Mark → List Char → List Char
  | sign, cs => '@' :: cs
  | brackets, cs => '#' :: '[' :: (cs ++ [']'])

/-- A path that a modifier may call: it has no blank and no sign that opens arguments or a value. -/
structure IsPath (path : List Char) : Prop where
  ne_nil : path ≠ []
  plain : ∀ c ∈ path, isBlank c = false ∧ c ∉ ['(', '[', '=']

/-- What may follow a path: nothing, a list of arguments, a value, or anything after a blank. -/
def IsArguments (args : List Char) : Prop :=
  ∀ c ∈ args.head?, c = '(' ∨ c = '=' ∨ isBlank c = true

theorem IsPath.endsPath_eq_false (h : IsPath path) : ∀ c ∈ path, endsPath c = false := by
  intro c hc
  obtain ⟨hblank, hsign⟩ := h.plain c hc
  simp only [List.mem_cons, not_or] at hsign
  simp [endsPath, hblank, hsign]

theorem IsPath.endsBlank_append_eq_false (h : IsPath path) (cs : List Char) :
    endsBlank (cs ++ path) = false := by
  rw [endsBlank_append cs h.ne_nil, endsBlank, List.getLast?_eq_some_getLast h.ne_nil]
  exact (h.plain _ (List.getLast_mem h.ne_nil)).1

theorem IsArguments.endsPath (h : IsArguments args) : ∀ c ∈ args.head?, endsPath c = true := by
  intro c hc
  rcases h c hc with rfl | rfl | hblank
  · rfl
  · rfl
  · simp [Modifier.endsPath, hblank]

/-- Arguments that lose blanks at their end are arguments. -/
theorem IsArguments.trimEnd (h : IsArguments args) : IsArguments (trimEnd args) := by
  obtain ⟨rest, hrest⟩ := trimEnd_isPrefix args
  intro c hc
  apply h c
  rw [← hrest, List.head?_append, hc]
  rfl

/-- A path goes up to its arguments. A blank before it ends it at once. -/
theorem takeWhile_path (hpath : IsPath path) (hargs : IsArguments args)
    (hgap : ∀ c ∈ gap, isBlank c = true) :
    (gap ++ path ++ args).takeWhile (fun c => !endsPath c) = if gap = [] then path else [] := by
  cases gap with
  | nil =>
    have hargs : args.takeWhile (fun c => !endsPath c) = [] := by
      cases args with
      | nil => rfl
      | cons c args => simp [hargs.endsPath c rfl]
    rw [if_pos rfl, List.nil_append, List.takeWhile_append_of_pos, hargs, List.append_nil]
    intro c hc
    rw [hpath.endsPath_eq_false c hc]
    rfl
  | cons c gap =>
    have hblank : endsPath c = true := by simp [endsPath, hgap c List.mem_cons_self]
    simp [hblank]

/-! ## Marks -/

theorem unmarked_sign (cs : List Char) : unmarked ('@' :: cs) = cs := rfl

theorem unmarked_brackets (cs : List Char) : unmarked ('#' :: '[' :: (cs ++ [']'])) = cs := by
  have hclosed : [']'].isSuffixOf? (cs ++ [']']) = some cs := by
    simp [List.isSuffixOf?, List.isPrefixOf?]
  simp [unmarked, List.isPrefixOf?, hclosed]

/-- Without blanks around it and without its mark, a modifier is its path between the blanks before
it and its arguments, which may have lost blanks at their end. -/
theorem unmarked_trim (m : Mark) (hpath : IsPath path) (hargs : IsArguments args)
    (hlead : ∀ c ∈ lead, isBlank c = true) (htrail : ∀ c ∈ trail, isBlank c = true) :
    ∃ args', IsArguments args'
      ∧ unmarked (trim (lead ++ m.around (gap ++ path ++ args) ++ trail))
        = gap ++ path ++ args' := by
  cases m with
  | sign =>
    refine ⟨trimEnd args, hargs.trimEnd, ?_⟩
    have hends := hpath.endsBlank_append_eq_false ('@' :: gap)
    have hstart : startsBlank ('@' :: gap ++ path ++ args ++ trail) = false := by
      simp [startsBlank, isBlank]
    have htrim : trim (lead ++ Mark.sign.around (gap ++ path ++ args) ++ trail)
        = '@' :: gap ++ path ++ trimEnd args := by
      show trimEnd (trimStart (lead ++ ('@' :: gap ++ path ++ args) ++ trail)) = _
      rw [List.append_assoc lead, trimStart_append hlead, trimStart_of_not_startsBlank hstart,
        trimEnd_append htrail, trimEnd_append_of_not_endsBlank hends]
    rw [htrim]
    exact unmarked_sign _
  | brackets =>
    refine ⟨args, hargs, ?_⟩
    rw [Mark.around, trim_append hlead htrail, unmarked_brackets]
    · simp [startsBlank, isBlank]
    · show endsBlank (('#' :: '[' :: (gap ++ path ++ args)) ++ [']']) = false
      rw [endsBlank_append _ (List.cons_ne_nil _ _)]
      rfl

/-! ## Names -/

/-- **The name of a modifier is its path**, whatever its arguments are and whatever blanks stand
around it, and rules go by that path alone; but if blanks stand between the mark and the path, the
name is empty and no rule gives it a tag. -/
theorem surfaceName_marked (m : Mark) (hpath : IsPath path) (hargs : IsArguments args)
    (hgap : ∀ c ∈ gap, isBlank c = true) (hlead : ∀ c ∈ lead, isBlank c = true)
    (htrail : ∀ c ∈ trail, isBlank c = true) :
    surfaceName (lead ++ m.around (gap ++ path ++ args) ++ trail) = (if gap = [] then path else [])
      ∧ ∀ rules : Rules,
        rules.classify (String.ofList (lead ++ m.around (gap ++ path ++ args) ++ trail))
          = if gap = [] then (rules.find? fun r => r.pattern.search path).map Rule.tag
            else none := by
  obtain ⟨args', hargs', hbody⟩ := unmarked_trim m hpath hargs hlead htrail
  have hname : surfaceName (lead ++ m.around (gap ++ path ++ args) ++ trail)
      = if gap = [] then path else [] := by
    rw [surfaceName, hbody, takeWhile_path hpath hargs' hgap]
  refine ⟨hname, fun rules => ?_⟩
  simp only [Rules.classify, String.toList_ofList, hname]
  by_cases hnone : gap = []
  · simp [hnone, hpath.ne_nil]
  · simp [hnone]

/-- A decorator between blanks, and an attribute with brackets in its arguments. -/
theorem surfaceName_marked_cached :
    surfaceName " @functools.lru_cache(1)\n".toList = "functools.lru_cache".toList
      ∧ surfaceName "#[cfg(a[0]) ]".toList = "cfg".toList
      ∧ ∀ rules : Rules, rules.classify "#[cfg(a[0]) ]"
        = (rules.find? fun r => r.pattern.search "cfg".toList).map Rule.tag := by
  have hcached : IsPath "functools.lru_cache".toList := ⟨by simp, by simp [isBlank]⟩
  have hcfg : IsPath "cfg".toList := ⟨by simp, by simp [isBlank]⟩
  have hnumber : IsArguments "(1)".toList := by simp [IsArguments]
  have hindex : IsArguments "(a[0]) ".toList := by simp [IsArguments]
  have hnone : ∀ c ∈ ([] : List Char), isBlank c = true := List.forall_mem_nil _
  have hspace : ∀ c ∈ [' '], isBlank c = true := by simp [isBlank]
  have hfeed : ∀ c ∈ ['\n'], isBlank c = true := by simp [isBlank]
  obtain ⟨hname, -⟩ := surfaceName_marked .sign hcached hnumber hnone hspace hfeed
  obtain ⟨hname', hclassify⟩ := surfaceName_marked .brackets hcfg hindex hnone hnone hnone
  exact ⟨hname, hname', hclassify⟩

/-- **A blank after the mark hides the name of a modifier**: it is not the path, and no rule gives
the modifier a tag, not even one that gives a tag to every name. -/
theorem blank_after_mark_hides_property :
    IsPath "property".toList ∧ IsArguments [] ∧ (∀ c ∈ [' '], isBlank c = true)
      ∧ surfaceName (Mark.sign.around ([' '] ++ "property".toList ++ [])) = []
      ∧ surfaceName (Mark.brackets.around ([' '] ++ "property".toList ++ [])) = []
      ∧ Rules.classify [⟨.empty, .property⟩] "@property" = some .property
      ∧ ∀ rules : Rules, rules.classify "@ property" = none := by
  have hname : surfaceName "@ property".toList = [] := by decide
  refine ⟨⟨by simp, by simp [isBlank]⟩, by simp [IsArguments],
    by simp [isBlank], hname, by decide, by decide +kernel, fun rules => ?_⟩
  simp only [Rules.classify, hname]
  rfl

end Modifier

end SourceChunks

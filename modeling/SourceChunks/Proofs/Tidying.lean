import SourceChunks.Proofs.EveryChunk
import SourceChunks.Proofs.Blanks

/-!
# Documentation is tidy

Documentation that is not empty has no empty line at either end and no line that ends in a blank.
The two ways to make it have little in common, but both drop the empty lines at the ends after every
line has lost the blanks at its own end: a line is only cut at its front after that, and the
comments of a definition are tidy before they are joined.

* `Docstring.tidy_unlines`, `Docstring.tidy_unlines_texts` — lines and texts that are joined
* `Docstring.tidy_ofLiteral`, `Docstring.tidy_ofComments` — the two sources of documentation
* `Chunker.tidy_of_mem_described` — the chunks of a file
-/

namespace SourceChunks

open RoseTree Text

namespace Docstring

variable {ls ls' : List (List Char)} {cs ds : List Char}

/-- The first and the last line are not empty and no line ends in a blank. -/
structure TidyLines (ls : List (List Char)) : Prop where
  first : ls.head? ≠ some []
  last : ls.getLast? ≠ some []
  ends : ∀ l ∈ ls, endsBlank l = false

instance (ls : List (List Char)) : Decidable (TidyLines ls) :=
  decidable_of_iff (ls.head? ≠ some [] ∧ ls.getLast? ≠ some [] ∧ ∀ l ∈ ls, endsBlank l = false)
    ⟨fun ⟨hfirst, hlast, hends⟩ => ⟨hfirst, hlast, hends⟩,
      fun ⟨hfirst, hlast, hends⟩ => ⟨hfirst, hlast, hends⟩⟩

/-- The text is empty, or the lines between its line feeds are tidy. -/
def Tidy (cs : List Char) : Prop := cs = [] ∨ TidyLines (cs.splitOn '\n')

instance (cs : List Char) : Decidable (Tidy cs) := inferInstanceAs (Decidable (_ ∨ _))

/-! ## Joining -/

theorem TidyLines.append (h : TidyLines ls) (h' : TidyLines ls') : TidyLines (ls ++ ls') where
  first := by
    rw [List.head?_append]
    cases ls with
    | nil => simpa using h'.first
    | cons l ls => simpa using h.first
  last := by
    rw [List.getLast?_append]
    cases hlast : ls'.getLast? with
    | none => simpa using h.last
    | some l =>
      have hne := h'.last
      rw [hlast] at hne
      simpa using hne
  ends := List.forall_mem_append.mpr ⟨h.ends, h'.ends⟩

theorem tidy_unlines (h : TidyLines ls) (hfeed : ∀ l ∈ ls, '\n' ∉ l) : Tidy (unlines ls) := by
  by_cases hls : ls = []
  · exact Or.inl (by simp [hls, unlines])
  · refine Or.inr ?_
    rw [unlines, List.splitOn_intercalate '\n' hfeed hls]
    exact h

/-- Joined texts are tidy if each of them is, and none is empty. -/
theorem tidy_unlines_texts : ∀ {texts : List (List Char)}, (∀ t ∈ texts, t ≠ [] ∧ Tidy t) →
    Tidy (unlines texts)
  | [], _ => Or.inl rfl
  | [t], h => by simpa [unlines] using (h t List.mem_cons_self).2
  | t :: t' :: texts, h => by
    obtain ⟨⟨hne, ht⟩, hrest⟩ := List.forall_mem_cons.mp h
    have hjoined : unlines (t :: t' :: texts) = t ++ '\n' :: unlines (t' :: texts) := by
      simp [unlines, List.intercalate_cons_cons]
    have hne' : unlines (t' :: texts) ≠ [] := by
      have ht' := (hrest t' List.mem_cons_self).1
      cases texts <;> simp [unlines, List.intercalate_cons_cons, ht']
    have htidy := (tidy_unlines_texts hrest).resolve_left hne'
    refine Or.inr ?_
    rw [hjoined, List.splitOn_append_cons_self]
    exact (ht.resolve_left hne).append htidy

/-! ## Lines -/

theorem lineFeed_not_mem_of_mem_lines (cs : List Char) : ∀ l ∈ lines cs, '\n' ∉ l := by
  fun_induction lines cs with
  | case1 => simp
  | case2 cs ih => simpa using ih
  | case3 cs ih => simpa using ih
  | case4 c cs hc _ _ _ => simpa [eq_comm] using hc
  | case5 c cs hc _ l ls hlines ih =>
    rw [hlines] at ih
    obtain ⟨hl, hls⟩ := List.forall_mem_cons.mp ih
    refine List.forall_mem_cons.mpr ⟨?_, hls⟩
    intro hmem
    rcases List.mem_cons.mp hmem with h | h
    · exact hc h.symm
    · exact hl h

theorem dropEmptyEnds_subset (ls : List (List Char)) : dropEmptyEnds ls ⊆ ls := fun _ hl =>
  (List.dropWhile_suffix _).subset ((List.rdropWhile_prefix _ _).subset hl)

theorem tidyLines_dropEmptyEnds (h : ∀ l ∈ ls, endsBlank l = false) :
    TidyLines (dropEmptyEnds ls) where
  first := by
    intro hfirst
    have hne : dropEmptyEnds ls ≠ [] := by
      intro hnil
      simp [hnil] at hfirst
    -- what is dropped at the end is not the first line
    have hhead : (dropEmptyEnds ls).head hne = (ls.dropWhile List.isEmpty).head _ :=
      (List.rdropWhile_prefix _ _).head hne
    have hnot := List.head_dropWhile_not List.isEmpty ((List.rdropWhile_prefix _ _).ne_nil hne)
    rw [List.head?_eq_some_head hne, Option.some_inj] at hfirst
    rw [← hhead, hfirst] at hnot
    simp at hnot
  last := by
    intro hlast
    have hne : dropEmptyEnds ls ≠ [] := by
      intro hnil
      simp [hnil] at hlast
    have hnot := List.rdropWhile_last_not List.isEmpty _ hne
    rw [List.getLast?_eq_some_getLast hne, Option.some_inj] at hlast
    exact hnot (List.isEmpty_iff.mpr hlast)
  ends := fun l hl => h l (dropEmptyEnds_subset ls hl)

theorem dropBytes?_suffix {n : Nat} (h : dropBytes? n cs = some ds) : ds <:+ cs := by
  fun_induction dropBytes? n cs with
  | case1 => simp_all
  | case2 => simp at h
  | case3 n c cs _ ih => exact (ih h).trans (List.suffix_cons c cs)
  | case4 => simp at h

/-! ## String literals -/

/-- A line without its margin is the end of that line without the blanks at its end. -/
theorem dedentLine_suffix (margin : Nat) (line : List Char) :
    dedentLine margin line <:+ trimEnd line := by
  unfold dedentLine
  cases h : dropBytes? margin (trimEnd line) with
  | none => simpa [h] using trimStart_isSuffix _
  | some rest => simpa [h] using dropBytes?_suffix h

/-- The lines of a text when each is dedented, before empty ones are dropped. -/
def dedentedLines : List (List Char) → List (List Char)
  | [] => []
  | first :: rest => trim first :: rest.map (dedentLine (margin rest))

theorem dedent_eq (cs : List Char) :
    dedent cs = unlines (dropEmptyEnds (dedentedLines (lines cs))) := by
  unfold dedent
  cases lines cs with
  | nil => rfl
  | cons first rest => rfl

theorem plain_of_mem_dedentedLines (cs : List Char) :
    ∀ l ∈ dedentedLines (lines cs), endsBlank l = false ∧ '\n' ∉ l := by
  have hfeed := lineFeed_not_mem_of_mem_lines cs
  cases hlines : lines cs with
  | nil => exact List.forall_mem_nil _
  | cons first rest =>
    rw [hlines] at hfeed
    obtain ⟨hfirst, hrest⟩ := List.forall_mem_cons.mp hfeed
    simp only [dedentedLines, List.forall_mem_cons, List.forall_mem_map]
    refine ⟨⟨endsBlank_trimEnd _, fun hmem => hfirst (trim_subset _ hmem)⟩, fun line hline => ?_⟩
    have hsuffix := dedentLine_suffix (margin rest) line
    refine ⟨endsBlank_of_suffix hsuffix (endsBlank_trimEnd line), fun hmem => ?_⟩
    exact hrest line hline ((trimEnd_isPrefix line).subset (hsuffix.subset hmem))

theorem tidy_dedent (cs : List Char) : Tidy (dedent cs) := by
  have hplain := plain_of_mem_dedentedLines cs
  rw [dedent_eq]
  refine tidy_unlines (tidyLines_dropEmptyEnds fun l hl => (hplain l hl).1) fun l hl => ?_
  exact (hplain l (dropEmptyEnds_subset _ hl)).2

theorem tidy_ofLiteral (cs : List Char) : Tidy (ofLiteral cs) := by
  unfold ofLiteral
  dsimp only
  split
  · exact tidy_dedent _
  · exact tidy_dedent _

/-! ## Comments -/

theorem stripAny_suffix (openings : List (List Char)) (cs : List Char) :
    stripAny openings cs <:+ cs := by
  unfold stripAny
  cases h : openings.findSome? fun o => o.isPrefixOf? cs with
  | none => simp
  | some rest =>
    obtain ⟨o, -, ho⟩ := List.exists_of_findSome?_eq_some h
    rw [← List.append_eq_of_isPrefixOf?_eq_some ho]
    exact List.suffix_append _ _

theorem commentLine_subset (line : List Char) : commentLine line ⊆ line := by
  have hclosed : (['*', '/'].isSuffixOf? (trim line)).getD (trim line) ⊆ trim line := by
    cases h : ['*', '/'].isSuffixOf? (trim line) with
    | none => simp
    | some rest =>
      rw [← List.append_eq_of_isSuffixOf?_eq_some h]
      exact List.subset_append_left _ _
  intro c hc
  have hc := (stripAny_suffix _ _).subset ((trimEnd_isPrefix _).subset hc)
  exact trim_subset line (hclosed ((stripAny_suffix _ _).subset hc))

theorem tidy_ofComment (cs : List Char) : Tidy (ofComment cs) := by
  refine tidy_unlines (tidyLines_dropEmptyEnds ?_) fun l hl => ?_
  · simp only [List.forall_mem_map]
    exact fun line _ => endsBlank_trimEnd _
  · obtain ⟨line, hline, rfl⟩ := List.mem_map.mp (dropEmptyEnds_subset _ hl)
    exact fun hmem => lineFeed_not_mem_of_mem_lines cs line hline (commentLine_subset line hmem)

theorem tidy_ofComments (comments : List (List Char)) : Tidy (ofComments comments) := by
  refine tidy_unlines_texts fun text htext => ?_
  obtain ⟨hmem, hne⟩ := List.mem_filter.mp htext
  obtain ⟨comment, -, rfl⟩ := List.mem_map.mp hmem
  exact ⟨by simpa using hne, tidy_ofComment comment⟩

end Docstring

/-! ## Chunks -/

namespace Metadata

variable {rules : Rules} {t : SyntaxTree} {src : Source}

theorem tidy_docstring (carriers : List Node) (subject : Node) :
    Docstring.Tidy (docstring t src carriers subject).toList := by
  unfold docstring
  rw [String.toList_ofList]
  split
  · exact Docstring.tidy_ofLiteral _
  · exact Docstring.tidy_ofComments _

/-- Describing a chunk replaces its documentation by a tidy one, or leaves it. -/
theorem tidy_describe (inClass : Bool) {c : Chunk} (h : Docstring.Tidy c.docstring.toList) :
    Docstring.Tidy (describe rules t src inClass c).docstring.toList := by
  unfold describe
  split
  · exact h
  · split
    · exact h
    · exact tidy_docstring _ _

end Metadata

namespace ChunkTree

/-- Units are not documented yet. -/
theorem every_undocumented (cfg : Config) (language : Language) (src : Source) (t : SyntaxTree) :
    Every (fun c => c.docstring = "") (ofSyntaxTree cfg language src t).roots := by
  refine every_ofSyntaxTree ?_ rfl (fun c i hc => hc) fun _ => ?_
  · intro d
    unfold fallback
    split
    · exact every_nil
    · exact every_cons.mpr ⟨rfl, every_nil, every_nil⟩
  · exact SyntaxTree.every_topUnits (B := fun _ => True) cfg (fun _ _ _ _ _ _ _ => rfl)
      (fun _ _ => ⟨trivial, trivial⟩) trivial trivial

end ChunkTree

namespace Chunker

/-- **The documentation of every chunk is tidy**, whatever it was taken from. -/
theorem tidy_of_mem_described (k : Chunker) (language : Language) (src : Source) (t : SyntaxTree) :
    ∀ c ∈ (k.stages language src t).described.chunks, Docstring.Tidy c.docstring.toList := by
  have hunits : Every (fun c => Docstring.Tidy c.docstring.toList)
      (k.stages language src t).units.roots := by
    intro c hc
    have hnone : c.docstring = "" := ChunkTree.every_undocumented k.config language src t c hc
    exact Or.inl (by rw [hnone]; rfl)
  exact (Metadata.alike_describeForest_of (R := fun c c' => Docstring.Tidy c.docstring.toList →
    Docstring.Tidy c'.docstring.toList) (fun inClass c h => Metadata.tidy_describe inClass h)
      false _).every (fun _ _ h => h) hunits

end Chunker

/-- A function below three comments, one of them empty, and one with a literal of several lines. -/
def documentedSource : Source :=
  { text := "# A \n#\n# B\t\ndef f(): 0\ndef g():\n \"\"\"\n  C \n    D\n \"\"\"\n" }

def documentedFunctions : SyntaxTree :=
  (((SyntaxTree.ofLength .python 53).push 0
    { kind := .functionDef, range := ⟨12, 22⟩, comments := [⟨0, 4⟩, ⟨5, 6⟩, ⟨7, 11⟩] }).push 0
    { kind := .functionDef, range := ⟨23, 52⟩, docstring := some 3 }).push 2
    { kind := .statement, range := ⟨33, 52⟩, flags := { stringLiteral := true } }

/-- Blanks at the ends of lines and the lines without text are gone; what is indented stays. -/
theorem Chunker.tidy_of_mem_described_documentedFunctions :
    documentedFunctions.problem? documentedSource = none
      ∧ ((Chunker.mk {} Rule.builtin).stages .python documentedSource
          documentedFunctions).described.chunks.map (·.docstring) = ["A\nB", "C\n  D"]
      ∧ ∃ c ∈ ((Chunker.mk {} Rule.builtin).stages .python documentedSource
          documentedFunctions).described.chunks,
        c.docstring = "C\n  D" ∧ Docstring.Tidy c.docstring.toList := by
  have hdocs : ((Chunker.mk {} Rule.builtin).stages .python documentedSource
      documentedFunctions).described.chunks.map (·.docstring) = ["A\nB", "C\n  D"] := by
    decide +kernel
  have hmem : "C\n  D" ∈ ["A\nB", "C\n  D"] := by decide
  obtain ⟨c, hc, hdoc⟩ := List.mem_map.mp (hdocs ▸ hmem)
  exact ⟨by decide +kernel, hdocs, c, hc, hdoc, tidy_of_mem_described _ _ _ _ c hc⟩

end SourceChunks

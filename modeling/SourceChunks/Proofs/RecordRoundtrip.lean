import SourceChunks.Proofs.Blanks
import SourceChunks.Proofs.JsonRoundtrip
import SourceChunks.Record.Format

/-!
# Reading back printed records

A list of records is read back from its indented array and from its lines. A key that is left out
reads as nothing, and a tag and a verbatim decorator share one spelling, so a verbatim text must
not be the name of a tag. Compact text has no character below U+0020, so the only line feed of a
line is the one that ends it.

* `Json.controlFree_render` — compact text has no control characters
* `Text.lines_flatMap` — lines that are ended by line feeds are found again
* `Text.count_lineFeed` — the byte of a line feed is a line feed
* `Record.ofJson?_toJson` — a record is read back from its object
* `Record.parse_print` — lists of records are read back from both printed forms
-/

namespace SourceChunks

/-! ## Compact text -/

namespace Json

/-- No character is below U+0020. -/
def ControlFree (cs : List Char) : Prop := ∀ c ∈ cs, 0x20 ≤ c.toNat

@[simp]
theorem controlFree_nil : ControlFree [] := List.forall_mem_nil _

@[simp]
theorem controlFree_cons {c : Char} {cs : List Char} :
    ControlFree (c :: cs) ↔ 0x20 ≤ c.toNat ∧ ControlFree cs :=
  List.forall_mem_cons

@[simp]
theorem controlFree_append {cs ds : List Char} :
    ControlFree (cs ++ ds) ↔ ControlFree cs ∧ ControlFree ds :=
  List.forall_mem_append

theorem controlFree_escape (c : Char) : ControlFree (escape c) := by
  have hdigit : ∀ n < 16, 0x20 ≤ (lowerHexDigit n).toNat := by decide
  unfold escape
  -- the seven escapes by a letter
  iterate 7
    split
    · simp
  split
  · next hc =>
    have hhigh := hdigit (c.toNat / 16) (by omega)
    have hlow := hdigit (c.toNat % 16) (by omega)
    simp [hhigh, hlow]
  · next hc => simpa using hc

@[simp]
theorem controlFree_quote (cs : List Char) : ControlFree (quote cs) := by
  have hbody : ControlFree (cs.flatMap escape) := by
    intro c hc
    obtain ⟨d, -, hd⟩ := List.mem_flatMap.mp hc
    exact controlFree_escape d c hd
  simp [quote, hbody]

theorem controlFree_toString (n : Int) : ControlFree (toString n).toList := by
  have hdigits : ∀ m, ControlFree (Nat.toDigits 10 m) := by
    intro m c hc
    have hdigit := Nat.isDigit_of_mem_toDigits (by decide) (by decide) hc
    simp only [Char.isDigit, Bool.and_eq_true, decide_eq_true_eq] at hdigit
    exact Nat.le_trans (by decide) hdigit.1
  cases n with
  | ofNat m =>
    show ControlFree (toString m).toList
    rw [toList_toString_nat]
    exact hdigits m
  | negSucc m =>
    show ControlFree ("-" ++ toString (m + 1)).toList
    rw [String.toList_append, toList_toString_nat]
    exact controlFree_cons.mpr ⟨by decide, hdigits (m + 1)⟩

@[simp]
theorem Layout.lineBreak_compact (depth : Nat) : Layout.compact.lineBreak depth = [] := rfl

@[simp]
theorem Layout.gap_compact : Layout.compact.gap = [] := rfl

theorem controlFree_renderItems {depth : Nat} {items : List Json}
    (h : ∀ v ∈ items, ControlFree (render .compact depth v)) :
    ControlFree (renderItems .compact depth items) := by
  induction items with
  | nil => exact controlFree_nil
  | cons item items ih =>
    obtain ⟨hitem, hitems⟩ := List.forall_mem_cons.mp h
    simp [renderItems, hitem, ih hitems]

theorem controlFree_renderMembers {depth : Nat} {members : List (String × Json)}
    (h : ∀ m ∈ members, ControlFree (render .compact depth m.2)) :
    ControlFree (renderMembers .compact depth members) := by
  induction members with
  | nil => exact controlFree_nil
  | cons m members ih =>
    obtain ⟨hvalue, hmembers⟩ := List.forall_mem_cons.mp h
    simp [renderMembers, hvalue, ih hmembers]

/-- Compact text has no control characters. -/
theorem controlFree_render {v : Json} (h : Exact v) (depth : Nat) :
    ControlFree (render .compact depth v) := by
  induction h generalizing depth with
  | null => simp [render]
  | bool b => cases b <;> simp [render]
  | int n => exact controlFree_toString n
  | str s => exact controlFree_quote s.toList
  | @arr items each ih =>
    cases items with
    | nil => simp [render]
    | cons item items =>
      obtain ⟨hitem, hitems⟩ := List.forall_mem_cons.mp ih
      have hrest := controlFree_renderItems fun v hv => hitems v hv (depth + 1)
      simp [render, hitem (depth + 1), hrest]
  | @obj members each ih =>
    cases members with
    | nil => simp [render]
    | cons m members =>
      obtain ⟨hvalue, hmembers⟩ := List.forall_mem_cons.mp ih
      have hrest := controlFree_renderMembers fun m hm => hmembers m hm (depth + 1)
      simp [render, hvalue (depth + 1), hrest]

end Json

/-! ## Lines and their ends -/

namespace Text

/-- Lines that are ended by line feeds are found again. -/
theorem lines_flatMap {α : Type} (f : α → List Char) {xs : List α}
    (h : ∀ x ∈ xs, ∀ c ∈ f x, c ≠ '\n' ∧ c ≠ '\r') :
    lines (xs.flatMap fun x => f x ++ ['\n']) = xs.map f := by
  induction xs with
  | nil => rfl
  | cons x xs ih =>
    obtain ⟨hx, hxs⟩ := List.forall_mem_cons.mp h
    have hfeed : '\n' ∉ f x := fun hmem => (hx _ hmem).1 rfl
    have hreturn : (f x).getLast? ≠ some '\r' := fun hlast =>
      (hx _ (List.mem_of_getLast? hlast)).2 rfl
    rw [List.flatMap_cons, List.append_assoc, List.singleton_append,
      lines_append_lineFeed hfeed hreturn, ih hxs, List.map_cons]

theorem count_flatMap_lineFeed {α : Type} (f : α → List Char) {xs : List α}
    (h : ∀ x ∈ xs, ∀ c ∈ f x, c ≠ '\n') :
    (xs.flatMap fun x => f x ++ ['\n']).count '\n' = xs.length := by
  induction xs with
  | nil => rfl
  | cons x xs ih =>
    obtain ⟨hx, hxs⟩ := List.forall_mem_cons.mp h
    have hnone : (f x).count '\n' = 0 := List.count_eq_zero.mpr fun hmem => hx _ hmem rfl
    rw [List.flatMap_cons, List.count_append, List.count_append, hnone, ih hxs,
      List.count_singleton_self, List.length_cons]
    omega

theorem ofNat_beq_lineFeed {n : Nat} (h : n < 0x100) : (UInt8.ofNat n == 10) = (n == 10) := by
  have hiff : UInt8.ofNat n = 10 ↔ n = 10 := by
    rw [← UInt8.toNat_inj, UInt8.toNat_ofNat_of_lt' h]
    rfl
  rw [Bool.eq_iff_iff, beq_iff_eq, beq_iff_eq, hiff]

/-- A character of several bytes has none that is a line feed. -/
theorem count_utf8EncodeChar (c : Char) :
    (String.utf8EncodeChar c).count 10 = if c = '\n' then 1 else 0 := by
  have hval : c = '\n' ↔ c.val.toNat = 10 := by
    rw [Char.ext_iff, ← UInt32.toNat_inj]
    rfl
  have hbyte : ∀ k b, b + k ≤ 0x100 ∧ 10 < b ∧ 0 < k →
      ∀ n, (UInt8.ofNat (n % k + b) == 10) = false := by
    intro k b ⟨hk, hb, hpos⟩ n
    have hlt := Nat.mod_lt n hpos
    rw [ofNat_beq_lineFeed (by omega), beq_eq_false_iff_ne]
    omega
  unfold String.utf8EncodeChar
  simp only [hval]
  split
  · next hone =>
    simp only [List.count_cons, List.count_nil, beq_iff_eq, Nat.zero_add,
      ofNat_beq_lineFeed (show c.val.toNat < 0x100 by omega)]
  · next hmany =>
    rw [if_neg (show ¬ c.val.toNat = 10 by omega)]
    -- every byte of a longer code is a remainder above one of four marks
    split_ifs <;> simp only [List.count_cons, List.count_nil, Bool.false_eq_true, if_false,
      hbyte 0x20 0xc0 (by decide), hbyte 0x40 0x80 (by decide), hbyte 0x10 0xe0 (by decide),
      hbyte 0x08 0xf0 (by decide)]

theorem count_flatMap_utf8EncodeChar (cs : List Char) :
    (cs.flatMap String.utf8EncodeChar).count 10 = cs.count '\n' := by
  induction cs with
  | nil => rfl
  | cons c cs ih =>
    rw [List.flatMap_cons, List.count_append, count_utf8EncodeChar, ih, List.count_cons,
      Nat.add_comm]
    simp only [beq_iff_eq]

/-- The bytes of a text, character by character. -/
theorem toList_toUTF8 (s : String) :
    s.toUTF8.data.toList = s.toList.flatMap String.utf8EncodeChar := by
  have hbytes : (String.ofList s.toList).toUTF8.data.toList
      = s.toList.flatMap String.utf8EncodeChar := by
    show (List.utf8Encode s.toList).data.toList = _
    rw [List.utf8Encode, List.data_toByteArray]
  rwa [String.ofList_toList] at hbytes

/-- The byte of a line feed is a line feed. -/
theorem count_lineFeed (cs : List Char) :
    (String.ofList cs).toUTF8.data.toList.count 10 = cs.count '\n' := by
  rw [toList_toUTF8, String.toList_ofList, count_flatMap_utf8EncodeChar]

end Text

/-! ## Members of an object -/

namespace Json

variable {α : Type} {ms : List (String × Json)} {key : String}

/-- The members of an object. -/
def members : Json → List (String × Json)
  | obj ms => ms
  | _ => []

@[simp]
theorem members_obj (ms : List (String × Json)) : (obj ms).members = ms := rfl

@[simp]
theorem get?_nil (key : String) : get? [] key = none := rfl

@[simp]
theorem get?_append (ms ns : List (String × Json)) (key : String) :
    get? (ms ++ ns) key = (get? ns key).or (get? ms key) := by
  rw [get?, List.reverse_append, List.lookup_append]
  rfl

@[simp]
theorem get?_cons (k : String) (v : Json) (ms : List (String × Json)) (key : String) :
    get? ((k, v) :: ms) key = (get? ms key).or (if key = k then some v else none) := by
  rw [← List.singleton_append, get?_append]
  congr 1
  by_cases h : key = k
  · simp [get?, h]
  · simp [get?, List.lookup_cons, h, beq_false_of_ne]

@[simp]
theorem get?_optionalList (k : String) (items : List Json) (key : String) :
    get? (Record.optionalList k items) key =
      if key = k then (if items.isEmpty then none else some (.arr items)) else none := by
  unfold Record.optionalList
  split <;> simp

@[simp]
theorem get?_optionalText (k : String) (s : Option String) (key : String) :
    get? (Record.optionalText k s) key = if key = k then s.map .str else none := by
  cases s <;> simp [Record.optionalText]

/-! ## Typed readings of what was written -/

theorem nat?_ofNat {n : Nat} (h : n < UInt64.size) : nat? (ofNat n) = some n := by
  have hn : (n : Int) < UInt64.size := Int.ofNat_lt.mpr h
  simp only [nat?, ofNat, Int.natCast_nonneg, hn, decide_true, Bool.and_true, if_true,
    Int.toNat_natCast]

theorem str?_str (s : String) : str? (str s) = some s := rfl

theorem bool?_bool (b : Bool) : bool? (bool b) = some b := rfl

theorem orNull?_ofOption (s : Option String) : orNull? str? (ofOption str s) = some s := by
  cases s <;> rfl

/-- A list is read back if its items are. -/
theorem mapM_map_eq_some {β : Type} {write : α → β} {read : β → Option α} {xs : List α}
    (h : ∀ x ∈ xs, read (write x) = some x) : (xs.map write).mapM read = some xs := by
  induction xs with
  | nil => rfl
  | cons x xs ih =>
    obtain ⟨hx, hxs⟩ := List.forall_mem_cons.mp h
    simp [hx, ih hxs]

theorem list?_map {write : α → Json} {read : Json → Option α} {xs : List α}
    (h : ∀ x ∈ xs, read (write x) = some x) : list? read (arr (xs.map write)) = some xs :=
  mapM_map_eq_some h

theorem field?_of_get? {v : Json} {read : Json → Option α} {a : α} (hget : get? ms key = some v)
    (hread : read v = some a) : field? ms key read = some a := by
  rw [field?, hget, Option.bind_some, hread]

/-- A list that is left out when it is empty is read back. -/
theorem fieldD?_list {write : α → Json} {read : Json → Option α} {xs : List α}
    (hget : get? ms key = get? (Record.optionalList key (xs.map write)) key)
    (h : ∀ x ∈ xs, read (write x) = some x) : fieldD? ms key [] (list? read) = some xs := by
  rw [fieldD?, hget, get?_optionalList, if_pos rfl]
  cases xs with
  | nil => rfl
  | cons x xs => exact list?_map h

/-- A text that is left out when there is none is read back. -/
theorem fieldD?_text {s : Option String}
    (hget : get? ms key = get? (Record.optionalText key s) key) :
    fieldD? ms key none (orNull? str?) = some s := by
  rw [fieldD?, hget, get?_optionalText, if_pos rfl]
  cases s <;> rfl

/-- A reader goes on with what it has read. -/
theorem bind_of_eq_some {β : Type} {o : Option α} {a : α} (h : o = some a) (f : α → Option β) :
    (o >>= f) = f a := by
  rw [h]
  rfl

end Json

/-! ## Spans and diagnostics -/

/-- The numbers of a span fit into 64 bits. -/
structure Span.Writable (s : Span) : Prop where
  start : s.start < UInt64.size
  stop : s.stop < UInt64.size
  startLine : s.startLine < UInt64.size
  endLine : s.endLine < UInt64.size

theorem Span.ofJson?_toJson {s : Span} (h : s.Writable) : ofJson? s.toJson = some s := by
  have hms : ∀ names, s.toJson.members? names = some s.toJson.members := fun _ => rfl
  have hnat : ∀ key n, Json.get? s.toJson.members key = some (.ofNat n) → n < UInt64.size →
      Json.field? s.toJson.members key Json.nat? = some n :=
    fun _ _ hget hn => Json.field?_of_get? hget (Json.nat?_ofNat hn)
  have hstart := hnat "start_byte" s.start (by simp [toJson]) h.start
  have hstop := hnat "end_byte" s.stop (by simp [toJson]) h.stop
  have hstartLine := hnat "start_line" s.startLine (by simp [toJson]) h.startLine
  have hendLine := hnat "end_line" s.endLine (by simp [toJson]) h.endLine
  -- one reading at a time: a reader that is unfolded computes with `UInt64.size` in unary
  rw [ofJson?, Json.bind_of_eq_some (hms _), Json.bind_of_eq_some hstart,
    Json.bind_of_eq_some hstop, Json.bind_of_eq_some hstartLine, Json.bind_of_eq_some hendLine]
  rfl

theorem DiagnosticCode.case?_name (c : DiagnosticCode) :
    Json.case? (all.map fun c => (c.name, c)) (.str c.name) = some c := by
  cases c <;> rfl

theorem Diagnostic.ofJson?_toJson (d : Diagnostic) : ofJson? d.toJson = some d := by
  simp [ofJson?, toJson, Json.members?, Json.field?, DiagnosticCode.case?_name, Json.str?]

/-! ## Records -/

theorem ChunkKind.case?_name (k : ChunkKind) :
    Json.case? (all.map fun k => (k.name, k)) (.str k.name) = some k := by
  cases k <;> rfl

namespace Record

/-- The numbers fit into 64 bits, and no verbatim decorator is the name of a tag. -/
structure Writable (r : Record) : Prop where
  span : r.span.Writable
  depth : r.depth < UInt64.size
  decorators : ∀ s, .verbatim s ∈ r.decorators → ∀ t : Tag, s ≠ t.name

theorem Writable.map_ofText {r : Record} (h : r.Writable) :
    (r.decorators.map Decorator.text).map Decorator.ofText = r.decorators := by
  have heach : ∀ d ∈ r.decorators, Decorator.ofText d.text = d := by
    refine fun d hd => Decorator.ofText_text ?_
    rintro s rfl
    refine List.find?_eq_none.mpr fun t _ => ?_
    simpa using (h.decorators s hd t).symm
  calc (r.decorators.map Decorator.text).map Decorator.ofText
      = r.decorators.map fun d => Decorator.ofText d.text := List.map_map
    _ = r.decorators.map fun d => d := List.map_congr_left heach
    _ = r.decorators := List.map_id' _

/-- A record is read back from its object. -/
theorem ofJson?_toJson {r : Record} (h : r.Writable) : ofJson? r.toJson = some r := by
  have hms : r.toJson.members? keys = some r.toJson.members := rfl
  have hfield : ∀ {α : Type} (key : String) (v : Json) {read : Json → Option α} {a : α},
      Json.get? r.toJson.members key = some v → read v = some a →
      Json.field? r.toJson.members key read = some a :=
    fun _ _ _ _ => Json.field?_of_get?
  have hid := hfield "id" (.str r.id) (by simp [toJson]) (Json.str?_str _)
  have hpath := hfield "file_path" (.str r.filePath) (by simp [toJson]) (Json.str?_str _)
  have hlanguage := hfield "language" (.str r.language) (by simp [toJson]) (Json.str?_str _)
  have hkind := hfield "kind" (.str r.kind.name) (by simp [toJson]) r.kind.case?_name
  have hname := hfield "name" (.str r.name) (by simp [toJson]) (Json.str?_str _)
  have hsignature := hfield "signature" (.str r.signature) (by simp [toJson]) (Json.str?_str _)
  have hdocstring := hfield "docstring" (.str r.docstring) (by simp [toJson]) (Json.str?_str _)
  have hdecorators := hfield "decorators" (.strs (r.decorators.map Decorator.text))
    (by simp [toJson]) (Json.list?_map fun s _ => Json.str?_str s)
  have hspan := hfield "span" r.span.toJson (by simp [toJson]) (Span.ofJson?_toJson h.span)
  have hdepth := hfield "depth" (.ofNat r.depth) (by simp [toJson]) (Json.nat?_ofNat h.depth)
  have hsynthetic := hfield "synthetic" (.bool r.synthetic) (by simp [toJson]) (Json.bool?_bool _)
  -- the parent is written as `null` where the other optional members are left out
  have hparent : Json.fieldD? r.toJson.members "parent_id" none (Json.orNull? Json.str?)
      = some r.parentId := by
    simp [Json.fieldD?, toJson, Json.orNull?_ofOption]
  have hbases : Json.fieldD? r.toJson.members "extends" [] (Json.list? Json.str?)
      = some r.bases :=
    Json.fieldD?_list (by simp [toJson]) fun s _ => Json.str?_str s
  have hpackage : Json.fieldD? r.toJson.members "package" none (Json.orNull? Json.str?)
      = some r.packageName :=
    Json.fieldD?_text (by simp [toJson])
  have himports : Json.fieldD? r.toJson.members "imports" [] (Json.list? Json.str?)
      = some r.imports :=
    Json.fieldD?_list (by simp [toJson]) fun s _ => Json.str?_str s
  have hsplit : Json.fieldD? r.toJson.members "split_from" none (Json.orNull? Json.str?)
      = some r.splitFrom :=
    Json.fieldD?_text (by simp [toJson])
  have hdiagnostics : Json.fieldD? r.toJson.members "diagnostics" []
      (Json.list? Diagnostic.ofJson?) = some r.diagnostics :=
    Json.fieldD?_list (by simp [toJson]) fun d _ => d.ofJson?_toJson
  rw [ofJson?, Json.bind_of_eq_some hms, Json.bind_of_eq_some hid, Json.bind_of_eq_some hparent,
    Json.bind_of_eq_some hpath, Json.bind_of_eq_some hlanguage, Json.bind_of_eq_some hkind,
    Json.bind_of_eq_some hname, Json.bind_of_eq_some hsignature, Json.bind_of_eq_some hdocstring,
    Json.bind_of_eq_some hdecorators, Json.bind_of_eq_some hbases, Json.bind_of_eq_some hpackage,
    Json.bind_of_eq_some himports, Json.bind_of_eq_some hspan, Json.bind_of_eq_some hdepth,
    Json.bind_of_eq_some hsynthetic, Json.bind_of_eq_some hsplit,
    Json.bind_of_eq_some hdiagnostics, h.map_ofText]
  rfl

theorem exact_optionalList (key : String) {items : List Json} (h : ∀ v ∈ items, v.Exact) :
    ∀ m ∈ optionalList key items, m.2.Exact := by
  unfold optionalList
  split
  · exact List.forall_mem_nil _
  · exact List.forall_mem_singleton.mpr (.arr h)

theorem exact_optionalText (key : String) (s : Option String) :
    ∀ m ∈ optionalText key s, m.2.Exact := by
  cases s with
  | none => exact List.forall_mem_nil _
  | some s => exact List.forall_mem_singleton.mpr (.str s)

theorem exact_strs (ss : List String) : ∀ v ∈ ss.map Json.str, v.Exact :=
  List.forall_mem_map.mpr fun s _ => .str s

/-- Records are written with integers only. -/
theorem exact_toJson (r : Record) : r.toJson.Exact := by
  have hparent : (Json.ofOption Json.str r.parentId).Exact := by
    cases r.parentId with
    | none => exact .null
    | some s => exact .str s
  have hspan : r.span.toJson.Exact := .obj (by simp [Json.ofNat, Json.Exact.int])
  have hdiagnostics : ∀ v ∈ r.diagnostics.map Diagnostic.toJson, v.Exact :=
    List.forall_mem_map.mpr fun d _ => .obj (by simp [Json.Exact.str])
  have hdecorators : (Json.strs (r.decorators.map Decorator.text)).Exact :=
    .arr (exact_strs _)
  have hbases := exact_optionalList "extends" (exact_strs r.bases)
  have hpackage := exact_optionalText "package" r.packageName
  have himports := exact_optionalList "imports" (exact_strs r.imports)
  have hsplit := exact_optionalText "split_from" r.splitFrom
  have hdiagnostics := exact_optionalList "diagnostics" hdiagnostics
  refine .obj ?_
  simp only [List.forall_mem_append]
  refine ⟨⟨⟨⟨⟨⟨?_, hbases⟩, hpackage⟩, himports⟩, ?_⟩, hsplit⟩, hdiagnostics⟩
  · simp [Json.Exact.str, hparent, hdecorators]
  · simp [Json.ofNat, Json.Exact.int, Json.Exact.bool, hspan]

/-! ## Lists of records -/

/-- The only control character of a printed line is its end. -/
theorem ne_lineEnd_of_mem_line (r : Record) :
    ∀ c ∈ Json.render .compact 0 r.toJson, c ≠ '\n' ∧ c ≠ '\r' := by
  intro c hc
  have hle := Json.controlFree_render r.exact_toJson 0 c hc
  constructor <;> rintro rfl <;> exact absurd hle (by decide)

theorem lines_printJsonLines (rs : List Record) :
    Text.lines (printJsonLines rs).toList = rs.map fun r => Json.render .compact 0 r.toJson := by
  rw [printJsonLines, String.toList_ofList]
  exact Text.lines_flatMap _ fun r _ => r.ne_lineEnd_of_mem_line

/-- **Lists of records are read back from both printed forms**, and the lines have one line feed
for each record. -/
theorem parse_print {rs : List Record} (h : ∀ r ∈ rs, r.Writable) :
    parseJson? (printJson rs) = some rs ∧
      (printJsonLines rs).toUTF8.data.toList.count 10 = rs.length ∧
      parseJsonLines? (printJsonLines rs) = some rs := by
  refine ⟨?_, ?_, ?_⟩
  · have hexact : (Json.arr (rs.map toJson)).Exact :=
      .arr (List.forall_mem_map.mpr fun r _ => r.exact_toJson)
    rw [parseJson?, printJson, Json.pretty, Json.parse?_render Json.Layout.blank_indented hexact,
      Option.bind_some]
    exact Json.list?_map fun r hr => ofJson?_toJson (h r hr)
  · rw [printJsonLines, Text.count_lineFeed]
    exact Text.count_flatMap_lineFeed _ fun r _ c hc => (r.ne_lineEnd_of_mem_line c hc).1
  · rw [parseJsonLines?, lines_printJsonLines]
    refine Json.mapM_map_eq_some fun r hr => ?_
    rw [Json.parse?_render Json.Layout.blank_compact r.exact_toJson, Option.bind_some,
      ofJson?_toJson (h r hr)]

/-- A record with every optional member, with texts that need escapes, and with the largest
numbers. -/
def escaped : Record where
  id := "a\"b\\c"
  parentId := some "\x00\x1f\x7f"
  filePath := "src\\main\t.py"
  language := "python"
  kind := .asyncFunction
  name := "\x08\x0c\r\n"
  signature := "def f(x):\n    \"\"\"😀\"\"\""
  docstring := "é\u2028𝒳"
  decorators := [.tag .static, .verbatim "@app.route(\"/\")", .verbatim "Static"]
  bases := ["A", ""]
  packageName := some ""
  imports := ["os\npath"]
  span := { start := 0, stop := UInt64.size - 1, startLine := 1, endLine := UInt64.size - 1 }
  depth := UInt64.size - 1
  synthetic := true
  splitFrom := some "\r\n"
  diagnostics := [.malformedTree "span 3..2\n"]

/-- A record with none of them. -/
def plain : Record where
  id := ""
  parentId := none
  filePath := ""
  language := ""
  kind := .other
  name := ""
  signature := ""
  docstring := ""
  decorators := []
  span := { start := 0, stop := 0, startLine := 0, endLine := 0 }
  depth := 0
  synthetic := false

theorem writable_escaped : escaped.Writable where
  span := ⟨by decide, by decide, by decide, by decide⟩
  depth := by decide
  decorators := by
    intro s hs t
    simp only [escaped, List.mem_cons, reduceCtorEq, Decorator.verbatim.injEq, false_or,
      List.not_mem_nil, or_false] at hs
    rcases hs with rfl | rfl <;> cases t <;> decide

theorem writable_plain : plain.Writable where
  span := ⟨by decide, by decide, by decide, by decide⟩
  depth := by decide
  decorators := fun _ hs => absurd hs List.not_mem_nil

theorem parse_print_escaped :
    (∀ r ∈ [escaped, plain], r.Writable) ∧
      parseJson? (printJson [escaped, plain]) = some [escaped, plain] ∧
      (printJsonLines [escaped, plain]).toUTF8.data.toList.count 10 = 2 ∧
      parseJsonLines? (printJsonLines [escaped, plain]) = some [escaped, plain] := by
  have hwritable : ∀ r ∈ [escaped, plain], r.Writable :=
    List.forall_mem_cons.mpr ⟨writable_escaped, List.forall_mem_singleton.mpr writable_plain⟩
  exact ⟨hwritable, parse_print hwritable⟩

end Record

end SourceChunks

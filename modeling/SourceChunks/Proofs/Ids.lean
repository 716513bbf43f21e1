import SourceChunks.Proofs.ChunkNodes
import SourceChunks.Proofs.Listing

/-!
# Ids tell records apart

The id of a record is a digest of its path and its place, the ends of its bytes and its depth. No
two records of a file have the same place, and what is digested tells the path and the place, so
two ids agree by accident of the digest or not at all.

* `ChunkId.message_inj` — what is digested tells the path and the place
* `ChunkTree.Sound.pairwise_place` — no two records of a file have the same place
* `Chunker.depth_le_size` — chunks nest no deeper than the table has nodes
* `Chunker.message_inj_of_records` — what is digested tells records apart, also across files
-/

namespace SourceChunks

/-! ## What is digested -/

namespace Digest

/-- The number that bytes stand for, the most significant first. -/
def number : List UInt8 → Nat
  | [] => 0
  | b :: bs => b.toNat * 256 ^ bs.length + number bs

theorem number_bigEndian (count n : Nat) : number (bigEndian count n) = n % 256 ^ count := by
  induction count with
  | zero => rw [bigEndian, number, Nat.pow_zero, Nat.mod_one]
  | succ count ih =>
    have hshift : n >>> (8 * count) = n / 256 ^ count := by
      rw [Nat.shiftRight_eq_div_pow, Nat.pow_mul]
    have hbyte : (UInt8.ofNat (n >>> (8 * count))).toNat = n / 256 ^ count % 256 := by
      rw [hshift, UInt8.toNat_ofNat']
    rw [bigEndian, number, ih, length_bigEndian, hbyte, Nat.pow_succ, Nat.mod_mul, Nat.mul_comm,
      Nat.add_comm]

/-- Eight bytes hold a number of 64 bits. -/
theorem number_bigEndian_of_lt {n : Nat} (h : n < 2 ^ 64) : number (bigEndian 8 n) = n := by
  rw [number_bigEndian]
  exact Nat.mod_eq_of_lt h

theorem bigEndian_inj {a b : Nat} (ha : a < 2 ^ 64) (hb : b < 2 ^ 64)
    (h : bigEndian 8 a = bigEndian 8 b) : a = b := by
  rw [← number_bigEndian_of_lt ha, h, number_bigEndian_of_lt hb]

theorem hexDigit_inj : ∀ m < 16, ∀ n < 16, hexDigit m = hexDigit n → m = n := by decide

/-- The digits of a text tell its bytes. -/
theorem hex_inj {as bs : List UInt8} (h : hex as = hex bs) : as = bs := by
  have hdigits := String.ofList_injective h
  clear h
  induction as generalizing bs with
  | nil =>
    cases bs with
    | nil => rfl
    | cons b bs => simp at hdigits
  | cons a as ih =>
    cases bs with
    | nil => simp at hdigits
    | cons b bs =>
      rw [List.flatMap_cons, List.flatMap_cons] at hdigits
      obtain ⟨hpair, hrest⟩ := List.append_inj hdigits rfl
      obtain ⟨hhigh, hsecond⟩ := List.cons.inj hpair
      obtain ⟨hlow, -⟩ := List.cons.inj hsecond
      have ha := a.toNat_lt
      have hb := b.toNat_lt
      have hdiv := hexDigit_inj _ (by omega) _ (by omega) hhigh
      have hmod := hexDigit_inj _ (by omega) _ (by omega) hlow
      have hbyte : a = b := UInt8.toNat_inj.mp (by omega)
      rw [hbyte, ih hrest]

end Digest

namespace ChunkId

/-- The numbers of a place fit in 64 bits. -/
def Fits (range : ByteRange) (depth : Nat) : Prop :=
  range.start < 2 ^ 64 ∧ range.stop < 2 ^ 64 ∧ depth < 2 ^ 64

theorem path_inj {path path' : String}
    (h : path.toUTF8.data.toList = path'.toUTF8.data.toList) : path = path' := by
  apply String.toByteArray_inj.mp
  exact ByteArray.ext (Array.toList_inj.mp h)

/-- **What is digested tells the path and the place.** The numbers take up the last 24 bytes, so a
zero byte inside a path does no harm. -/
theorem message_inj {path path' : String} {range range' : ByteRange} {depth depth' : Nat}
    (hfits : Fits range depth) (hfits' : Fits range' depth')
    (h : message path range depth = message path' range' depth') :
    path = path' ∧ range = range' ∧ depth = depth' := by
  obtain ⟨hstart, hstop, hdepth⟩ := hfits
  obtain ⟨hstart', hstop', hdepth'⟩ := hfits'
  obtain ⟨hpath, htail⟩ := List.append_inj' h (by simp)
  obtain ⟨-, hnumbers⟩ := List.cons.inj htail
  obtain ⟨hends, hlast⟩ := List.append_inj' hnumbers (by simp)
  obtain ⟨hfirst, hsecond⟩ := List.append_inj' hends (by simp)
  have hrange : range = range' := congrArg₂ ByteRange.mk
    (Digest.bigEndian_inj hstart hstart' hfirst) (Digest.bigEndian_inj hstop hstop' hsecond)
  exact ⟨path_inj hpath, hrange, Digest.bigEndian_inj hdepth hdepth' hlast⟩

/-- What is digested, part by part: the path, a zero byte, and three numbers of eight bytes. -/
theorem exists_parts (path : String) {range : ByteRange} {depth : Nat}
    (hfits : Fits range depth) : ∃ start stop level : List UInt8,
      message path range depth = path.toUTF8.data.toList ++ 0 :: (start ++ stop ++ level)
        ∧ (start.length = 8 ∧ Digest.number start = range.start)
        ∧ (stop.length = 8 ∧ Digest.number stop = range.stop)
        ∧ (level.length = 8 ∧ Digest.number level = depth) :=
  ⟨_, _, _, rfl, ⟨Digest.length_bigEndian 8 _, Digest.number_bigEndian_of_lt hfits.1⟩,
    ⟨Digest.length_bigEndian 8 _, Digest.number_bigEndian_of_lt hfits.2.1⟩,
    ⟨Digest.length_bigEndian 8 _, Digest.number_bigEndian_of_lt hfits.2.2⟩⟩

end ChunkId

/-- Two ids are the same just if the first 16 bytes of the two digests are. -/
theorem chunkId_eq_iff {path path' : String} {range range' : ByteRange} {depth depth' : Nat} :
    chunkId path range depth = chunkId path' range' depth'
      ↔ (Digest.sha256 (ChunkId.message path range depth)).take 16
        = (Digest.sha256 (ChunkId.message path' range' depth')).take 16 :=
  ⟨fun h => Digest.hex_inj h, fun h => congrArg Digest.hex h⟩

/-! ## Places -/

namespace Record

/-- Where a record stands: the ends of its bytes and its depth. -/
def place (r : Record) : Nat × Nat × Nat := (r.span.start, r.span.stop, r.depth)

/-- What is digested for the id of a record. -/
def message (r : Record) : List UInt8 :=
  ChunkId.message r.filePath r.span.toByteRange r.depth

end Record

namespace ChunkTree

variable {t : ChunkTree} {size : Nat}

/-- What a record takes from its chunk's file and place. -/
theorem of_mem_records {path : String} {r : Record} (hr : r ∈ t.records path) :
    r.filePath = path ∧ r.id = chunkId r.filePath r.span.toByteRange r.depth
      ∧ ∃ c ∈ t.chunks, r.span = c.span ∧ r.depth = c.depth := by
  rw [records_eq_map_links] at hr
  obtain ⟨l, hl, rfl⟩ := List.mem_map.mp hr
  exact ⟨rfl, rfl, l.2.label, label_mem_chunks hl, rfl, rfl⟩

/-- **No two records of a file have the same place.** -/
theorem Sound.pairwise_place (h : t.Sound size) (path : String) :
    (t.records path).Pairwise fun a b => a.place ≠ b.place := by
  rw [h.records_eq_map path, List.pairwise_map]
  refine List.Pairwise.imp_of_mem ?_ h.nodup_chunks
  intro a b ha hb hne hplace
  obtain ⟨hstart, hrest⟩ := Prod.mk.inj hplace
  obtain ⟨hstop, hdepth⟩ := Prod.mk.inj hrest
  -- both cover at least one byte, and at one depth that is enough
  have hnonempty := (h.stacked.chunk_bounds ha).2.1
  have hstart : a.span.start = b.span.start := hstart
  have hstop : a.span.stop = b.span.stop := hstop
  exact hne (h.stacked.eq_of_overlap ha hb hdepth (by omega) (by omega))

end ChunkTree

/-! ## Depths -/

namespace Chunker

variable (k : Chunker) (language : Language) (src : Source) (t : SyntaxTree)

theorem every_depth_tile (hcons : t.inconsistency? src = none) :
    Every (fun c => c.depth ≤ t.size)
      (t.tile k.config src.lines src.size 0 (t.topUnits k.config)) := by
  refine every_of_roots fun r hr => ?_
  obtain ⟨u, hu, a, b, rfl⟩ := SyntaxTree.exists_unit_of_mem_tile hr
  obtain ⟨hbranch, -, -⟩ := SyntaxTree.mem_topUnits hcons hu
  refine ⟨Nat.zero_le _, SyntaxTree.every_unitChildren ?_ hbranch
    (SyntaxTree.reachable_of_mem_topUnits hu)⟩
  intro depth hdepth origin id _
  exact Nat.le_trans hdepth (Nat.sub_le _ _)

/-- **Chunks nest no deeper than the table has nodes.** -/
theorem depth_le_size : Every (fun c => c.depth ≤ t.size) (k.build language src t).roots := by
  have hunits : Every (fun c => c.depth ≤ t.size) (k.stages language src t).units.roots := by
    refine ChunkTree.every_ofSyntaxTree (fun d => ?_) (Nat.zero_le _) (fun _ _ hc => hc) ?_
    · rw [ChunkTree.fallback]
      split
      · exact every_nil
      · exact every_cons.mpr ⟨Nat.zero_le _, every_nil, every_nil⟩
    · intro hproblem
      exact k.every_depth_tile src t (SyntaxTree.inconsistency?_of_problem? hproblem)
  refine k.every_build language src t (fun _ _ _ _ _ => Nat.zero_le _)
    (fun c _ _ _ hc _ _ => ⟨hc, hc⟩) (fun c c' h hc => ?_) hunits
  rw [h.1.2]
  exact hc

variable {k language src t}

/-- The numbers of a record fit in 64 bits if the sizes of the file and of the table do. -/
theorem fits_of_mem_records {path : String} {r : Record} (hne : t.Nonempty)
    (hsize : src.size < 2 ^ 64) (hnodes : t.size < 2 ^ 64)
    (hr : r ∈ (k.build language src t).records path) :
    ChunkId.Fits r.span.toByteRange r.depth := by
  obtain ⟨-, -, c, hc, hspan, hdepth⟩ := ChunkTree.of_mem_records hr
  have hsound := k.sound_build language src hne
  obtain ⟨-, hlt, hstop⟩ := hsound.stacked.chunk_bounds hc
  have hle := k.depth_le_size language src t c hc
  rw [hspan, hdepth]
  exact ⟨by omega, by omega, by omega⟩

/-- **Ids agree only by accident of the digest.** An id is the text of 16 bytes of the digest of a
message, and what is digested for two records tells them apart, in one file and across files.
Nothing is asked of a tree but that the nodes that can be reached cover at least one byte; that
sizes fit in 64 bits is asked only where they are compared across files. -/
theorem message_inj_of_records (k k' : Chunker) (path path' : String)
    (language language' : Language) (src src' : Source) (t t' : SyntaxTree) (hne : t.Nonempty)
    (hne' : t'.Nonempty) :
    (∀ r ∈ (k.build language src t).records path,
        r.filePath = path ∧ r.id = chunkId r.filePath r.span.toByteRange r.depth
          ∧ r.id = Digest.hex ((Digest.sha256 r.message).take 16))
      ∧ ((k.build language src t).records path).Pairwise (fun a b => a.place ≠ b.place)
      ∧ (∀ (p : String) (range : ByteRange) (depth : Nat),
        chunkId p range depth
          = Digest.hex ((Digest.sha256 (ChunkId.message p range depth)).take 16))
      ∧ (∀ (p : String) (range : ByteRange) (depth : Nat), ChunkId.Fits range depth →
        ∃ start stop level : List UInt8,
          ChunkId.message p range depth = p.toUTF8.data.toList ++ 0 :: (start ++ stop ++ level)
            ∧ (start.length = 8 ∧ Digest.number start = range.start)
            ∧ (stop.length = 8 ∧ Digest.number stop = range.stop)
            ∧ (level.length = 8 ∧ Digest.number level = depth))
      ∧ (∀ (p p' : String) (range range' : ByteRange) (depth depth' : Nat),
        ChunkId.Fits range depth → ChunkId.Fits range' depth' →
        ChunkId.message p range depth = ChunkId.message p' range' depth' →
        p = p' ∧ range = range' ∧ depth = depth')
      ∧ (∀ r ∈ (k.build language src t).records path,
        ∀ r' ∈ (k'.build language' src' t').records path', r.id = r'.id ↔
          (Digest.sha256 r.message).take 16 = (Digest.sha256 r'.message).take 16)
      ∧ (src.size < 2 ^ 64 → t.size < 2 ^ 64 → src'.size < 2 ^ 64 → t'.size < 2 ^ 64 →
        ∀ r ∈ (k.build language src t).records path,
          ∀ r' ∈ (k'.build language' src' t').records path', r.message = r'.message →
            r.filePath = r'.filePath ∧ r.span.toByteRange = r'.span.toByteRange
              ∧ r.depth = r'.depth) := by
  refine ⟨fun r hr => ?_, (k.sound_build language src hne).pairwise_place path,
    fun _ _ _ => rfl, fun p _ _ => ChunkId.exists_parts p,
    fun _ _ _ _ _ _ => ChunkId.message_inj, fun r hr r' hr' => ?_, ?_⟩
  · obtain ⟨hpath, hid, -⟩ := ChunkTree.of_mem_records hr
    exact ⟨hpath, hid, hid⟩
  · rw [(ChunkTree.of_mem_records hr).2.1, (ChunkTree.of_mem_records hr').2.1]
    exact chunkId_eq_iff
  · intro hsize hnodes hsize' hnodes' r hr r' hr' hmessage
    exact ChunkId.message_inj (fits_of_mem_records hne hsize hnodes hr)
      (fits_of_mem_records hne' hsize' hnodes' hr') hmessage

/-- The same class in two files: no two of its records have the same place, and none of the one file
has the message of one of the other. -/
theorem message_inj_of_records_classWithMethod :
    classWithMethod.Nonempty
      ∧ (((⟨{ minUnitSize := 1, maxUnitSize := 4 }, Rule.builtin⟩ : Chunker).build .python
          { text := "c:\n def\n" } classWithMethod).records "a.py").Pairwise
            (fun a b => a.place ≠ b.place)
      ∧ ∀ r ∈ ((⟨{ minUnitSize := 1, maxUnitSize := 4 }, Rule.builtin⟩ : Chunker).build .python
          { text := "c:\n def\n" } classWithMethod).records "a.py",
        ∀ r' ∈ ((⟨{}, Rule.builtin⟩ : Chunker).build .python { text := "c:\n def\n" }
          classWithMethod).records "b.py", r.message ≠ r'.message := by
  have hne : classWithMethod.Nonempty := SyntaxTree.nonempty_of_closed (by decide) (by decide)
  obtain ⟨hpath, hplace, -, -, -, -, hacross⟩ := message_inj_of_records
    ⟨{ minUnitSize := 1, maxUnitSize := 4 }, Rule.builtin⟩ ⟨{}, Rule.builtin⟩ "a.py" "b.py"
    .python .python { text := "c:\n def\n" } { text := "c:\n def\n" }
    classWithMethod classWithMethod hne hne
  refine ⟨hne, hplace, fun r hr r' hr' hmessage => ?_⟩
  have hsame := (hacross (by decide) (by decide) (by decide) (by decide) r hr r' hr' hmessage).1
  rw [(hpath r hr).1, (ChunkTree.of_mem_records hr').1] at hsame
  exact absurd hsame (by decide)

end Chunker

end SourceChunks

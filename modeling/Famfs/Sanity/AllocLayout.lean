import Famfs.Lib.Runs
import Famfs.Sanity.AllocBits

/-! The allocator against layouts. An extent of whole allocation units is a segment
of units; building the bitmap marks the segments of the log, and a search places
one more segment. -/

namespace Famfs

open Machine Intervals

variable {logp : FamfsLog} {crc32 : Crc32} {e : FamfsSimpleExtent}

/-- An extent of whole allocation units. The bound keeps its rounding from wrapping. -/
structure FamfsSimpleExtent.Whole (e : FamfsSimpleExtent) : Prop where
  offset : e.seOffset % FAMFS_ALLOC_UNIT = 0
  len : e.seLen % FAMFS_ALLOC_UNIT = 0
  pos : 0 < e.seLen
  bound : e.seLen < 2 ^ 53

def FamfsSimpleExtent.units (e : FamfsSimpleExtent) : Seg :=
  (e.seOffset / FAMFS_ALLOC_UNIT, e.seLen / FAMFS_ALLOC_UNIT)

def unitExtent (c : Seg) : FamfsSimpleExtent := ⟨0, c.1 * FAMFS_ALLOC_UNIT, c.2 * FAMFS_ALLOC_UNIT⟩

theorem unitExtent_whole {c : Seg} (hpos : 0 < c.2) (hlt : c.2 < 2 ^ 32) : (unitExtent c).Whole := by
  constructor <;> simp only [unitExtent, FAMFS_ALLOC_UNIT] <;> omega

@[simp] theorem unitExtent_units (c : Seg) : (unitExtent c).units = c := by
  have hau : 0 < FAMFS_ALLOC_UNIT := by decide
  simp only [FamfsSimpleExtent.units, unitExtent, Nat.mul_div_cancel _ hau, Prod.mk.eta]

theorem units_pos (h : e.Whole) : 0 < e.units.2 := by
  have h1 := h.len
  have h2 := h.pos
  simp only [FamfsSimpleExtent.units, FAMFS_ALLOC_UNIT] at *
  omega

theorem disjoint_of_apart {e f : FamfsSimpleExtent} (he : e.Whole) (hf : f.Whole)
    (h : e.units.Apart f.units) : Disjoint e.bytes f.bytes := by
  have h1 := he.offset
  have h2 := he.len
  have h3 := hf.offset
  have h4 := hf.len
  rcases (apart_iff (units_pos he) (units_pos hf)).mp h with h | h
  all_goals
    refine Set.disjoint_left.mpr fun x hx hy => ?_
    simp only [FamfsSimpleExtent.bytes, FamfsSimpleExtent.units, FAMFS_ALLOC_UNIT, Set.mem_Ico] at *
    omega

/-- What marking the segments `cs` does to a bitmap under construction. -/
structure Marked (cs : List Seg) (b b' : BuiltBitmap) : Prop where
  bits : b'.bitmap.bits = b.bitmap.bits
  test : ∀ x, muBitmapTest b'.bitmap x = true ↔
    muBitmapTest b.bitmap x = true ∨ (Covers cs x ∧ x < b.bitmap.bits)
  errors : b.errors = 0 → cs.Pairwise Seg.Apart →
    (∀ x, Covers cs x → muBitmapTest b.bitmap x = false) → b'.errors = 0

theorem Marked.nil (b : BuiltBitmap) : Marked [] b b := ⟨rfl, by simp, fun h _ _ => h⟩

theorem Marked.append {cs ds : List Seg} {a b c : BuiltBitmap} (h1 : Marked cs a b)
    (h2 : Marked ds b c) : Marked (cs ++ ds) a c where
  bits := h2.bits.trans h1.bits
  test := by
    intro x
    rw [h2.test, h1.test, h1.bits, covers_append]
    tauto
  errors := by
    intro h0 hap hclear
    rw [List.pairwise_append] at hap
    obtain ⟨hcs, hds, hcross⟩ := hap
    have hb : b.errors = 0 := h1.errors h0 hcs fun x hx => hclear x (by simp [hx])
    refine h2.errors hb hds fun x hx => ?_
    rw [Bool.eq_false_iff]
    intro ht
    rcases (h1.test x).mp ht with ht | ⟨⟨s, hs, hsx⟩, -⟩
    · rw [hclear x (by simp [hx])] at ht
      exact Bool.false_ne_true ht
    · obtain ⟨d, hd, hdx⟩ := hx
      exact hcross s hs d hd x hsx hdx

theorem setExtentInBitmap_whole (bitmap : Bitmap) (allocSum : ℕ)
    (h : e.Whole) :
    setExtentInBitmap bitmap FAMFS_ALLOC_UNIT e.seOffset e.seLen allocSum =
      .ok (setExtentLoop FAMFS_ALLOC_UNIT e.units.2 e.units.1 ⟨0, bitmap, allocSum⟩) := by
  have hmask : e.seOffset &&& (FAMFS_ALLOC_UNIT - 1) = 0 := by
    rw [show FAMFS_ALLOC_UNIT = 2 ^ 21 by decide, Nat.and_two_pow_sub_one_eq_mod]
    exact h.offset
  have hlen : u64 (e.seLen + FAMFS_ALLOC_UNIT - 1) / FAMFS_ALLOC_UNIT = e.units.2 := by
    have h1 := h.len
    have h2 := h.bound
    simp only [FamfsSimpleExtent.units, FAMFS_ALLOC_UNIT] at *
    rw [u64_of_lt (by omega)]
    omega
  rw [setExtentInBitmap, if_neg (by simp [hmask]), hlen]
  rfl

theorem markExtent_whole (b : BuiltBitmap) (h : e.Whole) :
    ∃ b', markExtent FAMFS_ALLOC_UNIT b e = .ok b' ∧ Marked [e.units] b b' := by
  simp only [markExtent, setExtentInBitmap_whole _ _ h]
  refine ⟨_, rfl, by simp, ?_, ?_⟩
  · intro x
    simp only [muBitmapTest_setExtentLoop, Bool.or_eq_true, decide_eq_true_eq, covers_cons,
      covers_nil, or_false, Prod.mk.eta]
  · intro h0 _ hclear
    have hz : (setExtentLoop FAMFS_ALLOC_UNIT e.units.2 e.units.1 ⟨0, b.bitmap, b.allocSum⟩).errors = 0 :=
      setExtentLoop_errors_clear fun x hx => hclear x (by simpa using hx)
    simp only [hz, h0, addErrors]
    rfl

theorem markExtents_whole {es : List FamfsSimpleExtent} (hes : ∀ e ∈ es, e.Whole) (b : BuiltBitmap) :
    ∃ b', es.foldlM (markExtent FAMFS_ALLOC_UNIT) b = .ok b' ∧
      Marked (es.map FamfsSimpleExtent.units) b b' := by
  have hstep : ∀ e ∈ es, ∀ b, ∃ b', markExtent FAMFS_ALLOC_UNIT b e = .ok b' ∧ Marked [e.units] b b' :=
    fun e he b => markExtent_whole b (hes e he)
  rw [List.map_eq_flatMap]
  exact Runs.foldlM_composes Marked.nil Marked.append hstep b

/-- The extents of a file map: simple ones, or the strips of each interleaved one. -/
def FamfsLogFmap.extents (f : FamfsLogFmap) : List FamfsSimpleExtent :=
  if f.fmapExtType = FAMFS_EXT_SIMPLE then (List.range f.fmapNextents).map f.se
  else if f.fmapExtType = FAMFS_EXT_INTERLEAVE then
    (List.range f.fmapNextents).flatMap fun m => (List.range (f.ieNstrips m)).map (f.ieStrips m)
  else []

theorem extents_interleave {f : FamfsLogFmap} (htype : f.fmapExtType = FAMFS_EXT_INTERLEAVE)
    (hone : f.fmapNextents = 1) : f.extents = (List.range (f.ieNstrips 0)).map (f.ieStrips 0) := by
  rw [FamfsLogFmap.extents, htype, hone, if_neg (by decide), if_pos rfl, List.range_one,
    List.flatMap_singleton]

theorem contiguousFmap_extents (offset size : ℕ) :
    (contiguousFmap offset size).extents = [⟨0, offset, roundSizeToAllocUnit size⟩] := by
  have h := FamfsLogFmap.extentAt_setExtentAt_self FamfsLogFmap.zero (k := 0) (by norm_num)
    ⟨0, offset, roundSizeToAllocUnit size⟩
  simp only [FamfsLogFmap.extents, contiguousFmap, ↓reduceIte, List.range_one, List.map_singleton,
    FamfsLogFmap.se, Nat.mul_zero]
  exact congrArg (fun e => [e]) h

/-- At most 16 simple extents, or one interleaved extent of at most 16 strips. -/
def FamfsLogFmap.Bounded (f : FamfsLogFmap) : Prop :=
  (f.fmapExtType = FAMFS_EXT_SIMPLE ∧ f.fmapNextents ≤ FAMFS_MAX_SIMPLE_EXTENTS) ∨
    (f.fmapExtType = FAMFS_EXT_INTERLEAVE ∧ f.fmapNextents = 1 ∧ f.ieNstrips 0 ≤ FAMFS_MAX_SIMPLE_EXTENTS)

theorem contiguousFmap_bounded (offset size : ℕ) : (contiguousFmap offset size).Bounded :=
  .inl ⟨rfl, show 1 ≤ 16 by decide⟩

theorem FamfsLogFmap.Bounded.scannedExtents {f : FamfsLogFmap} (h : f.Bounded) (past : ℕ → ℕ) :
    f.scannedExtents past = f.extents := by
  unfold FamfsLogFmap.scannedExtents FamfsLogFmap.extents
  rcases h with ⟨htype, hmax⟩ | ⟨htype, hone, hmax⟩
  · rw [if_pos htype, if_pos htype]
    refine List.map_congr_left fun j hj => f.extentIn_eq past ?_
    have hlt := (List.mem_range.1 hj).trans_le hmax
    simp only [FAMFS_MAX_SIMPLE_EXTENTS] at hlt
    omega
  · have hsimple : f.fmapExtType ≠ FAMFS_EXT_SIMPLE := by
      rw [htype]
      decide
    rw [if_neg hsimple, if_neg hsimple, if_pos htype, if_pos htype, hone, show (s32 1).toNat = 1 by decide, List.range_one,
      List.flatMap_singleton, List.flatMap_singleton]
    have hstrips : f.wordIn past (50 * (0 + 0)) = f.ieNstrips 0 := f.wordIn_eq past (by norm_num)
    rw [hstrips]
    refine List.map_congr_left fun k hk => f.extentIn_eq past ?_
    have hlt := (List.mem_range.1 hk).trans_le hmax
    simp only [FAMFS_MAX_SIMPLE_EXTENTS] at hlt
    omega

def FamfsLogEntryBody.extents : FamfsLogEntryBody → List FamfsSimpleExtent
  | .fm m => m.fmFmap.extents
  | _ => []

def extentsBelow (logp : FamfsLog) (n : ℕ) : List FamfsSimpleExtent :=
  (List.range n).flatMap fun i => (logp.entries i).body.extents

def logExtents (logp : FamfsLog) : List FamfsSimpleExtent := extentsBelow logp logp.famfsLogNextIndex

theorem extentsBelow_succ (logp : FamfsLog) (n : ℕ) :
    extentsBelow logp (n + 1) = extentsBelow logp n ++ (logp.entries n).body.extents := by
  simp [extentsBelow, List.range_succ]

def metaUnits (logp : FamfsLog) : ℕ :=
  divUp (FAMFS_SUPERBLOCK_SIZE + logp.famfsLogLen) FAMFS_ALLOC_UNIT

theorem metaUnits_pos (logp : FamfsLog) : 0 < metaUnits logp :=
  divUp_pos (by decide) (Nat.add_pos_left (by decide) _)

/-- The segments a log takes: the superblock and the log, then every extent. -/
def logSegs (logp : FamfsLog) : List Seg :=
  (0, metaUnits logp) :: (logExtents logp).map FamfsSimpleExtent.units

structure Mapped (crc32 : Crc32) (logp : FamfsLog) : Prop where
  entry : ∀ i < logp.famfsLogNextIndex, famfsValidateLogEntry crc32 (fun _ => logp.entries i) i = 0
  maps : ∀ i < logp.famfsLogNextIndex, ∀ m, (logp.entries i).body = .fm m → m.fmFmap.Bounded
  whole : ∀ e ∈ logExtents logp, e.Whole
  len : logp.famfsLogLen ≤ 2 ^ 63

/-- The extents that the scan marks for an entry: none when the entry is not valid. -/
def markedExtents (crc32 : Crc32) (logp : FamfsLog) (i : ℕ) : List FamfsSimpleExtent :=
  if famfsValidateLogEntry crc32 (fun _ => logp.entries i) i ≠ 0 then []
  else match (logp.entries i).body with
    | .fm m => m.fmFmap.scannedExtents (logp.past i)
    | _ => []

theorem buildEntry_marks (crc32 : Crc32) (au : ℕ) (logp : FamfsLog) (b : BuiltBitmap) (i : ℕ) :
    ∃ fsizeSum stats, buildEntry crc32 au logp b i =
      (markedExtents crc32 logp i).foldlM (markExtent au) ⟨b.bitmap, b.errors, fsizeSum, b.allocSum, stats⟩ := by
  rw [buildEntry, markedExtents]
  by_cases hrejected : famfsValidateLogEntry crc32 (fun _ => logp.entries i) i ≠ 0
  · rw [if_pos hrejected, if_pos hrejected]
    exact ⟨_, _, rfl⟩
  · rw [if_neg hrejected, if_neg hrejected]
    cases (logp.entries i).body with
    | fm m => exact ⟨_, _, rfl⟩
    | md m => exact ⟨_, _, rfl⟩
    | dd m => exact ⟨_, _, rfl⟩
    | other t raw => exact ⟨_, _, rfl⟩

theorem Mapped.markedExtents (hm : Mapped crc32 logp) {i : ℕ}
    (hi : i < logp.famfsLogNextIndex) : markedExtents crc32 logp i = (logp.entries i).body.extents := by
  rw [Famfs.markedExtents, if_neg (not_not.2 (hm.entry i hi))]
  cases hb : (logp.entries i).body with
  | fm m => exact (hm.maps i hi m hb).scannedExtents _
  | md m => rfl
  | dd m => rfl
  | other t raw => rfl

theorem buildEntry_mapped (hm : Mapped crc32 logp) {i : ℕ}
    (hi : i < logp.famfsLogNextIndex) (b : BuiltBitmap) :
    ∃ b', buildEntry crc32 FAMFS_ALLOC_UNIT logp b i = .ok b' ∧
      Marked ((logp.entries i).body.extents.map FamfsSimpleExtent.units) b b' := by
  have hwhole : ∀ e ∈ (logp.entries i).body.extents, e.Whole := fun e he =>
    hm.whole e (List.mem_flatMap.mpr ⟨i, List.mem_range.mpr hi, he⟩)
  obtain ⟨fsizeSum, stats, hturn⟩ := buildEntry_marks crc32 FAMFS_ALLOC_UNIT logp b i
  rw [hturn, hm.markedExtents hi]
  obtain ⟨b', hok, hmk⟩ := markExtents_whole hwhole ⟨b.bitmap, b.errors, fsizeSum, b.allocSum, stats⟩
  exact ⟨b', hok, hmk.bits, hmk.test, hmk.errors⟩

theorem buildEntries_mapped (hm : Mapped crc32 logp) (b : BuiltBitmap) :
    ∃ b', (List.range logp.famfsLogNextIndex).foldlM (buildEntry crc32 FAMFS_ALLOC_UNIT logp) b = .ok b' ∧
      Marked ((logExtents logp).map FamfsSimpleExtent.units) b b' := by
  have hstep : ∀ i ∈ List.range logp.famfsLogNextIndex, ∀ b, ∃ b', buildEntry crc32 FAMFS_ALLOC_UNIT logp b i = .ok b' ∧
      Marked ((logp.entries i).body.extents.map FamfsSimpleExtent.units) b b' :=
    fun i hi b => buildEntry_mapped hm (List.mem_range.mp hi) b
  rw [logExtents, extentsBelow, List.map_flatMap]
  exact Runs.foldlM_composes Marked.nil Marked.append hstep b

theorem muBitmapTest_replicate (len x : ℕ) : muBitmapTest (List.replicate len 0) x = false := by
  rw [muBitmapTest_eq]
  simp only [bitmapByte, List.getD_eq_getElem?_getD, List.getElem?_replicate]
  split <;> simp

theorem muBitmapTest_empty (nbits x : ℕ) : muBitmapTest (emptyBitmap nbits) x = false := muBitmapTest_replicate _ x

theorem emptyBitmap_bits {nbits : ℕ} (h : nbits < 2 ^ 31) : nbits ≤ (emptyBitmap nbits).bits := by
  simp only [emptyBitmap, Bitmap.bits, List.length_replicate, muBitmapSize]
  by_cases hsmall : nbits + 8 - 1 < 2 ^ 31
  · rw [s32_of_lt hsmall, u64_of_lt (by omega)]
    omega
  · rw [s32, u32_of_lt (by omega), if_neg hsmall, u64_of_lt (by omega)]
    omega

theorem setExtentInBitmap_meta (hlen : logp.famfsLogLen ≤ 2 ^ 63) (nbits : ℕ) :
    ∃ m, setExtentInBitmap (emptyBitmap nbits) FAMFS_ALLOC_UNIT 0
        (u64 (FAMFS_SUPERBLOCK_SIZE + logp.famfsLogLen)) 0 = .ok m ∧
      m.bitmap.bits = (emptyBitmap nbits).bits ∧
      ∀ x, muBitmapTest m.bitmap x = true ↔
        Seg.Has (0, metaUnits logp) x ∧ x < (emptyBitmap nbits).bits := by
  have hu : u64 (u64 (FAMFS_SUPERBLOCK_SIZE + logp.famfsLogLen) + FAMFS_ALLOC_UNIT - 1) /
      FAMFS_ALLOC_UNIT = metaUnits logp := by
    have h1 : u64 (FAMFS_SUPERBLOCK_SIZE + logp.famfsLogLen) = FAMFS_SUPERBLOCK_SIZE + logp.famfsLogLen :=
      u64_of_lt (by simp only [FAMFS_SUPERBLOCK_SIZE, FAMFS_LOG_OFFSET]; omega)
    rw [h1, u64_of_lt (by simp only [FAMFS_SUPERBLOCK_SIZE, FAMFS_LOG_OFFSET, FAMFS_ALLOC_UNIT]; omega)]
    rfl
  refine ⟨setExtentLoop FAMFS_ALLOC_UNIT (metaUnits logp) 0 ⟨0, emptyBitmap nbits, 0⟩, ?_, ?_, ?_⟩
  · rw [setExtentInBitmap, if_neg (by simp), hu, Nat.zero_div]
  · rw [setExtentLoop_bits]
  · intro x
    rw [muBitmapTest_setExtentLoop, muBitmapTest_empty, Bool.false_or, decide_eq_true_eq]

theorem famfsBuildBitmap_mapped (hm : Mapped crc32 logp)
    (devSize : ℕ) (hn : bitmapNbits devSize FAMFS_ALLOC_UNIT ≤ 2 ^ 30) :
    ∃ b, famfsBuildBitmap crc32 logp FAMFS_ALLOC_UNIT devSize = .ok b ∧
      bitmapNbits devSize FAMFS_ALLOC_UNIT ≤ b.bitmap.bits ∧
      (∀ x < bitmapNbits devSize FAMFS_ALLOC_UNIT,
        muBitmapTest b.bitmap x = true ↔ Covers (logSegs logp) x) ∧
      ((logSegs logp).Pairwise Seg.Apart → b.errors = 0) := by
  obtain ⟨m, hok0, hbits, htest⟩ :=
    setExtentInBitmap_meta hm.len (bitmapNbits devSize FAMFS_ALLOC_UNIT)
  obtain ⟨b, hok, hmk⟩ := buildEntries_mapped hm
    ⟨m.bitmap, 0, 0, m.allocSum, ⟨0, 0, 0, 0⟩⟩
  have hroom := emptyBitmap_bits (by omega : bitmapNbits devSize FAMFS_ALLOC_UNIT < 2 ^ 31)
  refine ⟨b, ?_, ?_, ?_, ?_⟩
  · rw [famfsBuildBitmap, if_neg (by decide), if_neg (by decide), hok0, Runs.ok_bind, hok]
  · rw [hmk.bits, hbits]
    exact hroom
  · intro x hx
    have hin := lt_of_lt_of_le hx hroom
    rw [hmk.test, htest, hbits, logSegs, covers_cons]
    simp only [hin, and_true, logExtents]
  · intro hap
    rw [logSegs, List.pairwise_cons] at hap
    refine hmk.errors rfl hap.2 fun x hx => ?_
    rw [Bool.eq_false_iff]
    intro ht
    obtain ⟨c, hc, hcx⟩ := hx
    exact hap.1 c hc x ((htest x).mp ht).1 hcx

structure Shows {N : ℕ} (L : Layout N) (bitmap : Bitmap) : Prop where
  bits : N ≤ bitmap.bits
  shown : L.ShownBy (muBitmapTest bitmap)

theorem shows_setRun {N : ℕ} {L L' : Layout N} {bitmap : Bitmap} (hs : Shows L bitmap) {i n : ℕ}
    (h32 : i + n ≤ 2 ^ 32) (hL : L'.segs = L.segs ++ [(i, n)]) : Shows L' (setRun bitmap n i) where
  bits := by rw [setRun_bits]; exact hs.bits
  shown := by
    intro b hb
    have hin := lt_of_lt_of_le hb hs.bits
    rw [muBitmapTest_setRun bitmap n i b h32, hL, covers_append, Bool.or_eq_true, hs.shown b hb]
    simp [hin]

theorem bitmapAllocContiguous_shows {N : ℕ} (hN : N ≤ 2 ^ 30) {L : Layout N} {bitmap : Bitmap}
    (hs : Shows L bitmap) (h0 : Covers L.segs 0) {allocSize n : ℕ}
    (hn : allocBits FAMFS_ALLOC_UNIT allocSize = n) (hpos : 0 < n) (hlt : n ≤ 2 ^ 31)
    (curPos rangeSize : ℕ) :
    bitmapAllocContiguous bitmap N FAMFS_ALLOC_UNIT allocSize curPos rangeSize = (-1, bitmap, curPos) ∨
    ∃ (i pos : ℕ) (bitmap' : Bitmap) (L' : Layout N), 0 < i ∧
      bitmapAllocContiguous bitmap N FAMFS_ALLOC_UNIT allocSize curPos rangeSize =
        (((i * FAMFS_ALLOC_UNIT : ℕ) : ℤ), bitmap', pos) ∧
      L'.segs = L.segs ++ [(i, n)] ∧ Shows L' bitmap' := by
  rcases bitmapAllocContiguous_cases bitmap N FAMFS_ALLOC_UNIT allocSize curPos rangeSize with
    ⟨-, heq⟩ | ⟨i, ⟨hi, hsel⟩, -, heq⟩
  · exact Or.inl heq
  · rw [hn] at hsel heq
    have hfree := hs.shown.free (c := (i, n)) hsel.run
    have hipos : 0 < i := by
      rcases Nat.eq_zero_or_pos i with rfl | h
      · exact absurd h0 (hfree 0 hi ⟨le_rfl, by simpa using hpos⟩)
      · exact h
    refine Or.inr ⟨i, u64 ((i + n) * FAMFS_ALLOC_UNIT), setRun bitmap n i, L.place (i, n) hi hfree,
      hipos, ?_, rfl, shows_setRun hs (by omega) rfl⟩
    rw [heq, s64_of_lt (by simp only [FAMFS_ALLOC_UNIT]; omega)]

end Famfs

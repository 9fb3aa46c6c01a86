import Famfs.Spec.MapAccess

/-! Handing a map to the kernel. Counts come from the log as they are. The ioctl is safe but for the
number of interleaved extents, which is not looked at. The message is not: its bound is a 32-bit
sum of products of counts, and nothing bounds the elements that are read. -/

namespace Famfs

open Machine Traced Buffer

def MapAccess.InBounds (msgSize : ℕ) : MapAccess → Prop
  | .se j => j < FAMFS_MAX_SIMPLE_EXTENTS
  | .ie m => m < FAMFS_MAX_INTERLEAVED_EXTENTS
  | .ieStrip m k => m < FAMFS_MAX_INTERLEAVED_EXTENTS ∧ k < FAMFS_MAX_SIMPLE_EXTENTS
  | .kse j => j < FAMFS_MAX_SIMPLE_EXTENTS
  | .kie i => i < FAMFS_MAX_INTERLEAVED_EXTENTS
  | .msg off len => off + len ≤ msgSize

instance (msgSize : ℕ) : (a : MapAccess) → Decidable (a.InBounds msgSize)
  | .se _ => inferInstanceAs (Decidable (_ < _))
  | .ie _ => inferInstanceAs (Decidable (_ < _))
  | .ieStrip _ _ => inferInstanceAs (Decidable (_ ∧ _))
  | .kse _ => inferInstanceAs (Decidable (_ < _))
  | .kie _ => inferInstanceAs (Decidable (_ < _))
  | .msg _ _ => inferInstanceAs (Decidable (_ ≤ _))

section

variable {msgSize : ℕ}

@[simp] theorem inBounds_se {j : ℕ} : (MapAccess.se j).InBounds msgSize ↔ j < FAMFS_MAX_SIMPLE_EXTENTS := Iff.rfl

@[simp] theorem inBounds_ie {m : ℕ} : (MapAccess.ie m).InBounds msgSize ↔ m < FAMFS_MAX_INTERLEAVED_EXTENTS := Iff.rfl

@[simp] theorem inBounds_ieStrip {m k : ℕ} : (MapAccess.ieStrip m k).InBounds msgSize ↔
    m < FAMFS_MAX_INTERLEAVED_EXTENTS ∧ k < FAMFS_MAX_SIMPLE_EXTENTS := Iff.rfl

@[simp] theorem inBounds_kse {j : ℕ} : (MapAccess.kse j).InBounds msgSize ↔ j < FAMFS_MAX_SIMPLE_EXTENTS := Iff.rfl

@[simp] theorem inBounds_msg {off len : ℕ} : (MapAccess.msg off len).InBounds msgSize ↔ off + len ≤ msgSize := Iff.rfl

theorem forall_lt_iff {n bound : ℕ} : (∀ i < n, i < bound) ↔ n ≤ bound := by
  constructor
  · intro h
    by_contra hlt
    exact lt_irrefl _ (h bound (by omega))
  · intro h i hi
    omega

end

/-- The count is at most 16, or is negative as an `int` while the sum does not wrap to what the
message has room for. -/
def SimpleInside (msgSize : ℕ) (fmap : FamfsLogFmap) : Prop :=
  s32 fmap.fmapNextents ≤ FAMFS_MAX_SIMPLE_EXTENTS ∧
    (msgSize < u32 (32 + fmap.fmapNextents * 24) ∨ fmap.fmapNextents ≤ FAMFS_MAX_SIMPLE_EXTENTS)

/-- There is at most one extent, and its strips are bounded in the same way. -/
def InterleavedInside (msgSize : ℕ) (fmap : FamfsLogFmap) : Prop :=
  fmap.fmapNextents ≤ FAMFS_MAX_INTERLEAVED_EXTENTS ∧
    (fmap.fmapNextents = FAMFS_MAX_INTERLEAVED_EXTENTS → s32 (fmap.ieNstrips 0) ≤ FAMFS_MAX_SIMPLE_EXTENTS ∧
      (msgSize < 56 ∨ msgSize < u32 (56 + u32 (fmap.ieNstrips 0) * 24) ∨ u32 (fmap.ieNstrips 0) ≤ FAMFS_MAX_SIMPLE_EXTENTS))

/-- Where the encoder and the yaml that it prints stay inside. -/
def MessageInside (msgSize : ℕ) (fmap : FamfsLogFmap) : Prop :=
  msgSize < 32 ∨ (fmap.fmapExtType = FAMFS_EXT_SIMPLE → SimpleInside msgSize fmap) ∧
    (fmap.fmapExtType = FAMFS_EXT_INTERLEAVE → InterleavedInside msgSize fmap)

section

variable {msgSize : ℕ} {fmap : FamfsLogFmap}

theorem emitReads_simple (ht : fmap.fmapExtType = FAMFS_EXT_SIMPLE) :
    (∀ a ∈ emitReads fmap, a.InBounds msgSize) ↔ s32 fmap.fmapNextents ≤ FAMFS_MAX_SIMPLE_EXTENTS := by
  rw [emitReads, if_pos ht, List.forall_mem_map, ← Int.toNat_le, ← forall_lt_iff]
  simp only [List.mem_range, inBounds_se]

theorem emitReads_interleaved (ht : fmap.fmapExtType = FAMFS_EXT_INTERLEAVE) :
    (∀ a ∈ emitReads fmap, a.InBounds msgSize) ↔ fmap.fmapNextents ≤ FAMFS_MAX_INTERLEAVED_EXTENTS ∧
      (fmap.fmapNextents = FAMFS_MAX_INTERLEAVED_EXTENTS → s32 (fmap.ieNstrips 0) ≤ FAMFS_MAX_SIMPLE_EXTENTS) := by
  have hne : fmap.fmapExtType ≠ FAMFS_EXT_SIMPLE := by rw [ht]; decide
  rw [emitReads, if_neg hne, if_pos ht]
  simp only [List.forall_mem_flatMap, List.forall_mem_cons, List.forall_mem_map, List.mem_range, inBounds_ie, inBounds_ieStrip]
  constructor
  · intro h
    refine ⟨forall_lt_iff.1 fun i hi => (h i hi).1, fun h1 => ?_⟩
    rw [← Int.toNat_le, ← forall_lt_iff]
    exact fun k hk => ((h 0 (h1 ▸ Nat.one_pos)).2 k hk).2
  · rintro ⟨hle, hone⟩ i hi
    have h1 : fmap.fmapNextents = FAMFS_MAX_INTERLEAVED_EXTENTS := by
      unfold FAMFS_MAX_INTERLEAVED_EXTENTS at hle ⊢
      omega
    have h0 : i < FAMFS_MAX_INTERLEAVED_EXTENTS := h1 ▸ hi
    obtain rfl : i = 0 := Nat.lt_one_iff.1 h0
    exact ⟨h0, fun k hk => ⟨h0, forall_lt_iff.2 (Int.toNat_le.2 (hone h1)) k hk⟩⟩

theorem row_inside {n off : ℕ} {elem : ℕ → MapAccess} (helem : ∀ j, (elem j).InBounds msgSize ↔ j < FAMFS_MAX_SIMPLE_EXTENTS)
    (hcursor : u32 (off + n * 24) ≤ msgSize) (hoff : off ≤ 56) :
    (∀ a ∈ MapAccess.msg off (n * 24) :: (List.range n).flatMap fun j => [.msg (off + 24 * j) 24, elem j], a.InBounds msgSize) ↔
      n ≤ FAMFS_MAX_SIMPLE_EXTENTS := by
  simp only [List.forall_mem_cons, List.forall_mem_flatMap, List.mem_range, inBounds_msg, helem, List.not_mem_nil,
    false_imp_iff, implies_true, and_true]
  constructor
  · rintro ⟨-, h⟩
    exact forall_lt_iff.1 fun i hi => (h i hi).2
  · intro hn
    have hn16 : n ≤ 16 := hn
    have hfits : off + n * 24 ≤ msgSize := by
      rwa [u32_of_lt (by omega)] at hcursor
    refine ⟨hfits, fun j hj => ⟨by omega, lt_of_lt_of_le hj hn⟩⟩

variable {abi : FuseAbi} (habi : abi.Packed)

include habi

theorem simpleToMsg_within (msg : Buf) :
    Within (MapAccess.InBounds msgSize) (tracedSimpleToMsg abi msgSize msg fmap) ↔
      msgSize < u32 (32 + fmap.fmapNextents * 24) ∨ fmap.fmapNextents ≤ FAMFS_MAX_SIMPLE_EXTENTS := by
  simp only [tracedSimpleToMsg, habi.header, habi.simpleExt]
  by_cases hroom : msgSize < u32 (32 + fmap.fmapNextents * 24)
  · rw [if_pos hroom]
    exact iff_of_true (within_pure _) (Or.inl hroom)
  · rw [if_neg hroom, within_touch_bind, row_inside (fun _ => Iff.rfl) (not_lt.1 hroom) (by decide)]
    constructor
    · exact fun h => Or.inr h.1
    · exact fun h => ⟨h.resolve_left hroom, within_lift _⟩

theorem interleavedToMsg_within (fileSize : ℕ) (msg : Buf) :
    Within (MapAccess.InBounds msgSize) (tracedInterleavedToMsg abi msgSize fmap fileSize 1 0 32 msg) ↔
      msgSize < 56 ∨ msgSize < u32 (56 + u32 (fmap.ieNstrips 0) * 24) ∨ u32 (fmap.ieNstrips 0) ≤ FAMFS_MAX_SIMPLE_EXTENTS := by
  have h56 : u32 (32 + 24) = 56 := by decide
  have helem : ∀ j, (MapAccess.ieStrip 0 j).InBounds msgSize ↔ j < FAMFS_MAX_SIMPLE_EXTENTS := fun j =>
    and_iff_right (by decide)
  simp only [tracedInterleavedToMsg, habi.header, habi.iext, h56]
  by_cases hheader : msgSize < 56
  · rw [if_pos hheader]
    exact iff_of_true (within_pure _) (Or.inl hheader)
  rw [if_neg hheader, within_touch_bind, if_neg (by decide)]
  have hfirst : ∀ a ∈ [MapAccess.msg 32 24, .msg (32 + 24 * 0) 24, .ie 0], a.InBounds msgSize := by
    simp only [List.forall_mem_cons, inBounds_msg, inBounds_ie, List.not_mem_nil, false_imp_iff, implies_true, and_true]
    exact ⟨by omega, by omega, by decide⟩
  rw [and_iff_right hfirst]
  by_cases hroom : msgSize < u32 (56 + u32 (fmap.ieNstrips 0) * 24)
  · rw [if_pos hroom]
    exact iff_of_true (within_pure _) (Or.inr (Or.inl hroom))
  · rw [if_neg hroom, within_touch_bind, row_inside helem (not_lt.1 hroom) le_rfl]
    constructor
    · exact fun h => Or.inr (Or.inr h.1)
    · intro h
      refine ⟨(h.resolve_left hheader).resolve_left hroom, ?_⟩
      split_ifs
      · exact within_lift _
      · exact within_pure _

end

/-- For every map, size and message, the encoder stays inside exactly when the counts let it. -/
theorem message_in_bounds_iff {abi : FuseAbi} (habi : abi.Packed) (msg : Buf) (msgSize fileType : ℕ) (fmeta : FamfsLogFileMeta) :
    Within (MapAccess.InBounds msgSize) (tracedFileMetaToMsg abi msg msgSize fileType fmeta) ↔
      MessageInside msgSize fmeta.fmFmap := by
  simp only [tracedFileMetaToMsg, habi.header]
  by_cases hsize : msgSize < 32
  · rw [if_pos hsize]
    exact iff_of_true (within_pure _) (Or.inl hsize)
  have hheader : (MapAccess.msg 0 32).InBounds msgSize := not_lt.1 hsize
  rw [if_neg hsize, within_touch_bind, List.forall_mem_cons, and_iff_right hheader, MessageInside, or_iff_right hsize]
  by_cases hs : fmeta.fmFmap.fmapExtType = FAMFS_EXT_SIMPLE
  · have hi : fmeta.fmFmap.fmapExtType ≠ FAMFS_EXT_INTERLEAVE := by rw [hs]; decide
    rw [if_pos hs, emitReads_simple hs, simpleToMsg_within habi, forall_prop_of_true hs, and_iff_left fun h => absurd h hi]
    rfl
  rw [if_neg hs, and_iff_right fun h => absurd h hs]
  by_cases hi : fmeta.fmFmap.fmapExtType = FAMFS_EXT_INTERLEAVE
  · rw [if_pos hi, emitReads_interleaved hi, forall_prop_of_true hi, InterleavedInside, and_assoc]
    refine and_congr_right fun hle => ?_
    rcases Nat.le_one_iff_eq_zero_or_eq_one.1 hle with h0 | h1
    · rw [h0]
      exact iff_of_true ⟨fun h => absurd h (by decide), within_pure _⟩ fun h => absurd h (by decide)
    · have hone : fmeta.fmFmap.fmapNextents = FAMFS_MAX_INTERLEAVED_EXTENTS := h1
      rw [forall_prop_of_true hone, forall_prop_of_true hone, h1, interleavedToMsg_within habi]
  · have hnone : emitReads fmeta.fmFmap = [] := by rw [emitReads, if_neg hs, if_neg hi]
    rw [if_neg hi, hnone]
    exact iff_of_true ⟨fun a ha => absurd ha List.not_mem_nil, within_pure _⟩ fun h => absurd h hi

def countedFile (n : ℕ) : FamfsLogFileMeta := ⟨4096, 0, 0, 0, 0o644, [97], ⟨FAMFS_EXT_SIMPLE, n, fun _ => 4096⟩⟩

theorem message_in_bounds_sixteen :
    Within (MapAccess.InBounds 4096) (tracedFileMetaToMsg packedAbi (fun _ => 0) 4096 0 (countedFile 16)) := by
  refine (message_in_bounds_iff packedAbi_packed _ _ _ _).2 (Or.inr ⟨fun _ => ⟨by decide, Or.inr (by decide)⟩, fun h => ?_⟩)
  exact absurd h (by decide)

/-- With 17 extents the element past the array is read. With 178956971 the sum wraps to 40, and the
message is cleared for 4 GiB. -/
theorem message_out_of_bounds :
    ¬ Within (MapAccess.InBounds 4096) (tracedFileMetaToMsg packedAbi (fun _ => 0) 4096 0 (countedFile 17)) ∧
    MapAccess.se 16 ∈ (tracedFileMetaToMsg packedAbi (fun _ => 0) 4096 0 (countedFile 17)).trace ∧
    ¬ Within (MapAccess.InBounds 4096) (tracedFileMetaToMsg packedAbi (fun _ => 0) 4096 0 (countedFile 178956971)) ∧
    MapAccess.msg 32 (2 ^ 32 + 8) ∈ (tracedFileMetaToMsg packedAbi (fun _ => 0) 4096 0 (countedFile 178956971)).trace := by
  have hread : MapAccess.se 16 ∈ (tracedFileMetaToMsg packedAbi (fun _ => 0) 4096 0 (countedFile 17)).trace := by decide
  have hclear : MapAccess.msg 32 (2 ^ 32 + 8) ∈ (tracedFileMetaToMsg packedAbi (fun _ => 0) 4096 0 (countedFile 178956971)).trace := by
    have hlen : (countedFile 178956971).fmFmap.fmapNextents * packedAbi.simpleExt = 2 ^ 32 + 8 := by decide
    simp only [tracedFileMetaToMsg, tracedSimpleToMsg]
    rw [if_neg (by decide), if_pos (by decide), if_neg (by decide), hlen]
    exact List.mem_append_right _ (List.mem_append_left _ List.mem_cons_self)
  refine ⟨fun h => absurd (h _ hread) (by decide), hread, fun h => absurd (h _ hclear) (by decide), hclear⟩

/-- What a map says of the extents of a file. An interleaved extent is its strips, their number and
the size of a chunk. -/
inductive MapExtents where
  | simple (extents : List FamfsSimpleExtent)
  | interleaved (extents : List (ℕ × ℕ × List FamfsSimpleExtent))
deriving DecidableEq

def FamfsLogFmap.mapExtents (fm : FamfsLogFmap) : Option MapExtents :=
  if fm.fmapExtType = FAMFS_EXT_SIMPLE then some (.simple ((List.range fm.fmapNextents).map fm.se))
  else if fm.fmapExtType = FAMFS_EXT_INTERLEAVE then
    some (.interleaved ((List.range fm.fmapNextents).map fun i =>
      (fm.ieNstrips i, fm.ieChunkSize i, (List.range (fm.ieNstrips i)).map (fm.ieStrips i))))
  else none

def IocMap.mapExtents : IocMap → Option MapExtents
  | .v1 _ => none
  | .v2Simple kse => some (.simple kse)
  | .v2Interleaved kie => some (.interleaved (kie.map fun e => (e.ieNstrips, e.ieChunkSize, e.ieStrips)))

structure FamfsIocFmap.Denotes (ioc : FamfsIocFmap) (size fileType : ℕ) (fm : FamfsLogFmap) : Prop where
  fileSize : ioc.fiocFileSize = size
  fileType : ioc.fiocFileType = fileType
  extType : ioc.fiocExtType = fm.fmapExtType
  known : fm.mapExtents.isSome
  extents : ioc.map.mapExtents = fm.mapExtents

/-- The function stays inside its arrays and the map, and returns an error before the ioctl or issues
it with the same map. -/
structure MapInstalled (fd : ℤ) (size fileType : ℕ) (fm : FamfsLogFmap) : Prop where
  inside : Within (MapAccess.InBounds 0) (tracedV2SetFileMap fd size fileType fm)
  result : (∃ rc, rc ≠ 0 ∧ (tracedV2SetFileMap fd size fileType fm).result = .ok (.error rc)) ∨
    ∃ ioc, (tracedV2SetFileMap fd size fileType fm).result = .ok (.ok ioc) ∧ ioc.Denotes size fileType fm

/-- An interleaved map has no second extent, or its first is refused. -/
def OneInterleaved (fm : FamfsLogFmap) : Prop :=
  fm.fmapExtType = FAMFS_EXT_INTERLEAVE →
    fm.fmapNextents ≤ FAMFS_MAX_INTERLEAVED_EXTENTS ∨ FAMFS_MAX_SIMPLE_EXTENTS < fm.ieNstrips 0

section

variable {fm : FamfsLogFmap}

theorem pairs_inside {msgSize n : ℕ} {elem : ℕ → MapAccess} (hn : n ≤ FAMFS_MAX_SIMPLE_EXTENTS)
    (helem : ∀ j < FAMFS_MAX_SIMPLE_EXTENTS, (elem j).InBounds msgSize) :
    ∀ a ∈ (List.range n).flatMap fun j => [MapAccess.kse j, elem j], a.InBounds msgSize := by
  simp only [List.forall_mem_flatMap, List.forall_mem_cons, List.mem_range, inBounds_kse, List.not_mem_nil,
    false_imp_iff, implies_true, and_true]
  exact fun j hj => ⟨lt_of_lt_of_le hj hn, helem j (lt_of_lt_of_le hj hn)⟩

theorem tracedKie_within (size n : ℕ) :
    Within (MapAccess.InBounds 0) (tracedKie fm size n 0 []) ↔
      n ≤ FAMFS_MAX_INTERLEAVED_EXTENTS ∨ FAMFS_MAX_SIMPLE_EXTENTS < fm.ieNstrips 0 := by
  cases n with
  | zero => exact iff_of_true (within_pure _) (Or.inl (by decide))
  | succ left =>
    rw [tracedKie, within_touch_bind, if_neg (by decide), and_iff_right (by decide)]
    by_cases hover : FAMFS_MAX_SIMPLE_EXTENTS < fm.ieNstrips 0
    · rw [if_pos hover]
      exact iff_of_true (within_pure _) (Or.inr hover)
    · have hrow : ∀ a ∈ (List.range (fm.ieNstrips 0)).flatMap fun j => [MapAccess.kse j, .ieStrip 0 j], a.InBounds 0 :=
        pairs_inside (not_lt.1 hover) fun j hj => ⟨by decide, hj⟩
      rw [if_neg hover, within_touch_bind, and_iff_right hrow, or_iff_left hover]
      cases left with
      | zero => exact iff_of_true (within_pure _) le_rfl
      | succ left =>
        rw [tracedKie, within_touch_bind]
        exact iff_of_false (fun h => absurd (h.1 (.ie 1) List.mem_cons_self) (by decide)) (by simp [FAMFS_MAX_INTERLEAVED_EXTENTS])

theorem v2Map_denotes {size fileType : ℕ} {map : IocMap} (h : v2Map fm size = .ok (.ok map)) :
    (FamfsIocFmap.mk size fileType fm.fmapExtType map).Denotes size fileType fm := by
  unfold v2Map at h
  split_ifs at h with hs hmax hi hover hone
  · cases h
  · cases h
    refine ⟨rfl, rfl, rfl, ?_, ?_⟩
    · rw [FamfsLogFmap.mapExtents, if_pos hs]
      rfl
    · rw [FamfsLogFmap.mapExtents, if_pos hs]
      rfl
  · cases h
  · cases h
    refine ⟨rfl, rfl, rfl, ?_, ?_⟩
    · rw [FamfsLogFmap.mapExtents, if_neg hs, if_pos hi]
      rfl
    · rw [FamfsLogFmap.mapExtents, if_neg hs, if_pos hi, IocMap.mapExtents, List.map_map]
      rfl
  · cases h

theorem v2Map_returns (size : ℕ) (hone : OneInterleaved fm) :
    v2Map fm size = .ok (.error (-EINVAL)) ∨ ∃ map, v2Map fm size = .ok (.ok map) := by
  unfold v2Map
  split_ifs with hs hmax hi hover hmany
  · exact Or.inl rfl
  · exact Or.inr ⟨_, rfl⟩
  · exact Or.inl rfl
  · rcases hone hi with hle | hrefused
    · exact absurd hmany (not_lt.2 hle)
    · exact absurd ⟨(Nat.zero_le _).trans_lt hmany, hrefused⟩ hover
  · exact Or.inr ⟨_, rfl⟩
  · exact Or.inl rfl

end

/-- For every map of the log, a call on an open file installs it or refuses it, inside its arrays,
exactly when there is no second interleaved extent that it comes to. -/
theorem map_installed_iff {fd : ℤ} (hfd : 0 < fd) (size fileType : ℕ) (fm : FamfsLogFmap) :
    MapInstalled fd size fileType fm ↔ OneInterleaved fm := by
  constructor
  · rintro ⟨hin, -⟩ hi
    have hs : fm.fmapExtType ≠ FAMFS_EXT_SIMPLE := by rw [hi]; decide
    rw [tracedV2SetFileMap, if_neg (not_le.2 hfd), if_neg hs, if_pos hi, within_bind, tracedKie_within] at hin
    exact hin.1
  · intro hone
    refine ⟨?_, ?_⟩
    · rw [tracedV2SetFileMap, if_neg (not_le.2 hfd)]
      split_ifs with hs hmax hi
      · exact within_pure _
      · rw [within_touch_bind]
        exact ⟨pairs_inside (not_lt.1 hmax) fun j hj => hj, within_pure _⟩
      · rw [within_bind, tracedKie_within]
        exact ⟨hone hi, fun kie _ => within_pure _⟩
      · exact within_pure _
    · have hresult := tracedV2SetFileMap_result fd size fileType fm
      rw [if_neg (not_le.2 hfd)] at hresult
      rcases v2Map_returns size hone with hmap | ⟨map, hmap⟩
      · rw [hmap] at hresult
        exact Or.inl ⟨-EINVAL, by decide, hresult⟩
      · rw [hmap] at hresult
        exact Or.inr ⟨_, hresult, v2Map_denotes hmap⟩

/-- A map of `n` interleaved extents, the first of two strips. -/
def stripedMap (n : ℕ) : FamfsLogFmap :=
  ⟨FAMFS_EXT_INTERLEAVE, n, (((FamfsLogFmap.zero.setWord 0 2).setWord 1 2097152).setIeStrip 0 ⟨0, 8388608, 2097152⟩ |>.setIeStrip 1
    ⟨0, 10485760, 2097152⟩).words⟩

theorem map_installed_iff_two_strips : MapInstalled 3 4194304 0 (stripedMap 1) :=
  (map_installed_iff (by decide) 4194304 0 (stripedMap 1)).2 fun _ => Or.inl (by decide)

/-- A second interleaved extent is read past the map and stored past the array. -/
theorem map_out_of_bounds :
    ¬ MapInstalled 3 4194304 0 (stripedMap 2) ∧
    MapAccess.ie 1 ∈ (tracedV2SetFileMap 3 4194304 0 (stripedMap 2)).trace ∧
    MapAccess.kie 1 ∈ (tracedV2SetFileMap 3 4194304 0 (stripedMap 2)).trace := by
  have hread : MapAccess.ie 1 ∈ (tracedV2SetFileMap 3 4194304 0 (stripedMap 2)).trace := by decide
  have hstore : MapAccess.kie 1 ∈ (tracedV2SetFileMap 3 4194304 0 (stripedMap 2)).trace := by decide
  exact ⟨fun h => absurd (h.inside _ hread) (by decide), hread, hstore⟩

end Famfs

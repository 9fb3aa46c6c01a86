import Famfs.Proofs.FmapMessage
import Famfs.Proofs.YamlRoundTrip
import Famfs.Sanity.AllocFmap

/-! The maps that allocations return, word by word: one extent or one stripe set on the first device and
zeroes after it. Maps of this kind are in the range of everything that carries them further. -/

namespace Famfs

open Machine

inductive FamfsLogFmap.Issued (chunkSize : ℕ) (f : FamfsLogFmap) : Prop
  | contiguous (htype : f.fmapExtType = FAMFS_EXT_SIMPLE) (hone : f.fmapNextents = 1) (hdev : (f.se 0).seDevindex = 0)
      (hrest : ∀ i, 3 ≤ i → f.word i = 0) (hwords : ∀ i, f.word i < 2 ^ 64)
  | striped (htype : f.fmapExtType = FAMFS_EXT_INTERLEAVE) (hone : f.fmapNextents = 1) (hpos : 1 ≤ f.ieNstrips 0)
      (hmax : f.ieNstrips 0 ≤ FAMFS_MAX_SIMPLE_EXTENTS) (hchunk : f.ieChunkSize 0 = chunkSize)
      (hdev : ∀ j, (f.ieStrips 0 j).seDevindex = 0) (hrest : ∀ i, 2 + 3 * f.ieNstrips 0 ≤ i → f.word i = 0)
      (hwords : ∀ i, f.word i < 2 ^ 64)

section

variable {f : FamfsLogFmap} {chunkSize : ℕ}

theorem fits_of_words (hone : f.fmapNextents = 1) (htype : f.fmapExtType < 2 ^ 32) (hwords : ∀ i, f.word i < 2 ^ 64) :
    f.Fits := by
  refine ⟨htype, by rw [hone]; norm_num, fun k => ?_⟩
  have hk := hwords k
  rw [FamfsLogFmap.word, dif_pos k.isLt] at hk
  exact hk

theorem FamfsLogFmap.Issued.fits (h : f.Issued chunkSize) : f.Fits := by
  cases h with
  | contiguous htype hone _ _ hwords => exact fits_of_words hone (by rw [htype]; decide) hwords
  | striped htype hone _ _ _ _ _ hwords => exact fits_of_words hone (by rw [htype]; decide) hwords

theorem FamfsLogFmap.Issued.mapped (h : f.Issued chunkSize) : f.Mapped := by
  cases h with
  | contiguous htype hone _ hrest _ =>
    refine .simple htype (by rw [hone]) (by rw [hone]; decide) fun i hi => hrest i ?_
    rw [hone] at hi
    exact hi
  | striped htype hone hpos hmax _ _ hrest _ => exact .interleaved htype hone hpos hmax hrest

theorem FamfsLogFmap.Issued.carried (h : f.Issued chunkSize) (hchunk : chunkSize < 2 ^ 32) : f.Carried := by
  intro htype
  cases h with
  | contiguous hsimple _ _ _ _ =>
    rw [hsimple] at htype
    exact absurd htype (by decide)
  | striped _ _ _ _ hsize hdev _ _ => exact ⟨by rw [hsize]; exact hchunk, fun j _ => hdev j⟩

theorem FamfsLogFmap.Issued.fileMap_extents {m : FamfsLogFileMeta} (h : m.fmFmap.Issued chunkSize) :
    m.fileMap.extents = m.fmFmap.extents := by
  cases h with
  | contiguous htype hone _ _ _ =>
    simp only [FamfsLogFileMeta.fileMap, htype, show FAMFS_EXT_SIMPLE ≠ FAMFS_EXT_INTERLEAVE by decide, if_false,
      FamfsLogFmap.extents, if_true, FamfsLogFmap.extentRow, Nat.zero_add]
    rfl
  | striped htype hone _ _ _ _ _ _ =>
    rw [extents_interleave htype hone]
    simp only [FamfsLogFileMeta.fileMap, htype, if_true, FamfsLogFmap.extentRow]
    rfl

end

theorem word_setExtent (f : FamfsLogFmap) {k : ℕ} (hk : k + 2 < 50) (e : FamfsSimpleExtent) (i : ℕ) :
    (f.setExtentAt k e).word i = if i = k + 2 then e.seLen else if i = k + 1 then e.seOffset else
      if i = k then e.seDevindex else f.word i := by
  unfold FamfsLogFmap.setExtentAt
  rw [FamfsLogFmap.word_setWord _ (by omega), FamfsLogFmap.word_setWord _ (by omega),
    FamfsLogFmap.word_setWord _ (by omega)]

theorem roundSizeToAllocUnit_lt (size : ℕ) : roundSizeToAllocUnit size < 2 ^ 64 := Nat.mod_lt _ (by norm_num)

theorem bitmapAllocContiguous_lt (bitmap : Bitmap) (nbits allocUnit allocSize curPos rangeSize : ℕ) :
    (bitmapAllocContiguous bitmap nbits allocUnit allocSize curPos rangeSize).1.toNat < 2 ^ 63 := by
  rcases bitmapAllocContiguous_cases bitmap nbits allocUnit allocSize curPos rangeSize with ⟨-, h⟩ | ⟨p, -, -, h⟩
  · rw [h]
    norm_num
  · rw [h]
    simp only [s64, u64]
    split_ifs <;> omega

theorem contiguousFmap_issued {offset : ℕ} (hoffset : offset < 2 ^ 63) (size chunkSize : ℕ) :
    (contiguousFmap offset size).Issued chunkSize := by
  have hword : ∀ i, (contiguousFmap offset size).word i = if i = 2 then roundSizeToAllocUnit size else
      if i = 1 then offset else 0 := by
    intro i
    refine (word_setExtent FamfsLogFmap.zero (show 0 + 2 < 50 by norm_num) _ i).trans ?_
    simp only [word_zero, Nat.zero_add, ite_self]
  refine .contiguous rfl rfl (hword 0) (fun i hi => ?_) fun i => ?_
  · rw [hword, if_neg (by omega), if_neg (by omega)]
  · have hround := roundSizeToAllocUnit_lt size
    rw [hword]
    split_ifs <;> omega

structure Filling (p : FamfsInterleaveParam) (st : StripState) : Prop where
  head : st.fmap.head = (stripedFmap p).head
  count : st.nstripsAllocated ≤ p.nstrips
  slots : st.nstripsAllocated ≤ 16
  dev : ∀ j, (st.fmap.ieStrips 0 j).seDevindex = 0
  rest : ∀ i, 2 + 3 * st.nstripsAllocated ≤ i → st.fmap.word i = 0
  words : ∀ i, st.fmap.word i < 2 ^ 64

section

variable {p : FamfsInterleaveParam} {g : StripeGeometry}

theorem filling_start (hn : p.nstrips < 2 ^ 64) (hc : p.chunkSize < 2 ^ 64) (bs : BucketSeries) (bm : Bitmap) :
    Filling p ⟨bs, bm, stripedFmap p, 0, 0⟩ := by
  have hword : ∀ i, (stripedFmap p).word i = if i = 1 then p.chunkSize else if i = 0 then p.nstrips else 0 := by
    intro i
    refine (FamfsLogFmap.word_setWord _ (by norm_num) _ i).trans ?_
    rw [FamfsLogFmap.word_setWord _ (by norm_num), word_zero]
  refine ⟨rfl, Nat.zero_le _, Nat.zero_le _, fun j => ?_, fun i hi => ?_, fun i => ?_⟩
  · rw [stripedFmap_slots]
  · change (stripedFmap p).word i = 0
    rw [hword, if_neg (by omega), if_neg (by omega)]
  · change (stripedFmap p).word i < 2 ^ 64
    rw [hword]
    split_ifs <;> omega

theorem Filling.step {st st' : StripState} {done : Bool} (h : Filling p st) (hg : g.nstrips = p.nstrips)
    (hroom : st.nstripsAllocated < p.nstrips) (hstep : stripStep g st = .ok (done, st')) :
    Filling p st' ∧ (done = false → st'.nstripsAllocated < p.nstrips) := by
  rcases stripStep_cases hstep with ⟨-, rfl, -, hf, hn, -⟩ | ⟨-, hlt, -, hf, hn, hdone, -⟩
  · refine ⟨⟨by rw [hf]; exact h.head, by rw [hn]; exact h.count, by rw [hn]; exact h.slots, by rw [hf]; exact h.dev,
      by rw [hf, hn]; exact h.rest, by rw [hf]; exact h.words⟩, fun _ => by rw [hn]; exact hroom⟩
  · have hoff : (stripSearch g st).1.toNat < 2 ^ 63 := bitmapAllocContiguous_lt ..
    have hlen : u64 (g.stripSizeAu * g.allocUnit) < 2 ^ 64 := Nat.mod_lt _ (by norm_num)
    have hword := word_setExtent st.fmap (show 2 + 3 * st.nstripsAllocated + 2 < 50 by omega)
      ⟨0, (stripSearch g st).1.toNat, u64 (g.stripSizeAu * g.allocUnit)⟩
    rw [← FamfsLogFmap.setIeStrip, ← hf] at hword
    refine ⟨⟨?_, by omega, by omega, fun j => ?_, fun i hi => ?_, fun i => ?_⟩, fun hnot => ?_⟩
    · rw [hf, setIeStrip_head _ hlt]
      exact h.head
    · by_cases hj : j = st.nstripsAllocated
      · rw [hf, hj, setIeStrip_self _ hlt]
      · rw [hf, setIeStrip_ne _ hlt hj]
        exact h.dev j
    · rw [hn] at hi
      rw [hword, if_neg (by omega), if_neg (by omega), if_neg (by omega)]
      exact h.rest i (by omega)
    · have hi := h.words i
      rw [hword]
      dsimp only
      split_ifs <;> omega
    · rw [hn]
      by_contra hfull
      have := hdone.2 (by omega)
      rw [hnot] at this
      cases this

theorem Filling.loop {fuel : ℕ} {st st' : StripState} (h : Filling p st) (hg : g.nstrips = p.nstrips)
    (hroom : st.nstripsAllocated < p.nstrips) (hloop : stripLoop g fuel st = .ok st') : Filling p st' := by
  induction fuel generalizing st with
  | zero =>
    cases hloop
    exact h
  | succ fuel ih =>
    rw [stripLoop, Runs.bind_eq_ok] at hloop
    obtain ⟨⟨done, st1⟩, h1, h2⟩ := hloop
    obtain ⟨hfill, hnext⟩ := h.step hg hroom h1
    cases done with
    | true =>
      cases h2
      exact hfill
    | false => exact ih hfill (hnext rfl) h2

end

section

variable {lp lp' : FamfsLockedLog} {host : AllocHost} {size : ℕ} {rc : ℤ} {f : FamfsLogFmap}

theorem contiguous_issued (chunkSize : ℕ) (h : famfsFileAllocContiguous host lp size = .ok (rc, some f, lp')) :
    f.Issued chunkSize := by
  simp only [famfsFileAllocContiguous] at h
  split_ifs at h with hm hlt hz
  · cases h
  · cases h
    exact contiguousFmap_issued (bitmapAllocContiguous_lt ..) size chunkSize

theorem Filling.issued {p : FamfsInterleaveParam} {st : StripState} (h : Filling p st) (hpos : p.nstrips ≠ 0)
    (hall : p.nstrips ≤ st.nstripsAllocated) :
    FamfsLogFmap.Issued p.chunkSize { st.fmap with fmapNextents := 1 } := by
  have hhead := h.head
  have hcount := h.count
  have hslots := h.slots
  rw [stripedFmap_head] at hhead
  simp only [FamfsLogFmap.head, Prod.mk.injEq] at hhead
  obtain ⟨htype, -, hstrips, hchunk⟩ := hhead
  have hn : FamfsLogFmap.ieNstrips { st.fmap with fmapNextents := 1 } 0 = p.nstrips := hstrips
  refine .striped htype rfl (by omega) ?_ hchunk h.dev (fun i hi => ?_) h.words
  · rw [hn]
    exact hall.trans hslots
  · rw [hn] at hi
    exact h.rest i (by omega)

theorem strided_issued (hn : lp.interleaveParam.nstrips < 2 ^ 64) (hc : lp.interleaveParam.chunkSize < 2 ^ 64)
    (h : famfsFileStridedAlloc host lp size = .ok (rc, some f, lp')) : f.Issued lp.interleaveParam.chunkSize := by
  simp only [famfsFileStridedAlloc] at h
  split_ifs at h with hval hnn hsmall hzero hmod hdev hmem
  · cases h
  · exact contiguous_issued _ h
  · cases h
  · rw [Runs.bind_eq_ok] at h
    obtain ⟨st, hloop, hfin⟩ := h
    push Not at hzero
    obtain ⟨-, hpos, -⟩ := hzero
    have hfill := (filling_start hn hc _ _).loop rfl (Nat.pos_of_ne_zero hpos) hloop
    simp only [finishStrips] at hfin
    split_ifs at hfin with hfew
    · rw [Runs.bind_eq_ok] at hfin
      obtain ⟨bm, -, hret⟩ := hfin
      cases hret
    · cases hfin
      exact hfill.issued hpos (not_lt.1 hfew)

theorem famfsFileAlloc_issued {crc32 : Crc32} {kabi : ℕ} (hn : lp.interleaveParam.nstrips < 2 ^ 64)
    (hc : lp.interleaveParam.chunkSize < 2 ^ 64)
    (h : famfsFileAlloc crc32 kabi host lp size = .ok (rc, some f, lp')) : f.Issued lp.interleaveParam.chunkSize := by
  rw [famfsFileAlloc] at h
  split_ifs at h with hmem
  · cases h
  · rw [Runs.bind_eq_ok] at h
    obtain ⟨lp1, hens, h⟩ := h
    have hparam := (ensureBitmap_same hens).2
    split_ifs at h with hkabi hcont
    · cases h
    · exact contiguous_issued _ h
    · rw [← hparam] at hn hc ⊢
      exact strided_issued hn hc h

end

end Famfs

import Famfs.Sanity.AllocStrips
import Famfs.Proofs.AllocRuns

/-! What every successful allocation returns, whatever the device and the log: a map of
one extent that passes the offset check of a replay, and a session with the same log. -/

namespace Famfs

open Machine

structure SameSession (lp lp' : FamfsLockedLog) : Prop where
  logp : lp'.logp = lp.logp
  famfsType : lp'.famfsType = lp.famfsType
  mpt : lp'.mpt = lp.mpt
  shadowRoot : lp'.shadowRoot = lp.shadowRoot

theorem SameSession.trans {a b c : FamfsLockedLog} (h1 : SameSession a b) (h2 : SameSession b c) :
    SameSession a c :=
  ⟨h2.logp.trans h1.logp, h2.famfsType.trans h1.famfsType, h2.mpt.trans h1.mpt,
    h2.shadowRoot.trans h1.shadowRoot⟩

/-- One extent of a known kind, and none at offset 0 by the simple reading of the map. -/
structure Replayable (fmap : FamfsLogFmap) : Prop where
  one : fmap.fmapNextents = 1
  offset : (fmap.se 0).seOffset ≠ 0
  kind : fmap.fmapExtType = FAMFS_EXT_SIMPLE ∨
    (fmap.fmapExtType = FAMFS_EXT_INTERLEAVE ∧ fmap.ieNstrips 0 ≤ FAMFS_MAX_SIMPLE_EXTENTS)

theorem contiguousFmap_replayable {offset : ℕ} (h : offset ≠ 0) (size : ℕ) :
    Replayable (contiguousFmap offset size) := by
  refine ⟨rfl, ?_, Or.inl rfl⟩
  have := FamfsLogFmap.extentAt_setExtentAt_self FamfsLogFmap.zero (k := 0) (by norm_num)
    ⟨0, offset, roundSizeToAllocUnit size⟩
  have hse : (contiguousFmap offset size).se 0 = ⟨0, offset, roundSizeToAllocUnit size⟩ := this
  rw [hse]
  exact h

section

variable {lp lp' : FamfsLockedLog} {host : AllocHost} {size : ℕ} {rc : ℤ} {fmap : Option FamfsLogFmap}

theorem contiguous_replayable (h : famfsFileAllocContiguous host lp size = .ok (rc, fmap, lp')) :
    SameSession lp lp' ∧ ∀ f, fmap = some f → Replayable f := by
  simp only [famfsFileAllocContiguous] at h
  split_ifs at h with hm hlt hz
  · cases h
    exact ⟨⟨rfl, rfl, rfl, rfl⟩, fun f hf => by cases hf⟩
  · cases h
    refine ⟨⟨rfl, rfl, rfl, rfl⟩, fun f hf => ?_⟩
    cases hf
    exact contiguousFmap_replayable (by omega) size

theorem stripLoop_head {g : StripeGeometry} {fuel : ℕ} {st st' : StripState}
    (h : stripLoop g fuel st = .ok st') (hcount : st.nstripsAllocated ≤ FAMFS_MAX_SIMPLE_EXTENTS) :
    st'.fmap.head = st.fmap.head ∧ st'.nstripsAllocated ≤ FAMFS_MAX_SIMPLE_EXTENTS := by
  induction fuel generalizing st with
  | zero =>
    cases h
    exact ⟨rfl, hcount⟩
  | succ fuel ih =>
    rw [stripLoop, Runs.bind_eq_ok] at h
    obtain ⟨⟨done, st1⟩, h1, h2⟩ := h
    have hone : st1.fmap.head = st.fmap.head ∧ st1.nstripsAllocated ≤ FAMFS_MAX_SIMPLE_EXTENTS := by
      rcases stripStep_cases h1 with ⟨-, -, -, hf, hn, -⟩ | ⟨-, hlt, -, hf, hn, -, -⟩
      · rw [hf, hn]
        exact ⟨rfl, hcount⟩
      · rw [hf, hn, setIeStrip_head _ hlt]
        exact ⟨rfl, hlt⟩
    cases done with
    | true =>
      cases h2
      exact hone
    | false =>
      obtain ⟨hhead, hle⟩ := ih h2 hone.2
      exact ⟨hhead.trans hone.1, hle⟩

theorem strided_replayable (h : famfsFileStridedAlloc host lp size = .ok (rc, fmap, lp')) :
    SameSession lp lp' ∧ ∀ f, fmap = some f → Replayable f := by
  simp only [famfsFileStridedAlloc] at h
  split_ifs at h with hval hnn hsmall hzero hmod hdev hmem
  · cases h
    exact ⟨⟨rfl, rfl, rfl, rfl⟩, fun f hf => by cases hf⟩
  · obtain ⟨hs, hf⟩ := contiguous_replayable h
    exact ⟨⟨hs.logp, hs.famfsType, hs.mpt, hs.shadowRoot⟩, hf⟩
  · cases h
    exact ⟨⟨rfl, rfl, rfl, rfl⟩, fun f hf => by cases hf⟩
  · rw [Runs.bind_eq_ok] at h
    obtain ⟨st, hloop, hfin⟩ := h
    obtain ⟨hhead, hcount⟩ := stripLoop_head hloop (Nat.zero_le _)
    rw [stripedFmap_head] at hhead
    simp only [finishStrips] at hfin
    split_ifs at hfin with hfew
    · rw [Runs.bind_eq_ok] at hfin
      obtain ⟨bm, -, hret⟩ := hfin
      cases hret
      exact ⟨⟨rfl, rfl, rfl, rfl⟩, fun f hf => by cases hf⟩
    · cases hfin
      refine ⟨⟨rfl, rfl, rfl, rfl⟩, fun f hf => ?_⟩
      cases hf
      simp only [FamfsLogFmap.head, Prod.mk.injEq] at hhead
      refine ⟨rfl, ?_, Or.inr ⟨hhead.1, ?_⟩⟩
      · push Not at hzero
        obtain ⟨-, hpos, -, -⟩ := famfsValidateInterleaveParam_zero (not_not.mp hval) (by omega)
        -- the first simple extent has the chunk size where its offset would be
        have hse : (FamfsLogFmap.se { st.fmap with fmapNextents := 1 } 0).seOffset = st.fmap.ieChunkSize 0 := rfl
        rw [hse, hhead.2.2.2]
        omega
      · have hstrips : FamfsLogFmap.ieNstrips { st.fmap with fmapNextents := 1 } 0 = st.fmap.ieNstrips 0 := rfl
        rw [hstrips, hhead.2.2.1]
        exact (not_lt.1 hfew).trans hcount

theorem ensureBitmap_same {crc32 : Crc32} (h : ensureBitmap crc32 lp = .ok lp') :
    SameSession lp lp' ∧ lp'.interleaveParam = lp.interleaveParam := by
  cases hb : lp.bitmap with
  | some bm =>
    simp only [ensureBitmap, hb] at h
    cases h
    exact ⟨⟨rfl, rfl, rfl, rfl⟩, rfl⟩
  | none =>
    simp only [ensureBitmap, hb] at h
    rw [Runs.bind_eq_ok] at h
    obtain ⟨b, -, hret⟩ := h
    cases hret
    exact ⟨⟨rfl, rfl, rfl, rfl⟩, rfl⟩

theorem famfsFileAlloc_replayable {crc32 : Crc32} {kabi : ℕ}
    (h : famfsFileAlloc crc32 kabi host lp size = .ok (rc, fmap, lp')) :
    SameSession lp lp' ∧ ∀ f, fmap = some f → Replayable f := by
  rw [famfsFileAlloc] at h
  split_ifs at h with hmem
  · cases h
    exact ⟨⟨rfl, rfl, rfl, rfl⟩, fun f hf => by cases hf⟩
  · rw [Runs.bind_eq_ok] at h
    obtain ⟨lp1, hens, h⟩ := h
    obtain ⟨hsame, -⟩ := ensureBitmap_same hens
    split_ifs at h with hkabi hcont
    · cases h
      exact ⟨hsame, fun f hf => by cases hf⟩
    · obtain ⟨h1, h2⟩ := contiguous_replayable h
      exact ⟨hsame.trans h1, h2⟩
    · obtain ⟨h1, h2⟩ := strided_replayable h
      exact ⟨hsame.trans h1, h2⟩

theorem famfsFileAlloc_simple {crc32 : Crc32} {kabi : ℕ} (hk : kabi ≤ 42)
    (h : famfsFileAlloc crc32 kabi host lp size = .ok (rc, fmap, lp')) :
    ∀ f, fmap = some f → f.fmapExtType = FAMFS_EXT_SIMPLE := by
  intro f hf
  rw [famfsFileAlloc] at h
  split_ifs at h with hmem
  · cases h
    cases hf
  · rw [Runs.bind_eq_ok] at h
    obtain ⟨lp1, -, h⟩ := h
    split_ifs at h with hkabi hcont
    · cases h
      cases hf
    · simp only [famfsFileAllocContiguous] at h
      split_ifs at h with hm hlt hz
      · cases h
        cases hf
      · cases h
        cases hf
        rfl
    · exact absurd ⟨hk, Bool.eq_true_of_not_eq_false hcont⟩ hkabi

end

end Famfs

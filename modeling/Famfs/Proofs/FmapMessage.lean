import Famfs.Spec.Alloc
import Famfs.Spec.Fmap
import Famfs.Spec.LogReader

/-! What the kernel reads out of the message. A simple map arrives as it is. The strips of
an interleaved map are put through a structure whose device index is a 16-bit field two
bytes further on, and the chunk size through a 32-bit field. -/

namespace Famfs

open Machine Buffer

section

variable (buf : Buf) (off : ℕ) (e : FamfsSimpleExtent)

theorem kernelSimpleExt_congr {a b : Buf} {off : ℕ} (h : Agree a b off 24) : kernelSimpleExt a off = kernelSimpleExt b off := by
  unfold kernelSimpleExt
  rw [load_congr (h.mono (by omega) (by omega) : Agree a b off 4), load_congr (h.mono (by omega) (by omega) : Agree a b (off + 8) 8),
    load_congr (h.mono (by omega) (by omega) : Agree a b (off + 16) 8)]

theorem kernelSimpleExt_fuse (abi : FuseAbi) :
    kernelSimpleExt (putFuseSimpleExt abi buf off e) off = ⟨u32 e.seDevindex, u64 e.seOffset, u64 e.seLen⟩ := by
  unfold kernelSimpleExt putFuseSimpleExt
  rw [load_store_of_disjoint _ (by omega), load_store_of_disjoint _ (by omega), load_store,
    load_store_of_disjoint _ (by omega), load_store, load_store]
  rfl

theorem kernelSimpleExt_fmap (hzero : Agree buf (fun _ => 0) off 24) :
    kernelSimpleExt (putFmapSimpleExt buf off e) off =
      ⟨2 ^ 16 * (e.seDevindex % 2 ^ 16), u64 e.seOffset, u64 e.seLen⟩ := by
  have hlow : load buf off 2 = 0 := load_congr (hzero.mono (by omega) (by omega) : Agree buf _ off 2)
  unfold kernelSimpleExt putFmapSimpleExt
  rw [load_store_of_disjoint _ (by omega), load_store_of_disjoint _ (by omega), load_add _ off 2 2,
    load_store_of_disjoint _ (by omega), hlow, load_store, load_store_of_disjoint _ (by omega), load_store, load_store]
  norm_num [u64]

end

theorem writes_fuse {abi : FuseAbi} (habi : abi.Packed) : Buffer.Writes (putFuseSimpleExt abi) 24 where
  outside := fun buf off x off' k' h => by
    have := habi.simpleExt
    unfold putFuseSimpleExt
    exact (store_agree _ (by omega) _).trans ((store_agree _ (by omega) _).trans
      ((store_agree _ (by omega) _).trans (store_agree _ (by omega) _)))
  inside := fun a b off x h => store_congr (store_congr (store_congr (store_congr h _ _ _) _ _ _) _ _ _) _ _ _

theorem writes_fmap : Buffer.Writes putFmapSimpleExt 24 where
  outside := fun buf off x off' k' h => by
    unfold putFmapSimpleExt
    exact (store_agree _ (by omega) _).trans ((store_agree _ (by omega) _).trans (store_agree _ (by omega) _))
  inside := fun a b off x h => store_congr (store_congr (store_congr h _ _ _) _ _ _) _ _ _

/-- Maps of one kind: up to 16 extents, or one interleaved extent of up to 16 strips, on
devices whose index has 32 bits. -/
inductive FamfsLogFmap.OneMap (f : FamfsLogFmap) : Prop
  | simple (htype : f.fmapExtType = FAMFS_EXT_SIMPLE) (hpos : 1 ≤ f.fmapNextents)
      (hmax : f.fmapNextents ≤ FAMFS_MAX_SIMPLE_EXTENTS) (hdev : ∀ j < f.fmapNextents, (f.se j).seDevindex < 2 ^ 32)
  | interleaved (htype : f.fmapExtType = FAMFS_EXT_INTERLEAVE) (hone : f.fmapNextents = 1) (hpos : 1 ≤ f.ieNstrips 0)
      (hmax : f.ieNstrips 0 ≤ FAMFS_MAX_SIMPLE_EXTENTS)
      (hdev : ∀ j < f.ieNstrips 0, (f.ieStrips 0 j).seDevindex < 2 ^ 32)

def FamfsLogFmap.Carried (f : FamfsLogFmap) : Prop :=
  f.fmapExtType = FAMFS_EXT_INTERLEAVE →
    f.ieChunkSize 0 < 2 ^ 32 ∧ ∀ j < f.ieNstrips 0, (f.ieStrips 0 j).seDevindex = 0

def receivedStrip (e : FamfsSimpleExtent) : FamfsSimpleExtent := { e with seDevindex := 2 ^ 16 * (e.seDevindex % 2 ^ 16) }

def sentHeader (abi : FuseAbi) (msg : Buf) (fileType : ℕ) (m : FamfsLogFileMeta) : Buf :=
  putNextents (putFmapHeader abi msg fileType m.fmFmap.fmapExtType m.fmSize) m.fmFmap.fmapNextents

theorem header_loads (abi : FuseAbi) (msg : Buf) (fileType : ℕ) (m : FamfsLogFileMeta) :
    load (sentHeader abi msg fileType m) 4 4 = u32 m.fmFmap.fmapExtType ∧
      load (sentHeader abi msg fileType m) 8 4 = u32 m.fmFmap.fmapNextents ∧
      load (sentHeader abi msg fileType m) 16 8 = u64 m.fmSize := by
  unfold sentHeader putNextents putFmapHeader
  refine ⟨?_, ?_, ?_⟩
  · rw [load_store_of_disjoint _ (by omega), load_store_of_disjoint _ (by omega), load_store]
    rfl
  · rw [load_store]
    rfl
  · rw [load_store_of_disjoint _ (by omega), load_store]
    rfl

theorem word_lt {f : FamfsLogFmap} (hf : f.Fits) (i : ℕ) : f.word i < 2 ^ 64 := by
  unfold FamfsLogFmap.word
  split_ifs with hi
  · exact hf.words ⟨i, hi⟩
  · norm_num

theorem extentAt_u64 {f : FamfsLogFmap} (hf : f.Fits) (k : ℕ) :
    u64 (f.extentAt k).seOffset = (f.extentAt k).seOffset ∧ u64 (f.extentAt k).seLen = (f.extentAt k).seLen :=
  ⟨u64_of_lt (word_lt hf (k + 1)), u64_of_lt (word_lt hf (k + 2))⟩

theorem receivedStrip_eq_iff {e : FamfsSimpleExtent} : receivedStrip e = e ↔ e.seDevindex = 0 := by
  obtain ⟨dev, off, len⟩ := e
  simp only [receivedStrip, FamfsSimpleExtent.mk.injEq, and_true]
  omega

theorem extentRow_get (f : FamfsLogFmap) (base : ℕ) {n j : ℕ} (hj : j < n) :
    (f.extentRow base n)[j]? = some (f.extentAt (base + 3 * j)) := by
  unfold FamfsLogFmap.extentRow
  rw [List.getElem?_map, List.getElem?_range hj, Option.map_some]

section

variable {abi : FuseAbi} (habi : abi.Packed) {m : FamfsLogFileMeta} {msg out : Buf} {msgSize fileType : ℕ} {rc : ℤ}

theorem not_nonneg_einval : ¬ 0 ≤ -EINVAL := by decide

include habi

theorem simple_sent (htype : m.fmFmap.fmapExtType = FAMFS_EXT_SIMPLE)
    (hsent : famfsLogFileMetaToMsg abi msg msgSize fileType m = .ok (rc, out)) (hrc : 0 ≤ rc) :
    out = putRow (putFuseSimpleExt abi) 24
      (store (sentHeader abi msg fileType m) 32
        (m.fmFmap.fmapNextents * 24) 0) 32 (m.fmFmap.extentRow 0 m.fmFmap.fmapNextents) := by
  simp only [famfsLogFileMetaToMsg, simpleToMsg, htype, if_true, habi.header, habi.simpleExt] at hsent
  split_ifs at hsent <;> simp only [Except.ok.injEq, Prod.mk.injEq] at hsent
  · exact absurd (hsent.1 ▸ hrc) not_nonneg_einval
  · exact absurd (hsent.1 ▸ hrc) not_nonneg_einval
  · rw [← hsent.2, sentHeader, htype]

theorem interleaved_sent (htype : m.fmFmap.fmapExtType = FAMFS_EXT_INTERLEAVE) (hone : m.fmFmap.fmapNextents = 1)
    (hmax : m.fmFmap.ieNstrips 0 ≤ FAMFS_MAX_SIMPLE_EXTENTS)
    (hsent : famfsLogFileMetaToMsg abi msg msgSize fileType m = .ok (rc, out)) (hrc : 0 ≤ rc) :
    out = putRow putFmapSimpleExt 24
      (store (putFuseIext (store (sentHeader abi msg fileType m) 32 24 0)
        32 (m.fmFmap.ieNstrips 0) (m.fmFmap.ieChunkSize 0) m.fmSize) 56 (m.fmFmap.ieNstrips 0 * 24) 0) 56
      (m.fmFmap.extentRow 2 (m.fmFmap.ieNstrips 0)) := by
  have hmax' : m.fmFmap.ieNstrips 0 ≤ 16 := hmax
  have hn : u32 (m.fmFmap.ieNstrips 0) = m.fmFmap.ieNstrips 0 := u32_of_lt (by omega)
  simp only [famfsLogFileMetaToMsg, htype, show FAMFS_EXT_INTERLEAVE ≠ FAMFS_EXT_SIMPLE by decide, if_true, if_false,
    hone, interleavedToMsg, habi.header, habi.iext, hn, show u32 (32 + 24) = 56 from rfl, show ¬ 1 ≤ 0 by omega, Nat.mul_zero, Nat.add_zero,
    Nat.zero_add] at hsent
  split_ifs at hsent <;> simp only [Except.ok.injEq, Prod.mk.injEq] at hsent
  · exact absurd (hsent.1 ▸ hrc) not_nonneg_einval
  · exact absurd (hsent.1 ▸ hrc) not_nonneg_einval
  · exact absurd (hsent.1 ▸ hrc) not_nonneg_einval
  · rw [← hsent.2, sentHeader, htype, hone]

omit habi in
theorem kernel_header {body : Buf} (hhead : Agree body (sentHeader abi msg fileType m) 0 32) :
    load body 4 4 = u32 m.fmFmap.fmapExtType ∧ load body 8 4 = u32 m.fmFmap.fmapNextents ∧
      load body 16 8 = u64 m.fmSize := by
  obtain ⟨h4, h8, h16⟩ := header_loads abi msg fileType m
  rw [load_congr (hhead.mono (by omega) (by omega) : Agree body _ 4 4),
    load_congr (hhead.mono (by omega) (by omega) : Agree body _ 8 4),
    load_congr (hhead.mono (by omega) (by omega) : Agree body _ 16 8)]
  exact ⟨h4, h8, h16⟩

theorem simple_received (hsize : m.fmSize < 2 ^ 64) (hfits : m.fmFmap.Fits)
    (htype : m.fmFmap.fmapExtType = FAMFS_EXT_SIMPLE)
    (hdev : ∀ j < m.fmFmap.fmapNextents, (m.fmFmap.se j).seDevindex < 2 ^ 32)
    (hsent : famfsLogFileMetaToMsg abi msg msgSize fileType m = .ok (rc, out)) (hrc : 0 ≤ rc) :
    kernelFmap abi out = m.fileMap := by
  have hout := simple_sent habi htype hsent hrc
  have hhead : Agree out (sentHeader abi msg fileType m) 0 32 := by
    rw [hout]
    exact (putRow_before (writes_fuse habi) (by omega)).trans (store_agree _ (by omega) _)
  obtain ⟨h4, h8, h16⟩ := kernel_header hhead
  rw [u32_of_lt hfits.extType] at h4
  rw [u32_of_lt hfits.nextents] at h8
  rw [u64_of_lt hsize] at h16
  have hne : ¬ m.fmFmap.fmapExtType = FAMFS_EXT_INTERLEAVE := by
    rw [htype]
    decide
  have hrows : (List.range m.fmFmap.fmapNextents).map (fun j => kernelSimpleExt out (32 + 24 * j)) =
      m.fmFmap.extentRow 0 m.fmFmap.fmapNextents := by
    apply List.map_congr_left
    intro j hj
    have hj := List.mem_range.1 hj
    have hrow := putRow_get (writes_fuse habi) (store (sentHeader abi msg fileType m) 32 (m.fmFmap.fmapNextents * 24) 0) 32 (extentRow_get m.fmFmap 0 hj)
    rw [← hout, Nat.zero_add] at hrow
    have hd : u32 (m.fmFmap.extentAt (3 * j)).seDevindex = (m.fmFmap.extentAt (3 * j)).seDevindex := u32_of_lt (hdev j hj)
    obtain ⟨hofs, hlen⟩ := extentAt_u64 hfits (3 * j)
    rw [kernelSimpleExt_congr hrow, kernelSimpleExt_fuse, Nat.zero_add, hd, hofs, hlen]
  simp only [kernelFmap, FamfsLogFileMeta.fileMap, h4, h8, h16, if_neg hne, habi.header, habi.simpleExt, hrows]

theorem interleaved_received (hsize : m.fmSize < 2 ^ 64) (hfits : m.fmFmap.Fits)
    (htype : m.fmFmap.fmapExtType = FAMFS_EXT_INTERLEAVE) (hone : m.fmFmap.fmapNextents = 1)
    (hmax : m.fmFmap.ieNstrips 0 ≤ FAMFS_MAX_SIMPLE_EXTENTS)
    (hsent : famfsLogFileMetaToMsg abi msg msgSize fileType m = .ok (rc, out)) (hrc : 0 ≤ rc) :
    kernelFmap abi out =
      ⟨m.fmSize, FAMFS_EXT_INTERLEAVE, (m.fmFmap.extentRow 2 (m.fmFmap.ieNstrips 0)).map receivedStrip,
        some (u32 (m.fmFmap.ieChunkSize 0))⟩ := by
  have hmax' : m.fmFmap.ieNstrips 0 ≤ 16 := hmax
  have hout := interleaved_sent habi htype hone hmax hsent hrc
  have hbefore : ∀ {off k : ℕ}, off + k ≤ 56 → Agree out (putFuseIext (store (sentHeader abi msg fileType m) 32 24 0) 32 (m.fmFmap.ieNstrips 0) (m.fmFmap.ieChunkSize 0)
      m.fmSize) off k := by
    intro off k h
    rw [hout]
    exact (putRow_before writes_fmap h).trans (store_agree _ (by omega) _)
  have hhead : Agree out (sentHeader abi msg fileType m) 0 32 := by
    refine (hbefore (by omega)).trans ?_
    unfold putFuseIext
    exact (store_agree _ (by omega) _).trans ((store_agree _ (by omega) _).trans
      ((store_agree _ (by omega) _).trans (store_agree _ (by omega) _)))
  obtain ⟨h4, -, h16⟩ := kernel_header hhead
  rw [u32_of_lt hfits.extType] at h4
  rw [u64_of_lt hsize] at h16
  have hn : load out 32 4 = m.fmFmap.ieNstrips 0 := by
    rw [load_congr (hbefore (by omega))]
    unfold putFuseIext
    rw [load_store_of_disjoint _ (by omega), load_store_of_disjoint _ (by omega), load_store]
    exact u32_of_lt (by omega)
  have hchunk : load out 36 4 = u32 (m.fmFmap.ieChunkSize 0) := by
    rw [load_congr (hbefore (by omega))]
    unfold putFuseIext
    rw [load_store_of_disjoint _ (by omega), load_store]
    rfl
  have hrows : (List.range (m.fmFmap.ieNstrips 0)).map (fun j => kernelSimpleExt out (56 + 24 * j)) =
      (m.fmFmap.extentRow 2 (m.fmFmap.ieNstrips 0)).map receivedStrip := by
    unfold FamfsLogFmap.extentRow
    rw [List.map_map]
    apply List.map_congr_left
    intro j hj
    have hj := List.mem_range.1 hj
    have hrow := putRow_get writes_fmap (store (putFuseIext (store (sentHeader abi msg fileType m) 32 24 0) 32 (m.fmFmap.ieNstrips 0) (m.fmFmap.ieChunkSize 0) m.fmSize) 56
      (m.fmFmap.ieNstrips 0 * 24) 0) 56 (extentRow_get m.fmFmap 2 hj)
    rw [← hout] at hrow
    rw [kernelSimpleExt_congr hrow, kernelSimpleExt_fmap _ _ _ ?_]
    · obtain ⟨hofs, hlen⟩ := extentAt_u64 hfits (2 + 3 * j)
      rw [hofs, hlen]
      rfl
    · intro i hi hlt
      unfold store
      rw [if_pos (by omega), Nat.zero_div]
      rfl
  simp only [kernelFmap, habi.header, habi.iext, habi.simpleExt, Nat.reduceAdd, h4, h16, hn, hchunk, htype, if_true, hrows]

theorem message_decodes_iff (hsize : m.fmSize < 2 ^ 64) (hfits : m.fmFmap.Fits) (hmap : m.fmFmap.OneMap)
    (hsent : famfsLogFileMetaToMsg abi msg msgSize fileType m = .ok (rc, out)) (hrc : 0 ≤ rc) :
    kernelFmap abi out = m.fileMap ↔ m.fmFmap.Carried := by
  cases hmap with
  | simple htype hpos hmax hdev =>
    have hne : ¬ m.fmFmap.fmapExtType = FAMFS_EXT_INTERLEAVE := by
      rw [htype]
      decide
    exact ⟨fun _ h => absurd h hne, fun _ => simple_received habi hsize hfits htype hdev hsent hrc⟩
  | interleaved htype hone hpos hmax hdev =>
    rw [interleaved_received habi hsize hfits htype hone hmax hsent hrc]
    simp only [FamfsLogFileMeta.fileMap, htype, if_true, FileMap.mk.injEq, true_and, Option.some.injEq,
      FamfsLogFmap.Carried, forall_const, FamfsLogFmap.extentRow, List.map_map, List.map_inj_left, List.mem_range,
      Function.comp_apply, receivedStrip_eq_iff]
    have hchunk : u32 (m.fmFmap.ieChunkSize 0) = m.fmFmap.ieChunkSize 0 ↔ m.fmFmap.ieChunkSize 0 < 2 ^ 32 := by
      simp only [u32]
      omega
    rw [hchunk, and_comm]
    rfl

end

/-- A file of 8 GiB in two strips, the second one on device `dev`. -/
def twoStrips (chunkSize dev : ℕ) : FamfsLogFileMeta :=
  ⟨2 ^ 33, 0, 0, 0, 0o644, [102],
    { (((FamfsLogFmap.zero.setWord 0 2).setWord 1 chunkSize).setIeStrip 0 ⟨0, 2 ^ 30, 2 ^ 32⟩).setIeStrip 1
        ⟨dev, 2 ^ 34, 2 ^ 32⟩ with
      fmapExtType := FAMFS_EXT_INTERLEAVE
      fmapNextents := 1 }⟩

theorem twoStrips_sent (chunkSize dev : ℕ) :
    ∃ out, famfsLogFileMetaToMsg packedAbi (fun _ => 0) 4096 0 (twoStrips chunkSize dev) = .ok (104, out) := ⟨_, rfl⟩

theorem message_decodes_two_strips :
    ∃ out, famfsLogFileMetaToMsg packedAbi (fun _ => 0) 4096 0 (twoStrips (2 ^ 21) 0) = .ok (104, out) ∧
      kernelFmap packedAbi out = (twoStrips (2 ^ 21) 0).fileMap := by
  obtain ⟨out, hsent⟩ := twoStrips_sent (2 ^ 21) 0
  have hmap : (twoStrips (2 ^ 21) 0).fmFmap.OneMap := .interleaved rfl rfl (by decide) (by decide) (by decide)
  have hcarried : (twoStrips (2 ^ 21) 0).fmFmap.Carried := fun _ => ⟨by decide, by decide⟩
  exact ⟨out, hsent, (message_decodes_iff packedAbi_packed (by decide) ⟨by decide, by decide, by decide⟩ hmap hsent (by decide)).2
    hcarried⟩

/-- The second strip arrives on device 65536 instead of 1, and a chunk size of 4 GiB, which
the parameter check admits, arrives as 0. -/
theorem message_loses_strips :
    famfsValidateInterleaveParam ⟨2, 2, 2 ^ 21⟩ FAMFS_ALLOC_UNIT (2 ^ 36) = 0 ∧
      famfsValidateInterleaveParam ⟨2, 2, 2 ^ 32⟩ FAMFS_ALLOC_UNIT (2 ^ 36) = 0 ∧
      (∃ out, famfsLogFileMetaToMsg packedAbi (fun _ => 0) 4096 0 (twoStrips (2 ^ 21) 1) = .ok (104, out) ∧
        kernelFmap packedAbi out ≠ (twoStrips (2 ^ 21) 1).fileMap ∧ (kernelFmap packedAbi out).extents.map (·.seDevindex) = [0, 65536]) ∧
      ∃ out, famfsLogFileMetaToMsg packedAbi (fun _ => 0) 4096 0 (twoStrips (2 ^ 32) 0) = .ok (104, out) ∧
        kernelFmap packedAbi out ≠ (twoStrips (2 ^ 32) 0).fileMap ∧ (kernelFmap packedAbi out).chunkSize = some 0 := by
  obtain ⟨out, hsent⟩ := twoStrips_sent (2 ^ 21) 1
  obtain ⟨out', hsent'⟩ := twoStrips_sent (2 ^ 32) 0
  refine ⟨by decide, by decide, ⟨out, hsent, ?_⟩, ⟨out', hsent', ?_⟩⟩
  · rw [interleaved_received packedAbi_packed (by decide) ⟨by decide, by decide, by decide⟩ rfl rfl (by decide) hsent (by decide)]
    exact ⟨by decide, by decide⟩
  · rw [interleaved_received packedAbi_packed (by decide) ⟨by decide, by decide, by decide⟩ rfl rfl (by decide) hsent' (by decide)]
    exact ⟨by decide, by decide⟩

end Famfs

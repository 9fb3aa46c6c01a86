import Famfs.Sanity.AllocLayout

/-! Striped allocation against layouts: the loop over buckets places strips one by
one, and a set that stays incomplete gives all of them back. -/

namespace Famfs

open Machine Intervals

variable {cs : List Seg} {bitmap bitmap' : Bitmap}

theorem bitmapFreeContiguous_ok {nbits au offset len : ℕ}
    (h : bitmapFreeContiguous bitmap nbits au offset len = .ok bitmap') :
    bitmap'.bits = bitmap.bits ∧ ∀ b, muBitmapTest bitmap' b =
      (muBitmapTest bitmap b && !decide (Seg.Has (offset / au, u64 (len + au - 1) / au) b)) := by
  simp only [bitmapFreeContiguous] at h
  split_ifs at h
  exact freeRun_ok h

def freedUnits (au : ℕ) (e : FamfsSimpleExtent) : Seg := (e.seOffset / au, u64 (e.seLen + au - 1) / au)

theorem freedUnits_unitExtent {c : Seg} (hlt : c.2 ≤ 2 ^ 31) :
    freedUnits FAMFS_ALLOC_UNIT (unitExtent c) = c := by
  obtain ⟨i, n⟩ := c
  simp only [freedUnits, unitExtent, FAMFS_ALLOC_UNIT] at *
  rw [u64_of_lt (by omega), Nat.mul_div_cancel _ (by norm_num)]
  congr 1
  omega

theorem freeStrips_succ {g : StripeGeometry} {fmap : FamfsLogFmap} {i : ℕ} :
    freeStrips g bitmap fmap (i + 1) = .ok bitmap' ↔ ∃ bm, freeStrips g bitmap fmap i = .ok bm ∧
      bitmapFreeContiguous bm g.nbits g.allocUnit (fmap.ieStrips 0 i).seOffset (fmap.ieStrips 0 i).seLen = .ok bitmap' := by
  rw [freeStrips, List.range_succ, List.foldlM_append, Runs.bind_eq_ok]
  refine exists_congr fun bm => and_congr Iff.rfl ?_
  simp only [List.foldlM_cons, List.foldlM_nil, bind_pure]

theorem freeStrips_ok {g : StripeGeometry} {fmap : FamfsLogFmap} {i : ℕ}
    (h : freeStrips g bitmap fmap i = .ok bitmap') :
    bitmap'.bits = bitmap.bits ∧ ∀ b, muBitmapTest bitmap' b = true ↔
      muBitmapTest bitmap b = true ∧ ∀ j < i, ¬ (freedUnits g.allocUnit (fmap.ieStrips 0 j)).Has b := by
  induction i generalizing bitmap' with
  | zero =>
    cases h
    simp
  | succ i ih =>
    obtain ⟨bm, h1, h2⟩ := freeStrips_succ.1 h
    obtain ⟨hb1, ht1⟩ := ih h1
    obtain ⟨hb2, ht2⟩ := bitmapFreeContiguous_ok h2
    refine ⟨hb2.trans hb1, fun b => ?_⟩
    rw [ht2, Bool.and_eq_true, ht1, Nat.forall_lt_succ_right, and_assoc]
    simp [freedUnits]

/-- What giving back slot `j` asks for: the run ends inside the bitmap, starts at a unit, and
all of it is still set after the earlier slots. -/
structure Freeable (g : StripeGeometry) (bitmap : Bitmap) (fmap : FamfsLogFmap) (j : ℕ) : Prop where
  inside : (freedUnits g.allocUnit (fmap.ieStrips 0 j)).1 + (freedUnits g.allocUnit (fmap.ieStrips 0 j)).2 ≤ g.nbits
  aligned : (fmap.ieStrips 0 j).seOffset % g.allocUnit = 0
  run : ∀ b, (freedUnits g.allocUnit (fmap.ieStrips 0 j)).Has b → muBitmapTest bitmap b = true ∧
    ∀ k < j, ¬ (freedUnits g.allocUnit (fmap.ieStrips 0 k)).Has b

theorem bitmapFreeContiguous_ok_iff (bitmap : Bitmap) (nbits au : ℕ) (e : FamfsSimpleExtent) :
    (∃ bitmap', bitmapFreeContiguous bitmap nbits au e.seOffset e.seLen = .ok bitmap') ↔
      (freedUnits au e).1 + (freedUnits au e).2 ≤ nbits ∧ e.seOffset % au = 0 ∧
        ∀ b, (freedUnits au e).Has b → muBitmapTest bitmap b = true := by
  rw [freedUnits, ← freeRun_ok_iff]
  simp only [bitmapFreeContiguous]
  split_ifs with hend halign
  · simp only [exists_false, false_iff]
    omega
  · simp [halign]
  · rw [ne_eq, not_not] at halign
    simp [halign, not_lt.1 hend]

theorem freeStrips_ok_iff (g : StripeGeometry) (bitmap : Bitmap) (fmap : FamfsLogFmap) (i : ℕ) :
    (∃ bitmap', freeStrips g bitmap fmap i = .ok bitmap') ↔ ∀ j < i, Freeable g bitmap fmap j := by
  induction i with
  | zero => simpa using ⟨bitmap, rfl⟩
  | succ i ih =>
    have hslot : ∀ {bm : Bitmap}, freeStrips g bitmap fmap i = .ok bm →
        ((∃ bm', bitmapFreeContiguous bm g.nbits g.allocUnit (fmap.ieStrips 0 i).seOffset (fmap.ieStrips 0 i).seLen =
          .ok bm') ↔ Freeable g bitmap fmap i) := by
      intro bm hbm
      rw [bitmapFreeContiguous_ok_iff]
      simp only [(freeStrips_ok hbm).2]
      exact ⟨fun h => ⟨h.1, h.2.1, h.2.2⟩, fun h => ⟨h.inside, h.aligned, h.run⟩⟩
    constructor
    · rintro ⟨bm', h⟩
      obtain ⟨bm, hbm, hfree⟩ := freeStrips_succ.1 h
      rw [Nat.forall_lt_succ_right]
      exact ⟨ih.1 ⟨bm, hbm⟩, (hslot hbm).1 ⟨bm', hfree⟩⟩
    · intro hall
      rw [Nat.forall_lt_succ_right] at hall
      obtain ⟨bm, hbm⟩ := ih.2 hall.1
      obtain ⟨bm', hfree⟩ := (hslot hbm).2 hall.2
      exact ⟨bm', freeStrips_succ.2 ⟨bm, hbm, hfree⟩⟩

/-- The loop has placed the segments `cs` after the layout it started from, and the
first slots of the map name them. -/
structure StripsPlaced {N : ℕ} (L : Layout N) (n : ℕ) (st : StripState) (cs : List Seg) : Prop where
  shows : ∃ L' : Layout N, L'.segs = L.segs ++ cs ∧ Shows L' st.bitmap
  count : st.nstripsAllocated = cs.length
  slots : ∀ j, st.fmap.ieStrips 0 j = (cs.map unitExtent).getD j ⟨0, 0, 0⟩
  sizes : ∀ c ∈ cs, c.2 = n

def FamfsLogFmap.head (f : FamfsLogFmap) : ℕ × ℕ × ℕ × ℕ :=
  (f.fmapExtType, f.fmapNextents, f.ieNstrips 0, f.ieChunkSize 0)

theorem setIeStrip_head (f : FamfsLogFmap) {k : ℕ} (hk : k < 16) (e : FamfsSimpleExtent) :
    (f.setIeStrip k e).head = f.head := by
  have hword : ∀ i < 2, (f.setIeStrip k e).word i = f.word i := by
    intro i hi
    simp only [FamfsLogFmap.setIeStrip, FamfsLogFmap.setExtentAt]
    rw [FamfsLogFmap.word_setWord _ (by omega), if_neg (by omega), FamfsLogFmap.word_setWord _ (by omega),
      if_neg (by omega), FamfsLogFmap.word_setWord _ (by omega), if_neg (by omega)]
  simp only [FamfsLogFmap.head, FamfsLogFmap.ieNstrips, FamfsLogFmap.ieChunkSize]
  rw [hword _ (by norm_num), hword _ (by norm_num)]
  rfl

theorem setIeStrip_self (f : FamfsLogFmap) {k : ℕ} (hk : k < 16) (e : FamfsSimpleExtent) :
    (f.setIeStrip k e).ieStrips 0 k = e := by
  simp only [FamfsLogFmap.ieStrips, FamfsLogFmap.setIeStrip, Nat.mul_zero, Nat.zero_add]
  exact FamfsLogFmap.extentAt_setExtentAt_self _ (by omega) e

theorem setIeStrip_ne (f : FamfsLogFmap) {k j : ℕ} (hk : k < 16) (hj : j ≠ k) (e : FamfsSimpleExtent) :
    (f.setIeStrip k e).ieStrips 0 j = f.ieStrips 0 j := by
  simp only [FamfsLogFmap.ieStrips, FamfsLogFmap.setIeStrip, Nat.mul_zero, Nat.zero_add]
  exact FamfsLogFmap.extentAt_setExtentAt_ne _ (by omega) (by omega) e

theorem setIeStrip_slots {f : FamfsLogFmap} (hlen : cs.length < 16)
    (h : ∀ j, f.ieStrips 0 j = (cs.map unitExtent).getD j ⟨0, 0, 0⟩) (c : Seg) (j : ℕ) :
    (f.setIeStrip cs.length (unitExtent c)).ieStrips 0 j =
      ((cs ++ [c]).map unitExtent).getD j ⟨0, 0, 0⟩ := by
  rcases Nat.lt_trichotomy j cs.length with hj | rfl | hj
  · rw [setIeStrip_ne f hlen (by omega), h]
    simp [List.getD_eq_getElem?_getD, List.getElem?_append, hj]
  · rw [setIeStrip_self f hlen]
    simp [List.getD_eq_getElem?_getD]
  · rw [setIeStrip_ne f hlen (by omega), h]
    simp [List.getD_eq_getElem?_getD, hj, Nat.le_of_lt hj]

theorem stripStep_cases {g : StripeGeometry} {st st' : StripState} {done : Bool}
    (h : stripStep g st = .ok (done, st')) :
    ((stripSearch g st).1 ≤ 0 ∧ done = false ∧ st'.bitmap = (stripSearch g st).2.1 ∧
      st'.fmap = st.fmap ∧ st'.nstripsAllocated = st.nstripsAllocated ∧ st'.i = st.i + 1) ∨
    (0 < (stripSearch g st).1 ∧ st.nstripsAllocated < 16 ∧ st'.bitmap = (stripSearch g st).2.1 ∧
      st'.fmap = st.fmap.setIeStrip st.nstripsAllocated
        ⟨0, (stripSearch g st).1.toNat, u64 (g.stripSizeAu * g.allocUnit)⟩ ∧
      st'.nstripsAllocated = st.nstripsAllocated + 1 ∧
      (done = true ↔ g.nstrips ≤ st.nstripsAllocated + 1) ∧ (done = false → st'.i = st.i + 1)) := by
  simp only [stripStep] at h
  split_ifs at h with hfound hmax hlast
  · cases h
    exact Or.inr ⟨hfound, not_le.mp hmax, rfl, rfl, rfl, by simpa using hlast, by simp⟩
  · cases h
    exact Or.inr ⟨hfound, not_le.mp hmax, rfl, rfl, rfl, by simpa using hlast, by simp⟩
  · cases h
    exact Or.inl ⟨not_lt.mp hfound, rfl, rfl, rfl, rfl, rfl⟩

structure StripeGeometry.Sane (g : StripeGeometry) (N : ℕ) : Prop where
  nbits : g.nbits = N
  unit : g.allocUnit = FAMFS_ALLOC_UNIT
  bits : N ≤ 2 ^ 30
  pos : 0 < g.stripSizeAu
  bound : g.stripSizeAu ≤ 2 ^ 31

section

variable {N : ℕ} {L : Layout N} {g : StripeGeometry}

theorem stripLen (hg : g.Sane N) : u64 (g.stripSizeAu * g.allocUnit) = g.stripSizeAu * FAMFS_ALLOC_UNIT := by
  have := hg.bound
  rw [hg.unit, u64_of_lt]
  simp only [FAMFS_ALLOC_UNIT]
  omega

theorem stripStep_placed (hg : g.Sane N) (h0 : Covers L.segs 0) {st st' : StripState}
    (hp : StripsPlaced L g.stripSizeAu st cs) (hlt : cs.length < g.nstrips) (hi : cs.length ≤ st.i)
    {done : Bool} (h : stripStep g st = .ok (done, st')) :
    ∃ cs', StripsPlaced L g.stripSizeAu st' cs' ∧ st'.fmap.head = st.fmap.head ∧
      (done = true → cs'.length = g.nstrips) ∧
      (done = false → cs'.length < g.nstrips ∧ cs'.length ≤ st'.i) := by
  obtain ⟨L1, hL1, hs1⟩ := hp.shows
  have hlen := stripLen hg
  have hbound := hg.bound
  have hbits : allocBits FAMFS_ALLOC_UNIT (u64 (g.stripSizeAu * g.allocUnit)) = g.stripSizeAu := by
    rw [hlen]
    simp only [allocBits, FAMFS_ALLOC_UNIT]
    rw [u64_of_lt (by omega)]
    omega
  have h01 : Covers L1.segs 0 := by rw [hL1, covers_append]; exact Or.inl h0
  have hcall : stripSearch g st = bitmapAllocContiguous st.bitmap N FAMFS_ALLOC_UNIT
      (u64 (g.stripSizeAu * g.allocUnit)) (bucketPos g st.bs) (u64 (g.bucketSizeAu * g.allocUnit)) := by
    rw [stripSearch, hg.nbits, hg.unit]
  have hsearch := bitmapAllocContiguous_shows hg.bits hs1 h01 hbits hg.pos hbound (bucketPos g st.bs)
    (u64 (g.bucketSizeAu * g.allocUnit))
  rw [← hcall] at hsearch
  rcases stripStep_cases h with ⟨hno, rfl, hbm, hf, hn, hi'⟩ | ⟨hyes, hmax, hbm, hf, hn, hd, hi'⟩
  · rcases hsearch with heq | ⟨i, pos, bm, L2, hipos, heq, -, -⟩
    · rw [heq] at hbm
      refine ⟨cs, ⟨⟨L1, hL1, hbm ▸ hs1⟩, hn.trans hp.count, hf ▸ hp.slots, hp.sizes⟩, by rw [hf],
        fun hd => absurd hd Bool.false_ne_true, fun _ => ⟨hlt, by omega⟩⟩
    · rw [heq] at hno
      simp only [FAMFS_ALLOC_UNIT] at hno
      omega
  · rcases hsearch with heq | ⟨i, pos, bm, L2, hipos, heq, hL2, hs2⟩
    · rw [heq] at hyes
      simp only at hyes
      omega
    · simp only [heq, hlen, Int.toNat_natCast] at hbm hf
      rw [hp.count] at hmax hf hn hd
      refine ⟨cs ++ [(i, g.stripSizeAu)], ⟨⟨L2, ?_, hbm ▸ hs2⟩, by simpa using hn, ?_, ?_⟩, ?_, ?_, ?_⟩
      · rw [hL2, hL1, List.append_assoc]
      · intro j
        rw [hf]
        exact setIeStrip_slots hmax hp.slots (i, g.stripSizeAu) j
      · intro c hc
        rcases List.mem_append.mp hc with hc | hc
        · exact hp.sizes c hc
        · rw [List.mem_singleton.mp hc]
      · rw [hf]
        exact setIeStrip_head _ hmax _
      · intro hdone
        have := hd.mp hdone
        simp only [List.length_append, List.length_singleton]
        omega
      · intro hmore
        have hnot : ¬ g.nstrips ≤ cs.length + 1 := fun hle => by
          rw [hd.mpr hle] at hmore
          exact Bool.false_ne_true hmore.symm
        have := hi' hmore
        simp only [List.length_append, List.length_singleton]
        omega

theorem stripLoop_placed (hg : g.Sane N) (h0 : Covers L.segs 0) {fuel : ℕ} {st st' : StripState}
    (hp : StripsPlaced L g.stripSizeAu st cs) (hlt : cs.length < g.nstrips)
    (hi : cs.length ≤ st.i) (h : stripLoop g fuel st = .ok st') :
    ∃ cs', StripsPlaced L g.stripSizeAu st' cs' ∧ st'.fmap.head = st.fmap.head ∧
      (cs'.length = g.nstrips ∨ cs'.length < g.nstrips ∧ cs'.length ≤ st'.i) := by
  induction fuel generalizing st cs with
  | zero =>
    cases h
    exact ⟨cs, hp, rfl, Or.inr ⟨hlt, hi⟩⟩
  | succ fuel ih =>
    rw [stripLoop, Runs.bind_eq_ok] at h
    obtain ⟨⟨done, st1⟩, h1, h2⟩ := h
    obtain ⟨cs1, hp1, hhead, hdone, hmore⟩ := stripStep_placed hg h0 hp hlt hi h1
    cases done with
    | true =>
      cases h2
      exact ⟨cs1, hp1, hhead, Or.inl (hdone rfl)⟩
    | false =>
      obtain ⟨hlt1, hi1⟩ := hmore rfl
      obtain ⟨cs2, hp2, hhead2, hend⟩ := ih hp1 hlt1 hi1 h2
      exact ⟨cs2, hp2, hhead2.trans hhead, hend⟩

theorem freeStrips_shows (hg : g.Sane N) {st : StripState}
    (hp : StripsPlaced L g.stripSizeAu st cs) (hi : cs.length ≤ st.i) {bitmap : Bitmap}
    (h : freeStrips g st.bitmap st.fmap st.i = .ok bitmap) : Shows L bitmap := by
  obtain ⟨L1, hL1, hs1⟩ := hp.shows
  obtain ⟨hbits, htest⟩ := freeStrips_ok h
  have hfreed : ∀ b, (∀ j < st.i, ¬ (freedUnits g.allocUnit (st.fmap.ieStrips 0 j)).Has b) ↔
      ¬ Covers cs b := by
    intro b
    have hslot : ∀ j, (freedUnits g.allocUnit (st.fmap.ieStrips 0 j)).Has b ↔
        ∃ c, cs[j]? = some c ∧ c.Has b := by
      intro j
      rw [hp.slots, hg.unit, List.getD_eq_getElem?_getD, List.getElem?_map]
      cases hc : cs[j]? with
      | none =>
        -- a slot that was never filled covers no unit
        have hz : freedUnits FAMFS_ALLOC_UNIT ⟨0, 0, 0⟩ = (0, 0) := by decide
        simp [hz, Seg.not_has_zero]
      | some c =>
        have hsz := hp.sizes c (List.mem_of_getElem? hc)
        have hb := hg.bound
        simp [freedUnits_unitExtent (show c.2 ≤ 2 ^ 31 by omega)]
    simp only [hslot]
    constructor
    · rintro hno ⟨c, hc, hcb⟩
      obtain ⟨j, hj, rfl⟩ := List.mem_iff_getElem.mp hc
      exact hno j (by omega) ⟨_, List.getElem?_eq_getElem hj, hcb⟩
    · rintro hno j - ⟨c, hc, hcb⟩
      exact hno ⟨c, List.mem_of_getElem? hc, hcb⟩
  refine ⟨by rw [hbits]; exact hs1.bits, fun b hb => ?_⟩
  rw [htest, hfreed, hs1.shown b hb, L1.covers_left hL1]

end

theorem famfsValidateInterleaveParam_zero {p : FamfsInterleaveParam} {au devsize : ℕ}
    (h : famfsValidateInterleaveParam p au devsize = 0) (hn : 1 ≤ p.nstrips) :
    p.chunkSize % au = 0 ∧ 0 < p.chunkSize ∧ 0 < p.nbuckets ∧ 2 ^ 30 ≤ devsize / p.nbuckets := by
  simp only [famfsValidateInterleaveParam, EINVAL] at h
  split_ifs at h <;> omega

theorem famfsValidateInterleaveParam_pow {p : FamfsInterleaveParam} {au devsize : ℕ}
    (h : famfsValidateInterleaveParam p au devsize = 0) (hn : 1 ≤ p.nstrips) : ∃ k, p.chunkSize = 2 ^ k := by
  have hpos := (famfsValidateInterleaveParam_zero h hn).2.1
  refine eq_two_pow_of_and_pred ?_ hpos.ne'
  simp only [famfsValidateInterleaveParam, EINVAL] at h
  split_ifs at h <;> omega

theorem stripedFmap_head (p : FamfsInterleaveParam) :
    (stripedFmap p).head = (FAMFS_EXT_INTERLEAVE, 0, p.nstrips, p.chunkSize) := rfl

theorem stripedFmap_slots (p : FamfsInterleaveParam) (j : ℕ) :
    (stripedFmap p).ieStrips 0 j = ⟨0, 0, 0⟩ := by
  have hword : ∀ i, 2 ≤ i → (stripedFmap p).word i = 0 := by
    intro i hi
    have h0 : (stripedFmap p).word i =
        ((FamfsLogFmap.zero.setWord 0 p.nstrips).setWord 1 p.chunkSize).word i := rfl
    rw [h0, FamfsLogFmap.word_setWord _ (by norm_num), if_neg (by omega),
      FamfsLogFmap.word_setWord _ (by norm_num), if_neg (by omega)]
    simp [FamfsLogFmap.word, FamfsLogFmap.zero]
  simp only [FamfsLogFmap.ieStrips, FamfsLogFmap.extentAt]
  rw [hword _ (by omega), hword _ (by omega), hword _ (by omega)]

end Famfs

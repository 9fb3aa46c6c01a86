import Famfs.Proofs.AllocRuns
import Famfs.Sanity.AllocPasses

/-! When an allocation stays inside the device. The bitmap has a bit for a last unit
that is only partly there, the room a search believes in is counted from the cursor
and not from the start, and past the end of a bucket it wraps. So a search can take
a run that crosses the end of the device. It does so exactly when it may take some
run, but none of those lies inside. -/

namespace Famfs

open Machine Intervals Relation

variable {g : StripeGeometry}

def FamfsSimpleExtent.Inside (e : FamfsSimpleExtent) (devsize : ℕ) : Prop :=
  e.seOffset + e.seLen ≤ devsize

/-- Some run of free units at or after `pos` that is long enough ends inside the
device. -/
def FreeInside (devsize : ℕ) (bitmap : Bitmap) (size pos : ℕ) : Prop :=
  ∃ p, pos / FAMFS_ALLOC_UNIT ≤ p ∧
    (∀ b, Seg.Has (p, allocBits FAMFS_ALLOC_UNIT size) b → muBitmapTest bitmap b = false) ∧
    (p + allocBits FAMFS_ALLOC_UNIT size) * FAMFS_ALLOC_UNIT ≤ devsize

/-- Nothing to take in the next bucket or after it, or something to take that ends
inside the device. -/
def StripFits (devsize : ℕ) (g : StripeGeometry) (st : StripState) : Prop :=
  let len := u64 (g.stripSizeAu * g.allocUnit)
  let Takes := Candidate st.bitmap g.nbits g.allocUnit len (bucketPos g st.bs)
    (u64 (g.bucketSizeAu * g.allocUnit))
  (∀ p, ¬ Takes p) ∨ ∃ p, Takes p ∧ (p + allocBits g.allocUnit len) * g.allocUnit ≤ devsize

/-- When a call that succeeds stays inside: a contiguous one if there is a free run
inside, a striped one if each of its searches fits. A file smaller than a chunk is
contiguous, and searched for from the start of the device. -/
def AllocFits (host : AllocHost) (lp : FamfsLockedLog) (size : ℕ) : Prop :=
  if allocIsInterleaved lp = false then FreeInside lp.devsize lp.bits size lp.curPos
  else if size < lp.interleaveParam.chunkSize then FreeInside lp.devsize lp.bits size 0
  else ∀ st ∈ stripHeads (stripeGeometry lp size) lp.interleaveParam.nbuckets
      ⟨bucketSeriesAlloc host.rand lp.interleaveParam.nbuckets 0, lp.bits,
        stripedFmap lp.interleaveParam, 0, 0⟩,
    StripFits lp.devsize (stripeGeometry lp size) st

theorem bitmapNbits_lt (devsize : ℕ) : bitmapNbits devsize FAMFS_ALLOC_UNIT < 2 ^ 43 := by
  simp only [bitmapNbits, u64, FAMFS_ALLOC_UNIT]
  omega

section

variable {devsize : ℕ} (hdev : devsize < 2 ^ 63)

include hdev

theorem lt_bitmapNbits {p : ℕ} :
    p < bitmapNbits devsize FAMFS_ALLOC_UNIT ↔ p * FAMFS_ALLOC_UNIT < devsize := by
  simp only [bitmapNbits, FAMFS_ALLOC_UNIT]
  rw [u64_of_lt (by omega)]
  omega

theorem search_first (bitmap : Bitmap) {nbits : ℕ} (allocSize pos rangeSize : ℕ)
    (hnb : nbits = bitmapNbits devsize FAMFS_ALLOC_UNIT) :
    ((bitmapAllocContiguous bitmap nbits FAMFS_ALLOC_UNIT allocSize pos rangeSize).1 ≤ 0 ∧
      ((∀ p, ¬ Candidate bitmap nbits FAMFS_ALLOC_UNIT allocSize pos rangeSize p) ∨
        Candidate bitmap nbits FAMFS_ALLOC_UNIT allocSize pos rangeSize 0)) ∨
    ∃ p : ℕ, 0 < p ∧
      (bitmapAllocContiguous bitmap nbits FAMFS_ALLOC_UNIT allocSize pos rangeSize).1 =
        ((p * FAMFS_ALLOC_UNIT : ℕ) : ℤ) ∧
      Candidate bitmap nbits FAMFS_ALLOC_UNIT allocSize pos rangeSize p ∧
      ∀ q, Candidate bitmap nbits FAMFS_ALLOC_UNIT allocSize pos rangeSize q → p ≤ q := by
  rcases bitmapAllocContiguous_cases bitmap nbits FAMFS_ALLOC_UNIT allocSize pos rangeSize with
    ⟨hno, heq⟩ | ⟨p, hp, hmin, heq⟩
  · refine Or.inl ⟨?_, Or.inl hno⟩
    rw [heq]
    norm_num
  · have hlt := (lt_bitmapNbits hdev).mp (hnb ▸ hp.1)
    have hs : s64 (p * FAMFS_ALLOC_UNIT) = ((p * FAMFS_ALLOC_UNIT : ℕ) : ℤ) := s64_of_lt (by omega)
    rcases Nat.eq_zero_or_pos p with rfl | hpos
    · refine Or.inl ⟨?_, Or.inr hp⟩
      rw [heq, hs]
      simp
    · exact Or.inr ⟨p, hpos, by rw [heq, hs], hp, hmin⟩

theorem candidate_of_inside {bitmap : Bitmap} {nbits size pos p : ℕ}
    (hnb : nbits = bitmapNbits devsize FAMFS_ALLOC_UNIT) (hn : 0 < allocBits FAMFS_ALLOC_UNIT size)
    (hle : pos / FAMFS_ALLOC_UNIT ≤ p)
    (hfree : ∀ b, Seg.Has (p, allocBits FAMFS_ALLOC_UNIT size) b → muBitmapTest bitmap b = false)
    (hin : (p + allocBits FAMFS_ALLOC_UNIT size) * FAMFS_ALLOC_UNIT ≤ devsize) :
    Candidate bitmap nbits FAMFS_ALLOC_UNIT size pos 0 p := by
  unfold Candidate
  generalize allocBits FAMFS_ALLOC_UNIT size = n at hn hfree hin ⊢
  generalize pos / FAMFS_ALLOC_UNIT = s at hle ⊢
  have hend : p + n - 1 < nbits := by
    rw [hnb, lt_bitmapNbits hdev]
    simp only [FAMFS_ALLOC_UNIT] at hin ⊢
    omega
  have hbits : nbits < 2 ^ 43 := by rw [hnb]; exact bitmapNbits_lt devsize
  refine ⟨by omega, hle, hfree p ⟨le_rfl, by simpa using hn⟩, hfree, fun q hq hqp _ => ?_⟩
  rw [rangeBits, if_neg (by simp), sub64_of_le (by omega) (by omega)]
  omega

theorem contiguous_inside_iff (lp : FamfsLockedLog) {lp' : FamfsLockedLog} (hd : lp.devsize = devsize)
    (hau : lp.allocUnit = FAMFS_ALLOC_UNIT) (hnb : lp.nbits = bitmapNbits devsize FAMFS_ALLOC_UNIT)
    {host : AllocHost} {size : ℕ} (h1 : 1 ≤ size) (h2 : size ≤ devsize) {fmap : FamfsLogFmap}
    (h : famfsFileAllocContiguous host lp size = .ok (0, some fmap, lp')) :
    (∀ e ∈ fmap.extents, e.Inside devsize) ↔ FreeInside lp.devsize lp.bits size lp.curPos := by
  obtain ⟨hn, -, hround⟩ := allocBits_size h1 (show size < 2 ^ 63 by omega)
  simp only [famfsFileAllocContiguous, hau] at h
  rw [hd]
  rcases search_first hdev lp.bits size lp.curPos 0 hnb with ⟨hneg, -⟩ | ⟨p, hpos, heq, hp, hmin⟩
  · split_ifs at h with hm hlt hz
    · simp only [Except.ok.injEq, Prod.mk.injEq] at h
      exact absurd h.1 (by decide)
    · omega
  · simp only [heq] at h
    split_ifs at h with hm hlt hz
    · simp only [Except.ok.injEq, Prod.mk.injEq] at h
      exact absurd h.1 (by decide)
    · simp only [Except.ok.injEq, Prod.mk.injEq, Option.some.injEq] at h
      rw [← h.2.1, contiguousFmap_extents, List.forall_mem_singleton, Int.toNat_natCast, hround,
        FamfsSimpleExtent.Inside]
      simp only
      rw [← Nat.add_mul]
      constructor
      · intro hin
        exact ⟨p, hp.2.from_le, hp.2.run, hin⟩
      · rintro ⟨q, hle, hfree, hin⟩
        have hpq := hmin q (candidate_of_inside hdev hnb hn hle hfree hin)
        exact le_trans (Nat.mul_le_mul_right _ (by omega)) hin

structure StripeGeometry.Bucketed (g : StripeGeometry) (devsize : ℕ) : Prop where
  nbits : g.nbits = bitmapNbits devsize FAMFS_ALLOC_UNIT
  unit : g.allocUnit = FAMFS_ALLOC_UNIT
  pos : 0 < g.bucketSizeAu
  bound : g.bucketSizeAu * FAMFS_ALLOC_UNIT ≤ devsize

omit hdev in
theorem stripLen_units (k : ℕ) :
    u64 (k * FAMFS_ALLOC_UNIT) =
      allocBits FAMFS_ALLOC_UNIT (u64 (k * FAMFS_ALLOC_UNIT)) * FAMFS_ALLOC_UNIT := by
  simp only [allocBits, u64, FAMFS_ALLOC_UNIT]
  omega

theorem stripFits_of_first (hg : g.Bucketed devsize) {st : StripState}
    (h : Candidate st.bitmap g.nbits g.allocUnit (u64 (g.stripSizeAu * g.allocUnit))
      (bucketPos g st.bs) (u64 (g.bucketSizeAu * g.allocUnit)) 0) : StripFits devsize g st := by
  have hpos := hg.pos
  have hbound := hg.bound
  refine Or.inr ⟨0, h, ?_⟩
  obtain ⟨h0, hsel⟩ := h
  rw [hg.unit] at hsel ⊢
  have hrange : rangeBits g.nbits FAMFS_ALLOC_UNIT (u64 (g.bucketSizeAu * FAMFS_ALLOC_UNIT)) =
      g.bucketSizeAu := by
    have hne : g.bucketSizeAu * FAMFS_ALLOC_UNIT ≠ 0 := Nat.mul_ne_zero (by omega) (by decide)
    rw [u64_of_lt (by omega), rangeBits, if_pos hne]
    simp only [FAMFS_ALLOC_UNIT] at hbound ⊢
    rw [u64_of_lt (by omega)]
    omega
  have hroom := hsel.room 0 hsel.from_le le_rfl hsel.clear
  rw [hrange, Nat.le_zero.mp hsel.from_le, Nat.zero_add,
    sub64_of_le (by simp only [FAMFS_ALLOC_UNIT] at hbound; omega) (Nat.zero_le _)] at hroom
  refine le_trans (Nat.mul_le_mul_right _ ?_) hbound
  omega

/-- What a stretch of the loop stores, and when all of that is inside. -/
structure StripsTaken (devsize : ℕ) (g : StripeGeometry) (heads : List StripState)
    (st st' : StripState) : Prop where
  head : st'.fmap.head = st.fmap.head
  grows : st.nstripsAllocated ≤ st'.nstripsAllocated
  bound : st'.nstripsAllocated ≤ g.nstrips
  old : ∀ j < st.nstripsAllocated, st'.fmap.ieStrips 0 j = st.fmap.ieStrips 0 j
  inside : (∀ j, st.nstripsAllocated ≤ j → j < st'.nstripsAllocated →
    (st'.fmap.ieStrips 0 j).Inside devsize) ↔ ∀ s ∈ heads, StripFits devsize g s

theorem stripStep_taken (hg : g.Bucketed devsize) {st st' : StripState}
    {done : Bool} (hlt : st.nstripsAllocated < g.nstrips) (h : stripStep g st = .ok (done, st')) :
    StripsTaken devsize g [st] st st' ∧ (done = false → st'.nstripsAllocated < g.nstrips) := by
  have hsearch := search_first hdev st.bitmap (u64 (g.stripSizeAu * g.allocUnit)) (bucketPos g st.bs)
    (u64 (g.bucketSizeAu * g.allocUnit)) hg.nbits
  rw [← hg.unit] at hsearch
  rcases stripStep_cases h with ⟨hno, rfl, -, hf, hn, -⟩ | ⟨hyes, hmax, -, hf, hn, hd, -⟩
  · refine ⟨⟨by rw [hf], hn.ge, by omega, fun j _ => by rw [hf], ?_⟩, fun _ => by omega⟩
    have hfits : StripFits devsize g st := by
      rcases hsearch with ⟨-, hnone | hfirst⟩ | ⟨p, hpos, heq, -⟩
      · exact Or.inl hnone
      · exact stripFits_of_first hdev hg hfirst
      · rw [stripSearch, heq, hg.unit] at hno
        simp only [FAMFS_ALLOC_UNIT] at hno
        omega
    exact ⟨fun _ s hs => by rw [List.mem_singleton.mp hs]; exact hfits, fun _ j h1 h2 => by omega⟩
  · rcases hsearch with ⟨hneg, -⟩ | ⟨p, hpos, heq, hp, hmin⟩
    · rw [stripSearch] at hyes
      omega
    · have hslot : st'.fmap.ieStrips 0 st.nstripsAllocated =
          ⟨0, p * g.allocUnit, u64 (g.stripSizeAu * g.allocUnit)⟩ := by
        rw [hf, setIeStrip_self _ hmax, stripSearch, heq, Int.toNat_natCast]
      have hinside : (st'.fmap.ieStrips 0 st.nstripsAllocated).Inside devsize ↔
          StripFits devsize g st := by
        have hunits : u64 (g.stripSizeAu * g.allocUnit) =
            allocBits g.allocUnit (u64 (g.stripSizeAu * g.allocUnit)) * g.allocUnit := by
          rw [hg.unit]
          exact stripLen_units _
        have hsum : p * g.allocUnit + u64 (g.stripSizeAu * g.allocUnit) =
            (p + allocBits g.allocUnit (u64 (g.stripSizeAu * g.allocUnit))) * g.allocUnit := by
          rw [Nat.add_mul, ← hunits]
        rw [hslot, FamfsSimpleExtent.Inside]
        simp only [hsum]
        constructor
        · intro hin
          exact Or.inr ⟨p, hp, hin⟩
        · rintro (hnone | ⟨q, hq, hin⟩)
          · exact absurd hp (hnone p)
          · have hpq := hmin q hq
            exact le_trans (Nat.mul_le_mul_right _ (by omega)) hin
      refine ⟨⟨by rw [hf]; exact setIeStrip_head _ hmax _, by omega, by omega, ?_, ?_⟩, ?_⟩
      · intro j hj
        rw [hf]
        exact setIeStrip_ne _ hmax (by omega) _
      · rw [List.forall_mem_singleton, ← hinside]
        constructor
        · intro hall
          exact hall _ le_rfl (by omega)
        · intro hin j h1 h2
          rw [show j = st.nstripsAllocated by omega]
          exact hin
      · intro hmore
        by_contra hno
        rw [hd.mpr (by omega)] at hmore
        exact Bool.false_ne_true hmore.symm

omit hdev in
theorem StripsTaken.trans {hs ks : List StripState} {a b c : StripState}
    (h1 : StripsTaken devsize g hs a b) (h2 : StripsTaken devsize g ks b c) :
    StripsTaken devsize g (hs ++ ks) a c where
  head := h2.head.trans h1.head
  grows := h1.grows.trans h2.grows
  bound := h2.bound
  old := fun j hj => (h2.old j (lt_of_lt_of_le hj h1.grows)).trans (h1.old j hj)
  inside := by
    rw [List.forall_mem_append, ← h1.inside, ← h2.inside]
    have hg2 := h2.grows
    constructor
    · intro hall
      refine ⟨fun j h3 h4 => ?_, fun j h3 h4 => hall j (h1.grows.trans h3) h4⟩
      rw [← h2.old j h4]
      exact hall j h3 (by omega)
    · rintro ⟨hl, hr⟩ j h3 h4
      rcases Nat.lt_or_ge j b.nstripsAllocated with hj | hj
      · rw [h2.old j hj]
        exact hl j h3 hj
      · exact hr j hj h4

theorem stripLoop_taken (hg : g.Bucketed devsize) {fuel : ℕ} {st st' : StripState}
    (hlt : st.nstripsAllocated < g.nstrips) (h : stripLoop g fuel st = .ok st') :
    StripsTaken devsize g (stripHeads g fuel st) st st' := by
  induction fuel generalizing st with
  | zero =>
    cases h
    exact ⟨rfl, le_rfl, hlt.le, fun _ _ => rfl, by simp [stripHeads]; omega⟩
  | succ fuel ih =>
    rw [stripLoop, Runs.bind_eq_ok] at h
    obtain ⟨⟨done, st1⟩, h1, h2⟩ := h
    obtain ⟨htaken, hmore⟩ := stripStep_taken hdev hg hlt h1
    cases done with
    | true =>
      cases h2
      simpa only [stripHeads, h1] using htaken
    | false =>
      have hrest := htaken.trans (ih (hmore rfl) h2)
      simpa only [stripHeads, h1, List.singleton_append] using hrest

theorem strided_inside_iff {lp lp' : FamfsLockedLog} (hd : lp.devsize = devsize)
    (hau : lp.allocUnit = FAMFS_ALLOC_UNIT) (hnb : lp.nbits = bitmapNbits devsize FAMFS_ALLOC_UNIT)
    {host : AllocHost} {size : ℕ} (h1 : 1 ≤ size) (h2 : size ≤ devsize) {fmap : FamfsLogFmap}
    (h : famfsFileStridedAlloc host lp size = .ok (0, some fmap, lp'))
    (hint : allocIsInterleaved lp ≠ false) :
    (∀ e ∈ fmap.extents, e.Inside devsize) ↔ AllocFits host lp size := by
  simp only [famfsFileStridedAlloc] at h
  rw [AllocFits, if_neg hint]
  split_ifs at h with hval hnn hsmall hzero hmod htmp hmem
  · simp only [Except.ok.injEq, Prod.mk.injEq] at h
    exact absurd h.1 hval
  · rw [if_pos hsmall]
    exact contiguous_inside_iff hdev { lp with curPos := 0 } hd hau hnb h1 h2 h
  · simp only [Except.ok.injEq, Prod.mk.injEq] at h
    exact absurd h.1 (by decide)
  · rw [if_neg hsmall, hd]
    push Not at hzero
    obtain ⟨-, -, hbk, hgib⟩ := famfsValidateInterleaveParam_zero (not_not.mp hval) (by omega)
    rw [hd] at hgib
    have hg : (stripeGeometry lp size).Bucketed devsize := by
      have hbucket : (stripeGeometry lp size).bucketSizeAu =
          devsize / lp.interleaveParam.nbuckets / FAMFS_ALLOC_UNIT := by
        simp only [stripeGeometry, hd, hau]
        rw [Nat.div_div_eq_div_mul, Nat.div_div_eq_div_mul, Nat.mul_comm]
      refine ⟨hnb, hau, ?_, ?_⟩
      · rw [hbucket]
        simp only [FAMFS_ALLOC_UNIT]
        omega
      · rw [hbucket]
        exact (Nat.div_mul_le_self _ _).trans (Nat.div_le_self _ _)
    rw [Runs.bind_eq_ok] at h
    obtain ⟨st, hloop, hfin⟩ := h
    have htaken := stripLoop_taken hdev hg (show 0 < lp.interleaveParam.nstrips by omega) hloop
    have hbound := htaken.bound
    rw [finishStrips] at hfin
    split_ifs at hfin with hfew
    · rw [Runs.bind_eq_ok] at hfin
      obtain ⟨bm, -, hret⟩ := hfin
      cases hret
    · simp only [Except.ok.injEq, Prod.mk.injEq, Option.some.injEq] at hfin
      have hhead := htaken.head
      rw [stripedFmap_head] at hhead
      simp only [FamfsLogFmap.head, Prod.mk.injEq] at hhead
      rw [← htaken.inside, ← hfin.2.1]
      have hext := extents_interleave (f := { st.fmap with fmapNextents := 1 }) hhead.1 rfl
      have hn : FamfsLogFmap.ieNstrips { st.fmap with fmapNextents := 1 } 0 = st.nstripsAllocated := by
        change st.fmap.ieNstrips 0 = _
        rw [hhead.2.2.1]
        change (stripeGeometry lp size).nstrips = _
        omega
      rw [hext, hn]
      simp only [List.mem_map, List.mem_range, forall_exists_index, and_imp,
        forall_apply_eq_imp_iff₂, Nat.zero_le, forall_const]
      rfl

end

/-- A call that succeeds stays inside the device exactly when all of its searches
fit, in any session of any log. -/
theorem alloc_inside_iff {crc32 : Crc32} {kabi : ℕ} {host : AllocHost} {lp lp1 lp' : FamfsLockedLog}
    {size : ℕ} {fmap : FamfsLogFmap} (hsession : ensureBitmap crc32 lp = .ok lp1)
    (hau : lp1.allocUnit = FAMFS_ALLOC_UNIT)
    (hnb : lp1.nbits = bitmapNbits lp1.devsize FAMFS_ALLOC_UNIT) (hdev : lp1.devsize < 2 ^ 63)
    (h1 : 1 ≤ size) (h2 : size ≤ lp1.devsize)
    (h : famfsFileAlloc crc32 kabi host lp size = .ok (0, some fmap, lp')) :
    (∀ e ∈ fmap.extents, e.seOffset + e.seLen ≤ lp1.devsize) ↔ AllocFits host lp1 size := by
  rw [famfsFileAlloc] at h
  split_ifs at h with hmem
  · cases h
  · rw [hsession, Runs.ok_bind] at h
    split_ifs at h with hkabi hcont
    · cases h
    · rw [AllocFits, if_pos hcont]
      exact contiguous_inside_iff hdev _ rfl hau hnb h1 h2 h
    · exact strided_inside_iff hdev rfl hau hnb h1 h2 h hcont

/-- After one file of one unit, another one fits. -/
theorem alloc_inside_iff_second_file :
    ∃ fmap lp', famfsFileAlloc Crc32.update 43 ⟨true, true, id⟩ (addFile freshSession 1) 1 =
        .ok (0, some fmap, lp') ∧ fmap.extents = [unitExtent (6, 1)] ∧
      AllocFits ⟨true, true, id⟩ (addFile freshSession 1) 1 := by
  obtain ⟨bm, hbm⟩ : ∃ bm, (addFile freshSession 1).bitmap = some bm :=
    Option.isSome_iff_exists.mp (by decide +kernel)
  obtain ⟨lp', hok⟩ := ok_of_resultFmap (f := contiguousFmap (6 * FAMFS_ALLOC_UNIT) 1)
    (r := famfsFileAlloc Crc32.update 43 ⟨true, true, id⟩ (addFile freshSession 1) 1) (by decide +kernel)
  have hext : (contiguousFmap (6 * FAMFS_ALLOC_UNIT) 1).extents = [unitExtent (6, 1)] := by decide
  refine ⟨_, lp', hok, hext, ?_⟩
  refine (alloc_inside_iff (by simp [ensureBitmap, hbm]) (by decide +kernel) (by decide +kernel)
    (by decide +kernel) (by decide) (by decide +kernel) hok).mp ?_
  rw [hext, List.forall_mem_singleton]
  decide +kernel

/-- The device has 2048 units, five of which hold the superblock and the log. After
a file of one unit, a file of 2043 units is given units 6 to 2048. -/
theorem alloc_past_device :
    ReflTransGen (AllocStep Crc32.update 43 freshSuper) freshSession (addFile freshSession 1) ∧
    ∃ fmap lp', famfsFileAlloc Crc32.update 43 ⟨true, true, id⟩ (addFile freshSession 1)
        (2043 * FAMFS_ALLOC_UNIT) = .ok (0, some fmap, lp') ∧
      fmap.extents = [unitExtent (6, 2043)] ∧
      (addFile freshSession 1).devsize < (6 + 2043) * FAMFS_ALLOC_UNIT := by
  obtain ⟨lp', hok⟩ := ok_of_resultFmap
    (f := contiguousFmap (6 * FAMFS_ALLOC_UNIT) (2043 * FAMFS_ALLOC_UNIT))
    (r := famfsFileAlloc Crc32.update 43 ⟨true, true, id⟩ (addFile freshSession 1)
      (2043 * FAMFS_ALLOC_UNIT)) (by decide +kernel)
  exact ⟨.single (addFile_step (by decide) (by decide) (by decide +kernel)), _, lp', hok,
    by decide, by decide +kernel⟩

end Famfs

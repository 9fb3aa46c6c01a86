import Famfs.Proofs.AllocUndo

/-! Which accepted stripe parameters are safe to use. The validator looks at the number of
buckets, but at the number of strips only against it: it accepts no strips at all, which the
allocator divides by, and up to 64 of them, for which the map has 16 slots. -/

namespace Famfs

open Machine Intervals

variable {bitmap : Bitmap}

/-- Parameters of a configuration file that the validator accepts, other than the zeroes that
mean no striping. -/
structure Accepted (p : FamfsInterleaveParam) (au devsize : ℕ) : Prop where
  valid : famfsValidateInterleaveParam p au devsize = 0
  set : p ≠ ⟨0, 0, 0⟩
  chunk : p.chunkSize < 2 ^ 64
  unit : ∃ k < 64, au = 2 ^ k
  dev : devsize < 2 ^ 64

/-- No striped allocation with these parameters divides by zero or stores past the strips. -/
def SafeToUse (p : FamfsInterleaveParam) (au devsize : ℕ) : Prop :=
  ∀ (host : AllocHost) (lp : FamfsLockedLog) (size : ℕ), lp.interleaveParam = p → lp.allocUnit = au →
    lp.devsize = devsize → lp.nbits = bitmapNbits devsize au → lp.nbits ≤ lp.bits.bits → p.chunkSize ≤ size →
    size < 2 ^ 64 → famfsFileStridedAlloc host lp size ≠ .error .divZero ∧
      famfsFileStridedAlloc host lp size ≠ .error .outOfBounds

/-- The first unit that only a seventeenth strip starts at or after. -/
def seventeenth (p : FamfsInterleaveParam) (au devsize : ℕ) : ℕ := max 1 (16 * (devsize / au / p.nbuckets))

namespace Accepted

variable {p : FamfsInterleaveParam} {au devsize : ℕ} (h : Accepted p au devsize)

include h

theorem bounds : p.nstrips ≤ p.nbuckets ∧ 0 < p.nbuckets ∧ p.nbuckets ≤ 64 := by
  have hset : ¬ (p.nbuckets = 0 ∧ p.nstrips = 0 ∧ p.chunkSize = 0) := fun hz => h.set (by
    cases p
    simp only at hz
    rw [hz.1, hz.2.1, hz.2.2])
  have hvalid := h.valid
  simp only [famfsValidateInterleaveParam, EINVAL, FAMFS_MAX_NBUCKETS, hset, if_false] at hvalid
  split_ifs at hvalid <;> omega

theorem unit_pos : 0 < au := by
  obtain ⟨k, -, rfl⟩ := h.unit
  exact Nat.two_pow_pos k

theorem unit_lt {q : ℕ} (hq : q < bitmapNbits devsize au) : q * au < 2 ^ 64 := by
  have hmul : bitmapNbits devsize au * au ≤ u64 (devsize + au - 1) := Nat.div_mul_le_self _ _
  have hlt : q * au < bitmapNbits devsize au * au := Nat.mul_lt_mul_of_pos_right hq h.unit_pos
  have := u64_lt (devsize + au - 1)
  omega

end Accepted

theorem stripLoop_few {g : StripeGeometry} {fuel : ℕ} {st : StripState} (hlen : st.bs.buckets.length = st.bs.nbuckets)
    (hcur : st.bs.current + fuel ≤ st.bs.nbuckets) (hsmall : st.bs.buckets.countP (· < 16) ≤ 16)
    (hcount : st.nstripsAllocated ≤ (st.bs.buckets.take st.bs.current).countP (· < 16))
    (hfew : ∀ s : StripState, s.bs.buckets = st.bs.buckets → s.bs.nbuckets = st.bs.nbuckets →
      s.bs.current < s.bs.nbuckets → passStrip g s ≠ none → passBucket s < 16) :
    ∃ st', stripLoop g fuel st = .ok st' := by
  induction fuel generalizing st with
  | zero => exact ⟨st, rfl⟩
  | succ fuel ih =>
    have hlt : st.bs.current < st.bs.buckets.length := by omega
    have htake : (st.bs.buckets.take (st.bs.current + 1)).countP (· < 16) =
        (st.bs.buckets.take st.bs.current).countP (· < 16) + if passBucket st < 16 then 1 else 0 := by
      rw [List.take_succ_eq_append_getElem hlt, List.countP_append, List.countP_singleton, passBucket,
        List.getD_eq_getElem _ _ hlt]
      simp only [decide_eq_true_eq]
    have hroom : passStrip g st ≠ none →
        st.nstripsAllocated + 1 ≤ (st.bs.buckets.take (st.bs.current + 1)).countP (· < 16) := by
      intro hstrip
      rw [htake, if_pos (hfew st rfl rfl (by omega) hstrip)]
      omega
    have hall : (st.bs.buckets.take (st.bs.current + 1)).countP (· < 16) ≤ 16 :=
      ((List.take_sublist _ _).countP_le).trans hsmall
    have hok : ∃ r, stripStep g st = .ok r :=
      stripStep_ok fun hstrip => Nat.lt_of_succ_le ((hroom hstrip).trans hall)
    obtain ⟨⟨done, st1⟩, h1⟩ := hok
    have hstep := stripStep_pass h1
    have hbs : st1.bs = { st.bs with current := st.bs.current + 1 } := by
      rw [hstep.bs, bucketSeriesNext, if_neg (by omega)]
    rw [stripLoop, h1, Runs.ok_bind]
    cases done with
    | true => exact ⟨st1, rfl⟩
    | false =>
      refine ih (by rw [hbs]; exact hlen) (by rw [hbs]; simp only; omega) (by rw [hbs]; exact hsmall) ?_
        (by rw [hbs]; exact hfew)
      rw [hbs, hstep.count]
      cases hstrip : passStrip g st with
      | none =>
        simp only [Option.toList_none, List.length_nil, htake]
        omega
      | some q => exact hroom (by rw [hstrip]; exact Option.some_ne_none q)

theorem freeRun_error {n i : ℕ} {t : Trap} (h : freeRun bitmap n i = .error t) : t = .assertion := by
  induction n generalizing bitmap i with
  | zero => cases h
  | succ n ih =>
    simp only [freeRun] at h
    split_ifs at h
    · exact ih h
    · cases h
      rfl

theorem freeStrips_error {g : StripeGeometry} {fmap : FamfsLogFmap} {i : ℕ} {t : Trap}
    (h : freeStrips g bitmap fmap i = .error t) : t = .assertion := by
  obtain ⟨bm, j, hj⟩ := Runs.foldlM_error h
  simp only [bitmapFreeContiguous] at hj
  split_ifs at hj
  · cases hj
    rfl
  · cases hj
    rfl
  · exact freeRun_error hj

theorem finishStrips_safe (lp : FamfsLockedLog) (g : StripeGeometry) (st : StripState) :
    finishStrips lp g st ≠ .error .divZero ∧ finishStrips lp g st ≠ .error .outOfBounds := by
  rw [finishStrips]
  split_ifs
  · cases hfree : freeStrips g st.bitmap st.fmap st.i with
    | ok bm => exact ⟨by simp, by simp⟩
    | error t =>
      obtain rfl := freeStrips_error hfree
      exact ⟨by simp, by simp⟩
  · exact ⟨by simp, by simp⟩

theorem range_countP_le (n k : ℕ) : (List.range n).countP (· < k) ≤ k := by
  rw [List.countP_eq_length_filter]
  have hsub : (List.range n).filter (· < k) ⊆ List.range k := fun b hb => by
    simpa using (List.mem_filter.1 hb).2
  calc ((List.range n).filter (· < k)).length
      ≤ (List.range k).length := ((List.nodup_range.filter _).subperm hsub).length_le
    _ = k := List.length_range

section

variable {lp : FamfsLockedLog} {size : ℕ} (h : Accepted lp.interleaveParam lp.allocUnit lp.devsize)

include h

theorem Accepted.bucket_lt (hnb : lp.nbits = bitmapNbits lp.devsize lp.allocUnit)
    (hroom : lp.nbits ≤ seventeenth lp.interleaveParam lp.allocUnit lp.devsize ∨
      2 ^ 63 ≤ seventeenth lp.interleaveParam lp.allocUnit lp.devsize * lp.allocUnit) {s : StripState}
    (hcur : s.bs.current < s.bs.nbuckets) (hlt : passBucket s < lp.interleaveParam.nbuckets)
    (hstrip : passStrip (stripeGeometry lp size) s ≠ none) : passBucket s < 16 := by
  obtain ⟨q, hq⟩ := Option.ne_none_iff_exists'.1 hstrip
  obtain ⟨ht, hst⟩ := passStrip_iff.1 hq
  have hqlt : q < lp.nbits := ht.lt
  have hstart := ht.start_le
  rw [passStart_eq h.unit_pos h.dev h.bounds.2.2 hcur hlt] at hstart
  by_contra hge
  have hofs := h.unit_lt (hnb ▸ hqlt)
  have hst' : 0 < s64 (q * lp.allocUnit) := hst
  rw [s64, u64_of_lt hofs] at hst'
  have hpos : 1 ≤ q := by
    rcases Nat.eq_zero_or_pos q with rfl | hpos
    · simp at hst'
    · exact hpos
  have hle : seventeenth lp.interleaveParam lp.allocUnit lp.devsize ≤ q := by
    refine max_le hpos (le_trans ?_ hstart)
    exact Nat.mul_le_mul_right _ (not_lt.1 hge)
  rcases hroom with hroom | hroom
  · omega
  · have := Nat.mul_le_mul_right lp.allocUnit hle
    split_ifs at hst' <;> omega

theorem Accepted.loop_ok (host : AllocHost) (hnb : lp.nbits = bitmapNbits lp.devsize lp.allocUnit)
    (hpos : lp.interleaveParam.nstrips ≠ 0)
    (hroom : lp.interleaveParam.nstrips ≤ 16 ∨ lp.nbits ≤ seventeenth lp.interleaveParam lp.allocUnit lp.devsize ∨
      2 ^ 63 ≤ seventeenth lp.interleaveParam lp.allocUnit lp.devsize * lp.allocUnit) :
    ∃ st, stripLoop (stripeGeometry lp size) lp.interleaveParam.nbuckets (stripStart host lp) = .ok st := by
  rcases hroom with h16 | hroom
  · have hlt : (stripStart host lp).nstripsAllocated < (stripeGeometry lp size).nstrips := Nat.pos_of_ne_zero hpos
    exact stripLoop_ok hlt h16
  · have hfew := h.bounds.2.2
    have hperm : (stripStart host lp).bs.buckets.Perm (List.range lp.interleaveParam.nbuckets) := by
      rw [List.range_eq_range']
      exact bucketSeriesAlloc_perm host.rand h.bounds.2.1 (by omega)
    refine stripLoop_few (hperm.length_eq.trans List.length_range) (Nat.zero_add _).le ?_ (Nat.zero_le _) ?_
    · rw [hperm.countP_eq]
      exact range_countP_le _ _
    · intro s hbuckets hnbuckets hcur hstrip
      refine h.bucket_lt hnb hroom hcur ?_ hstrip
      have hlt : s.bs.current < s.bs.buckets.length := by
        rw [hbuckets, hperm.length_eq, List.length_range]
        exact lt_of_lt_of_eq hcur hnbuckets
      have hmem : passBucket s ∈ (stripStart host lp).bs.buckets := by
        rw [← hbuckets, passBucket, List.getD_eq_getElem _ _ hlt]
        exact List.getElem_mem hlt
      exact List.mem_range.1 (hperm.mem_iff.1 hmem)

theorem Accepted.safe (host : AllocHost) (hnb : lp.nbits = bitmapNbits lp.devsize lp.allocUnit)
    (hpos : lp.interleaveParam.nstrips ≠ 0)
    (hstripe : u64 (lp.interleaveParam.nstrips * (lp.interleaveParam.chunkSize / lp.allocUnit)) ≠ 0)
    (hroom : u64 (lp.interleaveParam.nstrips * (lp.interleaveParam.chunkSize / lp.allocUnit)) % lp.interleaveParam.nstrips ≠ 0 ∨
      lp.interleaveParam.nstrips ≤ 16 ∨ lp.nbits ≤ seventeenth lp.interleaveParam lp.allocUnit lp.devsize ∨
      2 ^ 63 ≤ seventeenth lp.interleaveParam lp.allocUnit lp.devsize * lp.allocUnit)
    (hsize : lp.interleaveParam.chunkSize ≤ size) :
    famfsFileStridedAlloc host lp size ≠ .error .divZero ∧ famfsFileStridedAlloc host lp size ≠ .error .outOfBounds := by
  obtain ⟨hle, hnbuckets, -⟩ := h.bounds
  rw [famfsFileStridedAlloc]
  simp only [h.valid, ne_eq, not_true_eq_false, if_false]
  rw [if_neg (not_lt.2 hle), if_neg (not_lt.2 hsize), if_neg (by push Not; exact ⟨hnbuckets.ne', hpos, hstripe⟩)]
  split_ifs with hmod
  · exact ⟨by simp, by simp⟩
  · exact ⟨by simp, by simp⟩
  · have hloop : ∃ st, stripLoop (stripeGeometry lp size) lp.interleaveParam.nbuckets
        ⟨bucketSeriesAlloc host.rand lp.interleaveParam.nbuckets 0, lp.bits, stripedFmap lp.interleaveParam, 0, 0⟩ =
          .ok st := h.loop_ok host hnb hpos (hroom.resolve_left (not_not.2 hmod))
    obtain ⟨st, hst⟩ := hloop
    rw [hst]
    exact finishStrips_safe lp _ st
  · exact ⟨by simp, by simp⟩

end

theorem shuffleBuckets_id (n : ℕ) {b : List ℕ} (hint : ∀ x ∈ b, x < 2 ^ 31) : shuffleBuckets id n b = b := by
  induction n with
  | zero => rfl
  | succ n ih =>
    have hself : swapBuckets b (n + 1) (n + 1) = b := by
      by_cases hlt : n + 1 < b.length
      · rw [swapBuckets_eq hint hlt hlt, List.set_set, List.set_getElem_self]
      · rw [swapBuckets, List.set_set]
        exact List.set_eq_of_length_le (not_lt.1 hlt)
    rw [shuffleBuckets, id_eq, Nat.mod_eq_of_lt (Nat.lt_succ_self _), hself, ih]

/-- The loop in unshuffled buckets after `k` passes that each stored an empty strip. -/
structure AtPass (nbuckets : ℕ) (bitmap : Bitmap) (k : ℕ) (st : StripState) : Prop where
  bs : st.bs = ⟨nbuckets, k, List.range nbuckets⟩
  bitmap : st.bitmap = bitmap
  count : st.nstripsAllocated = k

theorem stripLoop_overruns {g : StripeGeometry} {nbuckets : ℕ} (hempty : g.stripUnits = 0)
    (hnbuckets : 17 ≤ nbuckets) (hmany : 17 ≤ g.nstrips)
    (hplace : ∀ k ≤ 16, ∀ st, AtPass nbuckets bitmap k st → passStrip g st ≠ none) {fuel k : ℕ} {st : StripState}
    (hat : AtPass nbuckets bitmap k st) (hk : k ≤ 16) (hfuel : 17 ≤ k + fuel) :
    stripLoop g fuel st = .error .outOfBounds := by
  induction fuel generalizing k st with
  | zero => omega
  | succ fuel ih =>
    have hstrip := hplace k hk st hat
    rw [stripLoop]
    rcases Nat.eq_or_lt_of_le hk with rfl | hlt
    · rw [stripStep_error hstrip hat.count.ge]
      rfl
    · have hok : ∃ r, stripStep g st = .ok r := stripStep_ok fun _ => hat.count.trans_lt hlt
      obtain ⟨⟨done, st1⟩, h1⟩ := hok
      have hstep := stripStep_pass h1
      have hdone : done = false := by
        rw [← Bool.not_eq_true, hstep.last, hat.count]
        omega
      subst hdone
      rw [h1]
      refine ih (k := k + 1) ⟨?_, ?_, ?_⟩ (by omega) (by omega)
      · rw [hstep.bs, hat.bs, bucketSeriesNext, if_neg (by simp only; omega)]
      · rw [hstep.bitmap, passBits, hempty, hat.bitmap]
        cases passPlace g st <;> rfl
      · obtain ⟨q, hq⟩ := Option.ne_none_iff_exists'.1 hstrip
        rw [hstep.count, hat.count, hq]
        rfl

theorem Accepted.stripe_ne_one {p : FamfsInterleaveParam} {devsize : ℕ} (h : Accepted p 1 devsize) (hmany : 17 ≤ p.nstrips) :
    u64 (p.nstrips * (p.chunkSize / 1)) ≠ 1 := by
  obtain ⟨k, hk⟩ := famfsValidateInterleaveParam_pow h.valid (by omega)
  have hbound := h.bounds
  rw [Nat.div_one, hk, u64]
  cases k with
  | zero => omega
  | succ k =>
    have heven : p.nstrips * 2 ^ (k + 1) = 2 * (p.nstrips * 2 ^ k) := by ring
    omega

theorem Accepted.stripUnits_wrap {lp : FamfsLockedLog} (h : Accepted lp.interleaveParam lp.allocUnit lp.devsize)
    (hmany : 17 ≤ lp.interleaveParam.nstrips)
    (hstripe : u64 (lp.interleaveParam.nstrips * (lp.interleaveParam.chunkSize / lp.allocUnit)) ≠ 0) :
    (stripeGeometry lp (2 ^ 64 - 1)).stripUnits = 0 := by
  have hunit := h.unit_pos
  obtain ⟨k, hk, hau⟩ := h.unit
  have hau64 : lp.allocUnit < 2 ^ 64 := hau ▸ Nat.pow_lt_pow_right (by norm_num) hk
  have hnone : u64 (u64 (2 ^ 64 - 1 + lp.allocUnit - 1) / lp.allocUnit +
      u64 (lp.interleaveParam.nstrips * (lp.interleaveParam.chunkSize / lp.allocUnit)) - 1) /
      u64 (lp.interleaveParam.nstrips * (lp.interleaveParam.chunkSize / lp.allocUnit)) = 0 := by
    have hlt := u64_lt (lp.interleaveParam.nstrips * (lp.interleaveParam.chunkSize / lp.allocUnit))
    rcases Nat.eq_or_lt_of_le hunit with hone | htwo
    · -- a unit of one byte: the sum with the stripe wraps instead
      have hone' : lp.allocUnit = 1 := hone.symm
      rw [hone'] at h hstripe hlt ⊢
      have hne := h.stripe_ne_one hmany
      generalize u64 (lp.interleaveParam.nstrips * (lp.interleaveParam.chunkSize / 1)) = stripe at *
      rw [Nat.div_eq_zero_iff_lt (by omega)]
      simp only [u64]
      omega
    · have hzero : u64 (2 ^ 64 - 1 + lp.allocUnit - 1) / lp.allocUnit = 0 := by
        rw [Nat.div_eq_zero_iff_lt hunit, u64]
        omega
      rw [hzero]
      generalize u64 (lp.interleaveParam.nstrips * (lp.interleaveParam.chunkSize / lp.allocUnit)) = stripe at *
      rw [Nat.div_eq_zero_iff_lt (by omega), u64_of_lt (by omega)]
      omega
  have hsize : (stripeGeometry lp (2 ^ 64 - 1)).stripSizeAu = 0 := by
    simp only [stripeGeometry, hnone]
    rw [s32_of_lt (by norm_num)]
    simp
  rw [StripeGeometry.stripUnits, hsize, Nat.zero_mul]
  change u64 (u64 0 + lp.allocUnit - 1) / lp.allocUnit = 0
  rw [Nat.div_eq_zero_iff_lt hunit, u64_of_lt (show 0 < 2 ^ 64 by norm_num), u64_of_lt (by omega)]
  omega

theorem Accepted.has_place {lp : FamfsLockedLog} {size : ℕ} (h : Accepted lp.interleaveParam lp.allocUnit lp.devsize)
    (hempty : (stripeGeometry lp size).stripUnits = 0)
    (hmany : 17 ≤ lp.interleaveParam.nbuckets)
    (hroom : seventeenth lp.interleaveParam lp.allocUnit lp.devsize < lp.nbits)
    (hofs : seventeenth lp.interleaveParam lp.allocUnit lp.devsize * lp.allocUnit < 2 ^ 63)
    (hbitmap : ∀ b, muBitmapTest bitmap b = decide (b = 0)) {k : ℕ} (hk : k ≤ 16) {st : StripState}
    (hat : AtPass lp.interleaveParam.nbuckets bitmap k st) : passStrip (stripeGeometry lp size) st ≠ none := by
  have hbucket : passBucket st = k := by
    rw [passBucket, hat.bs]
    simp only
    rw [List.getD_eq_getElem _ _ (by rw [List.length_range]; omega), List.getElem_range]
  have hstart : passStart (stripeGeometry lp size) st = k * (stripeGeometry lp size).bucketSizeAu := by
    rw [passStart_eq h.unit_pos h.dev h.bounds.2.2 (by rw [hat.bs]; simp only; omega) (by omega), hbucket]
  have hle : max 1 (k * (stripeGeometry lp size).bucketSizeAu) ≤ seventeenth lp.interleaveParam lp.allocUnit lp.devsize :=
    max_le_max le_rfl (Nat.mul_le_mul_right _ hk)
  have hcand : Candidate st.bitmap lp.nbits lp.allocUnit (u64 ((stripeGeometry lp size).stripSizeAu * lp.allocUnit))
      (bucketPos (stripeGeometry lp size) st.bs) (u64 ((stripeGeometry lp size).bucketSizeAu * lp.allocUnit))
      (max 1 (k * (stripeGeometry lp size).bucketSizeAu)) := by
    have hclear : muBitmapTest st.bitmap (max 1 (k * (stripeGeometry lp size).bucketSizeAu)) = false := by
      rw [hat.bitmap, hbitmap, decide_eq_false_iff_not]
      omega
    have hunits : allocBits lp.allocUnit (u64 ((stripeGeometry lp size).stripSizeAu * lp.allocUnit)) = 0 := hempty
    refine ⟨lt_of_le_of_lt hle hroom, hstart.trans_le (le_max_right _ _), hclear, fun b hb => ?_, fun _ _ _ _ => ?_⟩
    · rw [hunits] at hb
      exact absurd hb Seg.not_has_zero
    · rw [hunits]
      exact Nat.zero_le _
  obtain ⟨q, hq, ht⟩ := takes_of_candidate (g := stripeGeometry lp size) hcand
  have hclear : muBitmapTest st.bitmap q = false := ht.1.2.clear
  rw [hat.bitmap, hbitmap, decide_eq_false_iff_not] at hclear
  have hlt : q * lp.allocUnit < 2 ^ 63 := lt_of_le_of_lt (Nat.mul_le_mul_right _ (hq.trans hle)) hofs
  have hst : Stored (stripeGeometry lp size) q := by
    change 0 < s64 (q * lp.allocUnit)
    rw [s64_of_lt hlt]
    exact_mod_cast Nat.mul_pos (Nat.pos_of_ne_zero hclear) h.unit_pos
  rw [passStrip_iff.2 ⟨ht, hst⟩]
  exact Option.some_ne_none q

theorem Accepted.divides_by_zero {lp : FamfsLockedLog} {size : ℕ} (h : Accepted lp.interleaveParam lp.allocUnit lp.devsize)
    (hzero : lp.interleaveParam.nstrips = 0 ∨
      u64 (lp.interleaveParam.nstrips * (lp.interleaveParam.chunkSize / lp.allocUnit)) = 0)
    (hsize : lp.interleaveParam.chunkSize ≤ size) (host : AllocHost) :
    famfsFileStridedAlloc host lp size = .error .divZero := by
  rw [famfsFileStridedAlloc]
  simp only [h.valid, ne_eq, not_true_eq_false, if_false]
  rw [if_neg (not_lt.2 h.bounds.1), if_neg (not_lt.2 hsize), if_pos (Or.inr hzero)]

theorem Accepted.overruns {lp : FamfsLockedLog} (h : Accepted lp.interleaveParam lp.allocUnit lp.devsize)
    (hmany : 17 ≤ lp.interleaveParam.nstrips)
    (hstripe : u64 (lp.interleaveParam.nstrips * (lp.interleaveParam.chunkSize / lp.allocUnit)) ≠ 0)
    (hmod : u64 (lp.interleaveParam.nstrips * (lp.interleaveParam.chunkSize / lp.allocUnit)) % lp.interleaveParam.nstrips = 0)
    (hroom : seventeenth lp.interleaveParam lp.allocUnit lp.devsize < lp.nbits)
    (hofs : seventeenth lp.interleaveParam lp.allocUnit lp.devsize * lp.allocUnit < 2 ^ 63)
    (hbitmap : ∀ b, muBitmapTest lp.bits b = decide (b = 0)) :
    famfsFileStridedAlloc ⟨true, true, id⟩ lp (2 ^ 64 - 1) = .error .outOfBounds := by
  obtain ⟨hle, hnbuckets, hfew⟩ := h.bounds
  have hchunk := h.chunk
  have hempty := h.stripUnits_wrap hmany hstripe
  have hloop : stripLoop (stripeGeometry lp (2 ^ 64 - 1)) lp.interleaveParam.nbuckets
      (stripStart ⟨true, true, id⟩ lp) = .error .outOfBounds := by
    refine stripLoop_overruns (k := 0) hempty (hmany.trans hle) hmany
      (fun k hk st hat => h.has_place hempty (hmany.trans hle) hroom hofs hbitmap hk hat) ⟨?_, rfl, rfl⟩ (by omega) (by omega)
    have hseries : (bucketSeriesAlloc id lp.interleaveParam.nbuckets 0).buckets =
        List.range lp.interleaveParam.nbuckets := by
      rw [bucketSeriesAlloc_buckets id hnbuckets (by omega), List.range_eq_range']
      refine shuffleBuckets_id _ fun x hx => ?_
      rw [List.mem_range'_1] at hx
      omega
    rw [← hseries]
    rfl
  rw [famfsFileStridedAlloc]
  simp only [h.valid, ne_eq, not_true_eq_false, if_false]
  rw [if_neg (not_lt.2 hle), if_neg (by omega), if_neg (by push Not; exact ⟨hnbuckets.ne', by omega, hstripe⟩),
    if_neg (not_not.2 hmod), if_neg (buckets_check lp (2 ^ 64 - 1) h.dev), if_neg (by simp)]
  change (stripLoop _ _ (stripStart ⟨true, true, id⟩ lp) >>= _) = _
  rw [hloop, Runs.error_bind]

theorem exists_first_taken (n : ℕ) : ∃ bitmap : Bitmap, n ≤ bitmap.bits ∧ ∀ b, muBitmapTest bitmap b = decide (b = 0) := by
  refine ⟨muBitmapSet (List.replicate (n + 1) 0) 0, ?_, fun b => ?_⟩
  · rw [muBitmapSet_bits, Bitmap.bits, List.length_replicate]
    omega
  · rw [muBitmapTest_set, muBitmapTest_replicate]
    simp [Bitmap.bits]

/-- Accepted parameters are safe to use exactly when there is a strip, the stripe does not wrap
to nothing, and it wraps to no multiple of the strips, or there are at most sixteen strips or no
room for more. -/
theorem accepted_safe_iff {p : FamfsInterleaveParam} {au devsize : ℕ} (h : Accepted p au devsize) :
    SafeToUse p au devsize ↔ p.nstrips ≠ 0 ∧ u64 (p.nstrips * (p.chunkSize / au)) ≠ 0 ∧
      (u64 (p.nstrips * (p.chunkSize / au)) % p.nstrips ≠ 0 ∨ p.nstrips ≤ 16 ∨ bitmapNbits devsize au ≤ seventeenth p au devsize ∨ 2 ^ 63 ≤ seventeenth p au devsize * au) := by
  constructor
  · intro hsafe
    obtain ⟨bitmap, hbuf, hbitmap⟩ := exists_first_taken (bitmapNbits devsize au)
    -- a session with the parameters and only the first unit taken
    let lp : FamfsLockedLog :=
      ⟨devsize, mkfsLog Crc32.update FAMFS_LOG_LEN, .v1, some bitmap, bitmapNbits devsize au, au, 0, p, [], none⟩
    have hlp : Accepted lp.interleaveParam lp.allocUnit lp.devsize := h
    have hdiv : ¬ (p.nstrips = 0 ∨ u64 (p.nstrips * (p.chunkSize / au)) = 0) := fun hzero =>
      (hsafe ⟨true, true, id⟩ lp p.chunkSize rfl rfl rfl rfl hbuf le_rfl h.chunk).1
        (hlp.divides_by_zero hzero le_rfl _)
    push Not at hdiv
    refine ⟨hdiv.1, hdiv.2, ?_⟩
    by_contra hout
    push Not at hout
    obtain ⟨hmod, hmany, hroom, hofs⟩ := hout
    have hchunk := h.chunk
    exact (hsafe ⟨true, true, id⟩ lp (2 ^ 64 - 1) rfl rfl rfl rfl hbuf (by omega) (by norm_num)).2
      (hlp.overruns hmany hdiv.2 hmod hroom hofs hbitmap)
  · rintro ⟨hpos, hstripe, hroom⟩ host lp size rfl rfl rfl hnb - hsize -
    rw [← hnb] at hroom
    exact h.safe host hnb hpos hstripe hroom hsize

theorem accepted_safe_iff_two_strips : SafeToUse ⟨4, 2, FAMFS_ALLOC_UNIT⟩ FAMFS_ALLOC_UNIT (2 ^ 32) :=
  (accepted_safe_iff ⟨by decide, by decide, by decide, ⟨21, by decide, by decide⟩, by decide⟩).mpr
    ⟨by decide, by decide, by decide⟩

/-- On a new device of 17 GiB, 17 strips in 17 buckets are accepted, and a file of 17 units
makes the allocator store a seventeenth strip; so are no strips at all, and any file then
makes it divide by their number. -/
theorem accepted_not_safe :
    (Accepted ⟨17, 17, FAMFS_ALLOC_UNIT⟩ FAMFS_ALLOC_UNIT (17 * 2 ^ 30) ∧
      famfsFileStridedAlloc ⟨true, true, id⟩ (wideSession ⟨17, 17, FAMFS_ALLOC_UNIT⟩) (17 * FAMFS_ALLOC_UNIT) =
        .error .outOfBounds ∧
      ¬ SafeToUse ⟨17, 17, FAMFS_ALLOC_UNIT⟩ FAMFS_ALLOC_UNIT (17 * 2 ^ 30)) ∧
    Accepted ⟨17, 0, FAMFS_ALLOC_UNIT⟩ FAMFS_ALLOC_UNIT (17 * 2 ^ 30) ∧
      famfsFileStridedAlloc ⟨true, true, id⟩ (wideSession ⟨17, 0, FAMFS_ALLOC_UNIT⟩) FAMFS_ALLOC_UNIT = .error .divZero ∧
      ¬ SafeToUse ⟨17, 0, FAMFS_ALLOC_UNIT⟩ FAMFS_ALLOC_UNIT (17 * 2 ^ 30) := by
  have hmany := error_of_answer (t := .outOfBounds) (r := famfsFileStridedAlloc ⟨true, true, id⟩
    (wideSession ⟨17, 17, FAMFS_ALLOC_UNIT⟩) (17 * FAMFS_ALLOC_UNIT)) (by decide +kernel)
  have hnone := error_of_answer (t := .divZero) (r := famfsFileStridedAlloc ⟨true, true, id⟩
    (wideSession ⟨17, 0, FAMFS_ALLOC_UNIT⟩) FAMFS_ALLOC_UNIT) (by decide +kernel)
  refine ⟨⟨⟨by decide, by decide, by decide, ⟨21, by decide, by decide⟩, by decide⟩, hmany, fun hsafe => ?_⟩,
    ⟨by decide, by decide, by decide, ⟨21, by decide, by decide⟩, by decide⟩, hnone, fun hsafe => ?_⟩
  · exact (hsafe _ _ _ (by decide +kernel) (by decide +kernel) (by decide +kernel) (by decide +kernel) (by decide +kernel)
      (by decide) (by decide)).2 hmany
  · exact (hsafe _ _ _ (by decide +kernel) (by decide +kernel) (by decide +kernel) (by decide +kernel) (by decide +kernel)
      (by decide) (by decide)).1 hnone

end Famfs

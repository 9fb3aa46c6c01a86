import Famfs.Sanity.StripedCalls
import Famfs.Proofs.AllocInside

/-! When each strip has a bucket of its own. The room that a search has left in its bucket
is an unsigned difference, which a search past the end of the bucket takes for a huge one.
It gets there when no run in the bucket is free and the last units of the bucket, with the
one after it, are taken: no free unit is left to find the room too small at. -/

namespace Famfs

open Machine Intervals Relation

def InBucket (bucketSize b : ℕ) (e : FamfsSimpleExtent) : Prop :=
  b * bucketSize ≤ e.seOffset ∧ e.seOffset < (b + 1) * bucketSize ∧ e.seOffset + e.seLen ≤ (b + 1) * bucketSize

/-- Every extent lies in one of the buckets, and no two in the same. -/
def BucketEach (nbuckets bucketSize : ℕ) (es : List FamfsSimpleExtent) : Prop :=
  (∀ e ∈ es, ∃ b < nbuckets, InBucket bucketSize b e) ∧
    es.Pairwise fun e f => ∀ b < nbuckets, ¬ (InBucket bucketSize b e ∧ InBucket bucketSize b f)

instance (bucketSize b : ℕ) (e : FamfsSimpleExtent) : Decidable (InBucket bucketSize b e) :=
  inferInstanceAs (Decidable (_ ∧ _ ∧ _))

instance (nbuckets bucketSize : ℕ) (es : List FamfsSimpleExtent) : Decidable (BucketEach nbuckets bucketSize es) :=
  inferInstanceAs (Decidable (_ ∧ _))

def bucketBytes (lp : FamfsLockedLog) : ℕ :=
  lp.devsize / lp.allocUnit / lp.interleaveParam.nbuckets * lp.allocUnit

def UnitsIn (g : StripeGeometry) (b p : ℕ) : Prop :=
  b * g.bucketSizeAu ≤ p ∧ p < (b + 1) * g.bucketSizeAu ∧ p + g.stripUnits ≤ (b + 1) * g.bucketSizeAu

/-- A search that leaves its bucket: no run there is free, and neither is any unit that
has too little room after it, up to the first one of the next bucket. -/
structure Lost (g : StripeGeometry) (st : StripState) : Prop where
  full : ∀ p, passStart g st ≤ p → p < passStart g st + g.bucketSizeAu →
    p + g.stripUnits ≤ passStart g st + g.bucketSizeAu → muBitmapTest st.bitmap p = false →
    ∃ b, Seg.Has (p, g.stripUnits) b ∧ muBitmapTest st.bitmap b = true
  tail : ∀ u, passStart g st ≤ u → u ≤ passStart g st + g.bucketSizeAu →
    passStart g st + g.bucketSizeAu < u + g.stripUnits → muBitmapTest st.bitmap u = true

/-- No search that finds a strip has left its bucket. -/
def NoneLost (host : AllocHost) (lp : FamfsLockedLog) (size : ℕ) : Prop :=
  ∀ s ∈ stripPasses host lp size, ∀ p, Takes (stripeGeometry lp size) s p → Stored (stripeGeometry lp size) p →
    ¬ Lost (stripeGeometry lp size) s

theorem Lost.not_free {g : StripeGeometry} {st : StripState} (h : Lost g st) {p : ℕ} (hfrom : passStart g st ≤ p)
    (hlt : p < passStart g st + g.bucketSizeAu) (hend : p + g.stripUnits ≤ passStart g st + g.bucketSizeAu)
    (hclear : muBitmapTest st.bitmap p = false) (hrun : ∀ b, Seg.Has (p, g.stripUnits) b → b = p) : False := by
  obtain ⟨b, hb, hset⟩ := h.full p hfrom hlt hend hclear
  rw [hrun b hb, hclear] at hset
  exact Bool.noConfusion hset

theorem UnitsIn.unique {g : StripeGeometry} {b c p : ℕ} (hb : UnitsIn g b p) (hc : UnitsIn g c p) : b = c := by
  have h1 : b < c + 1 := Nat.lt_of_mul_lt_mul_right (lt_of_le_of_lt hb.1 hc.2.1)
  have h2 : c < b + 1 := Nat.lt_of_mul_lt_mul_right (lt_of_le_of_lt hc.1 hb.2.1)
  omega

section

variable {host : AllocHost} {lp lp' : FamfsLockedLog} {size : ℕ} {s : StripState} {p b : ℕ}

theorem inBucket_iff (h : StripedCall lp size) (ht : Takes (stripeGeometry lp size) s p)
    (hs : Stored (stripeGeometry lp size) p) :
    InBucket (bucketBytes lp) b (stripAt (stripeGeometry lp size) p) ↔ UnitsIn (stripeGeometry lp size) b p := by
  have hu := h.unit_pos.1
  have hbytes : ∀ c, c * bucketBytes lp = c * (stripeGeometry lp size).bucketSizeAu * lp.allocUnit :=
    fun c => (Nat.mul_assoc _ _ _).symm
  simp only [h.stripAt_eq ht hs, InBucket, hbytes, UnitsIn, ← Nat.add_mul, Nat.mul_le_mul_right_iff hu,
    Nat.mul_lt_mul_right hu]

theorem StripedCall.own_bucket (h : StripedCall lp size)
    (hfit : passStart (stripeGeometry lp size) s + (stripeGeometry lp size).bucketSizeAu < 2 ^ 64)
    (ht : Takes (stripeGeometry lp size) s p) (hlost : ¬ Lost (stripeGeometry lp size) s) :
    p < passStart (stripeGeometry lp size) s + (stripeGeometry lp size).bucketSizeAu ∧
      p + (stripeGeometry lp size).stripUnits ≤ passStart (stripeGeometry lp size) s + (stripeGeometry lp size).bucketSizeAu := by
  obtain ⟨⟨hlt, hsel⟩, hleast⟩ := h.takes_iff.1 ht
  by_contra hout
  have hroom : ∀ u, passStart (stripeGeometry lp size) s ≤ u → u ≤ p →
      u ≤ passStart (stripeGeometry lp size) s + (stripeGeometry lp size).bucketSizeAu → muBitmapTest s.bitmap u = false →
      u + (stripeGeometry lp size).stripUnits ≤ passStart (stripeGeometry lp size) s + (stripeGeometry lp size).bucketSizeAu := by
    intro u hu hup hend hclear
    have := hsel.room u hu hup hclear
    rw [sub64_of_le hfit hend] at this
    omega
  have hpast : passStart (stripeGeometry lp size) s + (stripeGeometry lp size).bucketSizeAu ≤ p := by
    by_contra hin
    exact hout ⟨by omega, hroom p hsel.from_le le_rfl (by omega) hsel.clear⟩
  refine hlost ⟨fun q hq hend hqroom hclear => ?_, fun u hu hend htail => ?_⟩
  · by_contra hnone
    push Not at hnone
    -- the run at `q` would have been taken first
    have hcand : q < (stripeGeometry lp size).nbits ∧ Selectable s.bitmap (stripeGeometry lp size).stripUnits
        (passStart (stripeGeometry lp size) s) (stripeGeometry lp size).bucketSizeAu
        (passStart (stripeGeometry lp size) s) q := by
      refine ⟨by omega, hq, hclear, fun b hb => by simpa using hnone b hb, fun x hx hxq _ => ?_⟩
      rw [sub64_of_le hfit (by omega)]
      omega
    have := hleast hcand
    omega
  · cases hbit : muBitmapTest s.bitmap u with
    | true => rfl
    | false =>
      have := hroom u hu (by omega) hend hbit
      omega

/-- A striped call that succeeds gives each strip a bucket of its own if its searches stay in theirs.
A search that leaves its bucket does no harm where the bucket that it ends in has no other strip, so
the converse does not hold. -/
theorem strided_buckets (h : StripedCall lp size) {fmap : FamfsLogFmap}
    (hok : famfsFileStridedAlloc host lp size = .ok (0, some fmap, lp')) (hstay : NoneLost host lp size) :
    BucketEach lp.interleaveParam.nbuckets (bucketBytes lp) fmap.extents := by
  obtain ⟨st, -, hheads, hend, hall, rfl, -⟩ := famfsFileStridedAlloc_success h.lo h.chunk hok
  obtain ⟨hne, hbucket⟩ := h.buckets hheads
  have hown : ∀ s ∈ stripPasses host lp size, ∀ p, Takes (stripeGeometry lp size) s p → Stored (stripeGeometry lp size) p →
      InBucket (bucketBytes lp) (passBucket s) (stripAt (stripeGeometry lp size) p) := by
    intro s hs p ht hst
    obtain ⟨hlt, hstart⟩ := hbucket s hs
    have hin := h.own_bucket (by rw [hstart]; exact h.start_fits hlt) ht (hstay s hs p ht hst)
    have hle := ht.start_le
    rw [hstart] at hin hle
    rw [inBucket_iff h ht hst, UnitsIn, Nat.succ_mul]
    exact ⟨hle, hin⟩
  rw [hend.extents hall, BucketEach]
  simp only [List.forall_mem_map, List.mem_filterMap, passStrip_iff, forall_exists_index, and_imp, List.pairwise_map,
    List.pairwise_filterMap]
  refine ⟨fun p s hs ht hst => ⟨passBucket s, (hbucket s hs).1, hown s hs p ht hst⟩, hne.imp_of_mem ?_⟩
  rintro s t hs ht hdiff p htp hsp q htq hsq b hb ⟨hp, hq⟩
  have hps := hown s hs p htp hsp
  have hqt := hown t ht q htq hsq
  rw [inBucket_iff h htp hsp] at hp hps
  rw [inBucket_iff h htq hsq] at hq hqt
  exact hdiff ((hps.unique hp).trans (hq.unique hqt))

end

/-- A session on a device of four buckets of 512 units, with stripes of two strips. -/
def stripedSession (lp : FamfsLockedLog) : FamfsLockedLog :=
  { lp with interleaveParam := ⟨4, 2, FAMFS_ALLOC_UNIT⟩ }

theorem stripedSession_call {lp : FamfsLockedLog} (hdev : lp.devsize = 2 ^ 32) (hunit : lp.allocUnit = FAMFS_ALLOC_UNIT)
    (hnbits : lp.nbits = 2048) {size : ℕ} (hlo : FAMFS_ALLOC_UNIT ≤ size) (hhi : size ≤ 2 ^ 32) :
    StripedCall (stripedSession lp) size where
  accepted := by simp only [stripedSession, hdev, hunit]; decide
  lo := show 1 ≤ 2 by decide
  hi := show 2 ≤ 16 by decide
  chunk := hlo
  size := hhi.trans_eq hdev.symm
  dev := by simp only [stripedSession, hdev]; decide
  unit := Or.inr hunit
  nbits := by simp only [stripedSession, hdev, hunit, hnbits]; decide

theorem secondFile_call : StripedCall (stripedSession (addFile freshSession 1)) (2 * FAMFS_ALLOC_UNIT) :=
  stripedSession_call (by decide +kernel) (by decide +kernel) (by decide +kernel) (by decide) (by decide)

theorem secondFile_placed :
    ∃ fmap lp', famfsFileStridedAlloc ⟨true, true, id⟩ (stripedSession (addFile freshSession 1)) (2 * FAMFS_ALLOC_UNIT) =
      .ok (0, some fmap, lp') ∧ fmap.extents = [unitExtent (6, 1), unitExtent (512, 1)] :=
  ok_of_map (f := FamfsLogFmap.extents) _ (by decide +kernel)

/-- Both buckets have a free unit, so both searches stay. -/
theorem strided_buckets_second_file :
    ∃ fmap lp', famfsFileStridedAlloc ⟨true, true, id⟩ (stripedSession (addFile freshSession 1)) (2 * FAMFS_ALLOC_UNIT) =
        .ok (0, some fmap, lp') ∧ fmap.extents = [unitExtent (6, 1), unitExtent (512, 1)] ∧
      BucketEach 4 (bucketBytes (stripedSession (addFile freshSession 1))) fmap.extents := by
  obtain ⟨f, lp', hok, hes⟩ := secondFile_placed
  refine ⟨f, lp', hok, hes, strided_buckets secondFile_call hok fun s hs p _ _ hlost => ?_⟩
  have hunits : (stripeGeometry (stripedSession (addFile freshSession 1)) (2 * FAMFS_ALLOC_UNIT)).stripUnits = 1 := by
    decide +kernel
  have hsize : (stripeGeometry (stripedSession (addFile freshSession 1)) (2 * FAMFS_ALLOC_UNIT)).bucketSizeAu = 512 := by
    decide +kernel
  have hfree : ∀ s ∈ stripPasses ⟨true, true, id⟩ (stripedSession (addFile freshSession 1)) (2 * FAMFS_ALLOC_UNIT),
      (passStart (stripeGeometry (stripedSession (addFile freshSession 1)) (2 * FAMFS_ALLOC_UNIT)) s = 0 ∧
        muBitmapTest s.bitmap 6 = false) ∨
      (passStart (stripeGeometry (stripedSession (addFile freshSession 1)) (2 * FAMFS_ALLOC_UNIT)) s = 512 ∧
        muBitmapTest s.bitmap 512 = false) := by decide +kernel
  rcases hfree s hs with ⟨hstart, hclear⟩ | ⟨hstart, hclear⟩
  · exact hlost.not_free (by omega) (by omega) (by omega) hclear fun b hb => by
      rw [hunits] at hb
      exact le_antisymm (Nat.lt_succ_iff.1 hb.2) hb.1
  · exact hlost.not_free (by omega) (by omega) (by omega) hclear fun b hb => by
      rw [hunits] at hb
      exact le_antisymm (Nat.lt_succ_iff.1 hb.2) hb.1

/-- A file takes units 5 to 512, the rest of the first bucket and one unit more. Then the
search in the first bucket and the one in the second both end in the second. -/
theorem strips_share_bucket :
    ReflTransGen (AllocStep Crc32.update 43 freshSuper) freshSession (addFile freshSession (508 * FAMFS_ALLOC_UNIT)) ∧
    StripedCall (stripedSession (addFile freshSession (508 * FAMFS_ALLOC_UNIT))) (2 * FAMFS_ALLOC_UNIT) ∧
    ∃ fmap lp', famfsFileStridedAlloc ⟨true, true, id⟩ (stripedSession (addFile freshSession (508 * FAMFS_ALLOC_UNIT)))
        (2 * FAMFS_ALLOC_UNIT) = .ok (0, some fmap, lp') ∧
      fmap.extents = [unitExtent (513, 1), unitExtent (514, 1)] ∧
      ¬ BucketEach 4 (bucketBytes (stripedSession (addFile freshSession (508 * FAMFS_ALLOC_UNIT)))) fmap.extents := by
  have hcall : StripedCall (stripedSession (addFile freshSession (508 * FAMFS_ALLOC_UNIT))) (2 * FAMFS_ALLOC_UNIT) :=
    stripedSession_call (by decide +kernel) (by decide +kernel) (by decide +kernel) (by decide) (by decide)
  obtain ⟨f, lp', hok, hes⟩ := ok_of_map (f := FamfsLogFmap.extents) [unitExtent (513, 1), unitExtent (514, 1)]
    (r := famfsFileStridedAlloc ⟨true, true, id⟩ (stripedSession (addFile freshSession (508 * FAMFS_ALLOC_UNIT)))
      (2 * FAMFS_ALLOC_UNIT)) (by decide +kernel)
  refine ⟨.single (addFile_step (by decide) (by decide) (by decide +kernel)), hcall, f, lp', hok, hes, ?_⟩
  rw [hes]
  decide +kernel

end Famfs

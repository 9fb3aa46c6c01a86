import Famfs.Lib.Stripes
import Famfs.Proofs.AllocUndo

/-! Where the bytes of a striped file lie. Each strip is long enough for its share of the
file and no two meet, so every byte has an address of its own; but a search that has left its
bucket can take a run that crosses the end of the bitmap, and the bytes in its last part lie
in no unit of the device. -/

namespace Famfs

open Machine Intervals Relation

/-- The device address of byte `o` of a file with this map. -/
def stripeAddress (p : FamfsInterleaveParam) (fmap : FamfsLogFmap) (o : ℕ) : ℕ :=
  (fmap.ieStrips 0 (Stripes.strip p.chunkSize p.nstrips o)).seOffset + Stripes.offset p.chunkSize p.nstrips o

/-- The bytes of the file lie in their strips, at different addresses, in units that the call
has taken. -/
structure Addressed (lp lp' : FamfsLockedLog) (fmap : FamfsLogFmap) (size : ℕ) : Prop where
  inside : ∀ o < size, Stripes.offset lp.interleaveParam.chunkSize lp.interleaveParam.nstrips o <
    (fmap.ieStrips 0 (Stripes.strip lp.interleaveParam.chunkSize lp.interleaveParam.nstrips o)).seLen
  injective : ∀ o < size, ∀ o' < size,
    stripeAddress lp.interleaveParam fmap o = stripeAddress lp.interleaveParam fmap o' → o = o'
  units : ∀ o < size, stripeAddress lp.interleaveParam fmap o / lp.allocUnit < lp.nbits ∧
    muBitmapTest lp.bits (stripeAddress lp.interleaveParam fmap o / lp.allocUnit) = false ∧
    muBitmapTest lp'.bits (stripeAddress lp.interleaveParam fmap o / lp.allocUnit) = true

/-- Every search that leaves its bucket and takes a strip takes it where the file's bytes in
it end inside the bitmap. -/
def LostInside (host : AllocHost) (lp : FamfsLockedLog) (size : ℕ) : Prop :=
  ∀ s ∈ stripPasses host lp size, Lost (stripeGeometry lp size) s → ∀ p,
    Takes (stripeGeometry lp size) s p → Stored (stripeGeometry lp size) p →
      p + divUp (Stripes.used lp.interleaveParam.chunkSize lp.interleaveParam.nstrips size s.nstripsAllocated)
        lp.allocUnit ≤ lp.nbits

/-- The slots of the map name runs of `n` units at these places, which do not meet. -/
structure StripsAt (p : FamfsInterleaveParam) (fmap : FamfsLogFmap) (au n : ℕ) (place : ℕ → ℕ) : Prop where
  slot : ∀ j < p.nstrips, fmap.ieStrips 0 j = ⟨0, place j * au, n * au⟩
  apart : ∀ i < p.nstrips, ∀ j < p.nstrips, i ≠ j → ∀ b, Seg.Has (place i, n) b → ¬ Seg.Has (place j, n) b

namespace StripsAt

variable {p : FamfsInterleaveParam} {fmap : FamfsLogFmap} {au n size : ℕ} {place : ℕ → ℕ}
  (h : StripsAt p fmap au n place) (hau : 0 < au) (hchunk : 0 < p.chunkSize) (hstrips : 0 < p.nstrips)
  (hlong : ∀ j, Stripes.used p.chunkSize p.nstrips size j ≤ n * au)

include h hau hstrips

theorem unit_eq (o : ℕ) :
    stripeAddress p fmap o / au =
      place (Stripes.strip p.chunkSize p.nstrips o) + Stripes.offset p.chunkSize p.nstrips o / au := by
  rw [stripeAddress, h.slot _ (Stripes.strip_lt _ hstrips o)]
  simp only
  rw [Nat.add_comm, Nat.add_mul_div_right _ _ hau, Nat.add_comm]

include hchunk hlong

omit hau in
theorem offset_lt {o : ℕ} (ho : o < size) :
    Stripes.offset p.chunkSize p.nstrips o < (fmap.ieStrips 0 (Stripes.strip p.chunkSize p.nstrips o)).seLen := by
  rw [h.slot _ (Stripes.strip_lt _ hstrips o)]
  exact lt_of_lt_of_le (Stripes.offset_lt_used hchunk hstrips ho) (hlong _)

theorem unit_has {o : ℕ} (ho : o < size) :
    Seg.Has (place (Stripes.strip p.chunkSize p.nstrips o), n) (stripeAddress p fmap o / au) := by
  rw [h.unit_eq hau hstrips]
  refine ⟨Nat.le_add_right _ _, Nat.add_lt_add_left ?_ _⟩
  rw [Nat.div_lt_iff_lt_mul hau]
  exact lt_of_lt_of_le (Stripes.offset_lt_used hchunk hstrips ho) (hlong _)

theorem injective {o o' : ℕ} (ho : o < size) (ho' : o' < size) (heq : stripeAddress p fmap o = stripeAddress p fmap o') :
    o = o' := by
  have hstrip : Stripes.strip p.chunkSize p.nstrips o = Stripes.strip p.chunkSize p.nstrips o' := by
    by_contra hne
    have hhas := h.unit_has hau hchunk hstrips hlong ho'
    rw [← heq] at hhas
    exact h.apart _ (Stripes.strip_lt _ hstrips o) _ (Stripes.strip_lt _ hstrips o') hne _ (h.unit_has hau hchunk hstrips hlong ho) hhas
  refine Stripes.ext hchunk hstrips hstrip ?_
  rw [stripeAddress, stripeAddress, hstrip] at heq
  exact Nat.add_left_cancel heq

omit hlong in
theorem units_lt_iff {nbits : ℕ} (hplace : ∀ j < p.nstrips, place j < nbits) :
    (∀ o < size, stripeAddress p fmap o / au < nbits) ↔
      ∀ j < p.nstrips, place j + divUp (Stripes.used p.chunkSize p.nstrips size j) au ≤ nbits := by
  simp only [h.unit_eq hau hstrips]
  constructor
  · intro hall j hj
    rcases Nat.eq_zero_or_pos (Stripes.used p.chunkSize p.nstrips size j) with hzero | hpos
    · rw [hzero, divUp_zero hau]
      exact (hplace j hj).le
    · -- the last byte of the strip is in the last unit
      obtain ⟨o, ho, hstrip, hofs⟩ := Stripes.exists_of_lt_used hchunk hj
        (show Stripes.used p.chunkSize p.nstrips size j - 1 < Stripes.used p.chunkSize p.nstrips size j by omega)
      have hlast := hall o ho
      rw [hstrip, hofs] at hlast
      have hup : divUp (Stripes.used p.chunkSize p.nstrips size j) au ≤
          (Stripes.used p.chunkSize p.nstrips size j - 1) / au + 1 := by
        rw [divUp_le hau]
        have := Nat.lt_div_mul_add (a := Stripes.used p.chunkSize p.nstrips size j - 1) hau
        rw [Nat.succ_mul]
        omega
      omega
  · intro hall o ho
    have hused := Stripes.offset_lt_used hchunk hstrips ho
    have hdiv : Stripes.offset p.chunkSize p.nstrips o / au <
        divUp (Stripes.used p.chunkSize p.nstrips size (Stripes.strip p.chunkSize p.nstrips o)) au := by
      rw [Nat.div_lt_iff_lt_mul hau]
      exact lt_of_lt_of_le hused (divUp_mul_ge _ hau)
    have := hall _ (Stripes.strip_lt p.chunkSize hstrips o)
    omega

end StripsAt

section

variable {host : AllocHost} {lp lp' : FamfsLockedLog} {size : ℕ} {st : StripState}

theorem StripedCall.slot (h : StripedCall lp size)
    (hheads : HeadsFrom (stripeGeometry lp size) (stripStart host lp) (stripPasses host lp size))
    (hend : LoopEnd (stripeGeometry lp size) lp.interleaveParam.nbuckets (stripStart host lp) st (stripPasses host lp size))
    {j p : ℕ} (hj : ((stripPasses host lp size).filterMap (passStrip (stripeGeometry lp size)))[j]? = some p) :
    (∃ s ∈ stripPasses host lp size, s.nstripsAllocated = j ∧ Takes (stripeGeometry lp size) s p ∧
      Stored (stripeGeometry lp size) p) ∧
      st.fmap.ieStrips 0 j = ⟨0, p * lp.allocUnit, (stripeGeometry lp size).stripUnits * lp.allocUnit⟩ := by
  obtain ⟨s, hs, hslot, hp⟩ := (hheads.slot_iff rfl).1 hj
  obtain ⟨ht, hst⟩ := passStrip_iff.1 hp
  refine ⟨⟨s, hs, hslot, ht, hst⟩, ?_⟩
  have hget := hend.slots j
  simp only [stripStart, Nat.not_lt_zero, if_false, Nat.sub_zero, List.getElem?_map, hj, Option.map_some,
    Option.getD_some] at hget
  rw [hget, h.stripAt_eq ht hst]

theorem StripedCall.strips_at (h : StripedCall lp size) (hbuf : lp.nbits ≤ lp.bits.bits)
    (h32 : lp.nbits + (stripeGeometry lp size).stripUnits ≤ 2 ^ 32)
    (hheads : HeadsFrom (stripeGeometry lp size) (stripStart host lp) (stripPasses host lp size))
    (hend : LoopEnd (stripeGeometry lp size) lp.interleaveParam.nbuckets (stripStart host lp) st (stripPasses host lp size))
    (hall : st.nstripsAllocated = lp.interleaveParam.nstrips) :
    ∃ place : ℕ → ℕ,
      StripsAt lp.interleaveParam st.fmap lp.allocUnit (stripeGeometry lp size).stripUnits place ∧
      (∀ j < lp.interleaveParam.nstrips, ∃ s ∈ stripPasses host lp size, s.nstripsAllocated = j ∧
        Takes (stripeGeometry lp size) s (place j) ∧ Stored (stripeGeometry lp size) (place j)) ∧
      ∀ s ∈ stripPasses host lp size, ∀ p, Takes (stripeGeometry lp size) s p → Stored (stripeGeometry lp size) p →
        s.nstripsAllocated < lp.interleaveParam.nstrips ∧ place s.nstripsAllocated = p := by
  have hcount : ((stripPasses host lp size).filterMap (passStrip (stripeGeometry lp size))).length =
      lp.interleaveParam.nstrips := by
    rw [← hall, hend.count]
    exact (Nat.zero_add _).symm
  have hget : ∀ j < lp.interleaveParam.nstrips, ((stripPasses host lp size).filterMap
      (passStrip (stripeGeometry lp size)))[j]? = some (((stripPasses host lp size).filterMap
        (passStrip (stripeGeometry lp size))).getD j 0) := by
    intro j hj
    rw [List.getD_eq_getElem _ _ (by omega), List.getElem?_eq_getElem (by omega)]
  have hdisj := List.pairwise_iff_getElem.1 (hheads.disjoint hbuf fun s _ p ht _ =>
    Or.inr ((Nat.add_le_add_right ht.lt.le _).trans h32))
  have hapart : ∀ i j (hi : i < lp.interleaveParam.nstrips) (hj : j < lp.interleaveParam.nstrips), i < j → ∀ b,
      Seg.Has (((stripPasses host lp size).filterMap (passStrip (stripeGeometry lp size))).getD i 0,
        (stripeGeometry lp size).stripUnits) b →
      ¬ Seg.Has (((stripPasses host lp size).filterMap (passStrip (stripeGeometry lp size))).getD j 0,
        (stripeGeometry lp size).stripUnits) b := by
    intro i j hi hj hij
    rw [List.getD_eq_getElem _ _ (by omega), List.getD_eq_getElem _ _ (by omega)]
    exact hdisj i j (by omega) (by omega) hij
  refine ⟨fun j => ((stripPasses host lp size).filterMap (passStrip (stripeGeometry lp size))).getD j 0,
    ⟨fun j hj => (h.slot hheads hend (hget j hj)).2, fun i hi j hj hne b hbi hbj => ?_⟩,
    fun j hj => (h.slot hheads hend (hget j hj)).1, fun s hs p ht hst => ?_⟩
  · rcases Nat.lt_or_gt_of_ne hne with hij | hji
    · exact hapart i j hi hj hij b hbi hbj
    · exact hapart j i hj hi hji b hbj hbi
  · have hslot := (hheads.slot_iff rfl).2 ⟨s, hs, rfl, passStrip_iff.2 ⟨ht, hst⟩⟩
    obtain ⟨hlt, hp⟩ := List.getElem?_eq_some_iff.1 hslot
    refine ⟨by omega, ?_⟩
    simp only
    rw [List.getD_eq_getElem _ _ hlt, hp]

/-- A striped call that succeeds gives every byte of the file an address of its own in a unit
that it takes, exactly when the searches that leave their buckets stay inside the bitmap. -/
theorem strided_addressed_iff (h : StripedCall lp size) (hunit : lp.allocUnit = FAMFS_ALLOC_UNIT)
    (hdev : lp.devsize < 2 ^ 30 * FAMFS_ALLOC_UNIT) (hbuf : lp.nbits ≤ lp.bits.bits) {fmap : FamfsLogFmap}
    (hok : famfsFileStridedAlloc host lp size = .ok (0, some fmap, lp')) :
    Addressed lp lp' fmap size ↔ LostInside host lp size := by
  obtain ⟨st, -, hheads, hend, hall, rfl, rfl⟩ := famfsFileStridedAlloc_success h.lo h.chunk hok
  obtain ⟨hbytes, hunits⟩ := h.stripUnits_eq hunit hdev
  rw [← hunit] at hbytes
  obtain ⟨-, hpos, -, -⟩ := famfsValidateInterleaveParam_zero h.accepted h.lo
  obtain ⟨-, hbucket⟩ := h.buckets hheads
  have hau := h.unit_pos.1
  have hlong : ∀ j, Stripes.used lp.interleaveParam.chunkSize lp.interleaveParam.nstrips size j ≤
      (stripeGeometry lp size).stripUnits * lp.allocUnit := fun j =>
    hbytes ▸ Stripes.used_le hpos h.lo (divUp_mul_ge size (Nat.mul_pos h.lo hpos))
  have hnbits : lp.nbits ≤ 2 ^ 30 ∧ lp.devsize / lp.allocUnit ≤ lp.nbits := by
    rw [h.nbits, bitmapNbits, hunit]
    simp only [FAMFS_ALLOC_UNIT] at hdev ⊢
    rw [u64_of_lt (by omega)]
    omega
  obtain ⟨place, hat, hfound, hslot⟩ := h.strips_at hbuf (by omega) hheads hend hall
  have hlt : ∀ j < lp.interleaveParam.nstrips, place j < lp.nbits := fun j hj => by
    obtain ⟨s, -, -, ht, -⟩ := hfound j hj
    exact ht.lt
  have hused : (∀ o < size, stripeAddress lp.interleaveParam st.fmap o / lp.allocUnit < lp.nbits) ↔
      LostInside host lp size := by
    rw [hat.units_lt_iff hau hpos h.lo hlt]
    constructor
    · intro hin s hs _ p ht hst
      obtain ⟨hj, rfl⟩ := hslot s hs p ht hst
      exact hin _ hj
    · intro hin j hj
      obtain ⟨s, hs, rfl, ht, hst⟩ := hfound j hj
      by_cases hlost : Lost (stripeGeometry lp size) s
      · exact hin s hs hlost _ ht hst
      · obtain ⟨hb, hstart⟩ := hbucket s hs
        have hown := (h.own_bucket (by rw [hstart]; exact h.start_fits hb) ht hlost).2
        rw [hstart] at hown
        have hup := (divUp_le hau).2 (hlong s.nstripsAllocated)
        have hlast := bucket_end lp size hb
        omega
  rw [← hused]
  constructor
  · intro haddr o ho
    exact (haddr.units o ho).1
  · intro hin
    refine ⟨fun o ho => hat.offset_lt hpos h.lo hlong ho, fun o ho o' ho' heq => hat.injective hau hpos h.lo hlong ho ho' heq,
      fun o ho => ⟨hin o ho, ?_, ?_⟩⟩
    · obtain ⟨s, hs, -, ht, -⟩ := hfound _ (Stripes.strip_lt lp.interleaveParam.chunkSize h.lo o)
      exact hheads.was_clear hs ht (hat.unit_has hau hpos h.lo hlong ho)
    · obtain ⟨s, hs, -, ht, -⟩ := hfound _ (Stripes.strip_lt lp.interleaveParam.chunkSize h.lo o)
      have hnb := hin o ho
      exact (hend.marked _).2 (Or.inr ⟨s, hs, _, ht, has_touches (hat.unit_has hau hpos h.lo hlong ho)
        (lt_of_lt_of_le hnb (hnbits.1.trans (by norm_num))), lt_of_lt_of_le hnb hbuf⟩)

end

/-- With one small file in the first bucket, the strips go to units 6 and 512. -/
theorem strided_addressed_iff_second_file :
    ∃ fmap lp', famfsFileStridedAlloc ⟨true, true, id⟩ (stripedSession (addFile freshSession 1)) (2 * FAMFS_ALLOC_UNIT) =
        .ok (0, some fmap, lp') ∧ fmap.extents = [unitExtent (6, 1), unitExtent (512, 1)] ∧
      Addressed (stripedSession (addFile freshSession 1)) lp' fmap (2 * FAMFS_ALLOC_UNIT) := by
  obtain ⟨f, lp', hok, hes⟩ := secondFile_placed
  have hin : ∀ s ∈ stripPasses ⟨true, true, id⟩ (stripedSession (addFile freshSession 1)) (2 * FAMFS_ALLOC_UNIT),
      ∀ p ∈ passPlace (stripeGeometry (stripedSession (addFile freshSession 1)) (2 * FAMFS_ALLOC_UNIT)) s,
        p + divUp (Stripes.used FAMFS_ALLOC_UNIT 2 (2 * FAMFS_ALLOC_UNIT) s.nstripsAllocated) FAMFS_ALLOC_UNIT ≤ 2048 := by
    decide +kernel
  have hunit : (stripedSession (addFile freshSession 1)).allocUnit = FAMFS_ALLOC_UNIT := by decide +kernel
  have hnbits : (stripedSession (addFile freshSession 1)).nbits = 2048 := by decide +kernel
  refine ⟨f, lp', hok, hes, (strided_addressed_iff secondFile_call hunit (by decide +kernel) (by decide +kernel) hok).mpr ?_⟩
  intro s hs _ p ht _
  rw [hunit, hnbits]
  exact hin s hs p (passPlace_iff.2 ht)

/-- A session on a device of 2 GiB where a file has taken units 5 to 512, all of the first of
two buckets and one unit more. -/
def halfFullSession : FamfsLockedLog :=
  { addFile (newSession (2 ^ 31) ⟨0, 0, 0⟩) (508 * FAMFS_ALLOC_UNIT) with interleaveParam := ⟨2, 1, FAMFS_ALLOC_UNIT⟩ }

/-- A strip of 512 units is put at unit 513 of 1024: the last 2 MiB of the file are past the
device. -/
theorem stripe_past_device :
    StripedCall halfFullSession (512 * FAMFS_ALLOC_UNIT) ∧ halfFullSession.allocUnit = FAMFS_ALLOC_UNIT ∧
      halfFullSession.devsize = 1024 * FAMFS_ALLOC_UNIT ∧ halfFullSession.nbits ≤ halfFullSession.bits.bits ∧
      ∃ fmap lp', famfsFileStridedAlloc ⟨true, true, id⟩ halfFullSession (512 * FAMFS_ALLOC_UNIT) =
          .ok (0, some fmap, lp') ∧ fmap.ieStrips 0 0 = unitExtent (513, 512) ∧
        ¬ Addressed halfFullSession lp' fmap (512 * FAMFS_ALLOC_UNIT) := by
  have hunit : halfFullSession.allocUnit = FAMFS_ALLOC_UNIT := by decide +kernel
  have hnbits : halfFullSession.nbits = 1024 := by decide +kernel
  obtain ⟨fmap, lp', hok, hstrip⟩ := ok_of_map (f := fun fmap => fmap.ieStrips 0 0) (unitExtent (513, 512))
    (r := famfsFileStridedAlloc ⟨true, true, id⟩ halfFullSession (512 * FAMFS_ALLOC_UNIT)) (by decide +kernel)
  refine ⟨⟨by decide +kernel, by decide +kernel, by decide +kernel, by decide +kernel, by decide +kernel, by decide +kernel,
    Or.inr hunit, by decide +kernel⟩, hunit, by decide +kernel, by decide +kernel, fmap, lp', hok, hstrip, fun haddr => ?_⟩
  have hlast := (haddr.units (511 * FAMFS_ALLOC_UNIT) (by decide)).1
  rw [hunit, hnbits, stripeAddress] at hlast
  have hzero : Stripes.strip halfFullSession.interleaveParam.chunkSize halfFullSession.interleaveParam.nstrips
      (511 * FAMFS_ALLOC_UNIT) = 0 := by decide +kernel
  have hofs : Stripes.offset halfFullSession.interleaveParam.chunkSize halfFullSession.interleaveParam.nstrips
      (511 * FAMFS_ALLOC_UNIT) = 511 * FAMFS_ALLOC_UNIT := by decide +kernel
  rw [hzero, hstrip, hofs] at hlast
  exact absurd hlast (by decide)

end Famfs

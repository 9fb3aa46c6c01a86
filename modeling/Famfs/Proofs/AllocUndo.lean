import Famfs.Proofs.AllocBuckets

/-! When a striped allocation that fails is undone. The loop that gives the strips back runs
over the buckets that were tried, so with more than sixteen of them it reads past the array of
strips; a place that was marked but not stored is not given back; and giving back stops at
an assertion for a strip that ends past the bitmap or was marked elsewhere. -/

namespace Famfs

open Machine Intervals Relation

variable {r : Except Trap (ℤ × Option FamfsLogFmap × FamfsLockedLog)}

/-- The elements of `ie_strips` that a call reads on its way out: one for each pass, if the passes
found too few strips. -/
def slotsRead (host : AllocHost) (lp : FamfsLockedLog) (size : ℕ) : List ℕ :=
  if host.fmapMem = false then []
  else match stripLoop (stripeGeometry lp size) lp.interleaveParam.nbuckets (stripStart host lp) with
    | .ok st => if st.nstripsAllocated < lp.interleaveParam.nstrips then List.range st.i else []
    | .error _ => []

/-- The call comes back, and if it is with an error the bitmap is as before and no slot was read
past the array. -/
def Undone (before : Bitmap) (slots : List ℕ) : Except Trap (ℤ × Option FamfsLogFmap × FamfsLockedLog) → Prop
  | .ok (rc, _, lp') => rc ≠ 0 → (∀ b, muBitmapTest lp'.bits b = muBitmapTest before b) ∧ ∀ j ∈ slots, j < FAMFS_MAX_SIMPLE_EXTENTS
  | .error _ => False

/-- The searches leave nothing that cannot be given back: there is a slot for each bucket,
each strip is marked where it is and inside the bitmap, and a place that is not stored as a
strip is marked in vain. -/
structure CanUndo (g : StripeGeometry) (nbuckets : ℕ) (heads : List StripState) : Prop where
  slots : nbuckets ≤ FAMFS_MAX_SIMPLE_EXTENTS
  stored : ∀ s ∈ heads, ∀ p, Takes g s p → Stored g p →
    g.stripUnits = 0 ∨ (p + g.stripUnits ≤ 2 ^ 32 ∧ p + g.stripUnits ≤ g.nbits)
  dropped : ∀ s ∈ heads, ∀ p, Takes g s p → ¬ Stored g p → ∀ b, Touches g.stripUnits p b → b < s.bitmap.bits →
    muBitmapTest s.bitmap b = true

/-- Enough of the searches find a place for a strip. -/
def EnoughPlaces (g : StripeGeometry) (heads : List StripState) : Prop :=
  ∃ found : List StripState, found.Sublist heads ∧ g.nstrips ≤ found.length ∧ ∀ s ∈ found, ∃ p, Takes g s p ∧ Stored g p

theorem enoughPlaces_iff (g : StripeGeometry) (heads : List StripState) :
    EnoughPlaces g heads ↔ g.nstrips ≤ (heads.filterMap (passStrip g)).length := by
  have hsome : ∀ s, (passStrip g s).isSome = true ↔ ∃ p, Takes g s p ∧ Stored g p := fun s => by
    simp only [Option.isSome_iff_exists, passStrip_iff]
  rw [List.length_filterMap_eq_countP]
  constructor
  · rintro ⟨found, hsub, hlen, hall⟩
    have hcount : found.countP (fun s => (passStrip g s).isSome) = found.length :=
      List.countP_eq_length.2 fun s hs => (hsome s).2 (hall s hs)
    exact (hlen.trans_eq hcount.symm).trans (hsub.countP_le)
  · intro hle
    refine ⟨heads.filter fun s => (passStrip g s).isSome, List.filter_sublist, ?_, fun s hs => ?_⟩
    · rw [← List.countP_eq_length_filter]
      exact hle
    · exact (hsome s).1 (List.mem_filter.1 hs).2

section

variable {g : StripeGeometry} {fuel : ℕ} {st st' : StripState} {heads : List StripState}

theorem LoopEnd.freed_of_marked (hend : LoopEnd g fuel st st' heads) (hheads : HeadsFrom g st heads) (hcan : CanUndo g fuel heads) {b : ℕ}
    (hset : muBitmapTest st'.bitmap b = true) (hwas : muBitmapTest st.bitmap b = false) :
    ∃ s ∈ heads, ∃ p, Takes g s p ∧ Stored g p ∧ Seg.Has (p, g.stripUnits) b := by
  rw [hend.marked, hwas] at hset
  obtain ⟨r, hr, q, htq, hbq, hlt⟩ := hset.resolve_left Bool.false_ne_true
  obtain ⟨s, hs, ⟨p, ht, hb⟩, hfirst⟩ := hheads.first ⟨r, hr, q, htq, hbq⟩
  by_cases hst : Stored g p
  · refine ⟨s, hs, p, ht, hst, ?_⟩
    rcases hcan.stored s hs p ht hst with hzero | ⟨h32, -⟩
    · obtain ⟨t, hlt', -⟩ := hb
      omega
    · exact (touches_iff h32).1 hb
  · rw [hwas] at hfirst
    exact absurd (hfirst.1 (hcan.dropped s hs p ht hst b hb (by rw [hheads.bits s hs]; exact hlt))) Bool.false_ne_true

theorem freedUnits_units {au p k : ℕ} (hunit : UnitAdmitted au) (hk : k * au < 2 ^ 64) :
    freedUnits au ⟨0, p * au, k * au⟩ = (p, k) := by
  have hpos : 0 < au := by rcases hunit with rfl | rfl <;> decide
  have hroom : k * au + au - 1 < 2 ^ 64 := by
    rcases hunit with rfl | rfl
    · omega
    · simp only [FAMFS_ALLOC_UNIT] at hk ⊢
      omega
  rw [freedUnits, u64_of_lt hroom, Nat.mul_div_cancel _ hpos]
  exact Prod.ext rfl (divUp_mul k hpos)

section

variable (hend : LoopEnd g fuel st st' heads) (hcount : st.nstripsAllocated = 0)
  (hslots : ∀ j, st.fmap.ieStrips 0 j = ⟨0, 0, 0⟩) (hunit : UnitAdmitted g.allocUnit)
  (hat : ∀ s ∈ heads, ∀ p, Takes g s p → Stored g p →
    stripAt g p = ⟨0, p * g.allocUnit, g.stripUnits * g.allocUnit⟩)

include hend hcount hslots hunit hat

theorem LoopEnd.slot (j : ℕ) :
    freedUnits g.allocUnit (st'.fmap.ieStrips 0 j) =
        (((heads.filterMap (passStrip g))[j]?).map fun p => (p, g.stripUnits)).getD (0, 0) ∧
      (st'.fmap.ieStrips 0 j).seOffset % g.allocUnit = 0 := by
  have hslot := hend.slots j
  rw [hcount, hslots, if_neg (Nat.not_lt_zero j), Nat.sub_zero, List.getElem?_map] at hslot
  rw [hslot]
  cases hj : (heads.filterMap (passStrip g))[j]? with
  | none =>
    have hzero := freedUnits_units (p := 0) (k := 0) hunit (by rw [Nat.zero_mul]; norm_num)
    rw [Nat.zero_mul] at hzero
    exact ⟨hzero, Nat.zero_mod _⟩
  | some p =>
    obtain ⟨s, hs, hp⟩ := List.mem_filterMap.1 (List.mem_of_getElem? hj)
    obtain ⟨ht, hst⟩ := passStrip_iff.1 hp
    simp only [Option.map_some, Option.getD_some, hat s hs p ht hst]
    refine ⟨freedUnits_units hunit ?_, Nat.mul_mod_left _ _⟩
    rw [← strip_length hunit]
    exact u64_lt _

theorem LoopEnd.freed (hlen : heads.length ≤ fuel) (b : ℕ) :
    (∀ j < fuel, ¬ (freedUnits g.allocUnit (st'.fmap.ieStrips 0 j)).Has b) ↔
      ∀ s ∈ heads, ∀ p, Takes g s p → Stored g p → ¬ Seg.Has (p, g.stripUnits) b := by
  have hle : (heads.filterMap (passStrip g)).length ≤ fuel := (List.length_filterMap_le _ _).trans hlen
  constructor
  · intro hnone s hs p ht hst hb
    obtain ⟨j, hj, hget⟩ := List.getElem_of_mem (List.mem_filterMap.2 ⟨s, hs, passStrip_iff.2 ⟨ht, hst⟩⟩)
    refine hnone j (by omega) ?_
    rw [(hend.slot hcount hslots hunit hat j).1, List.getElem?_eq_getElem hj, hget]
    exact hb
  · intro hnone j _ hb
    rw [(hend.slot hcount hslots hunit hat j).1] at hb
    cases hj : (heads.filterMap (passStrip g))[j]? with
    | none =>
      rw [hj] at hb
      exact Seg.not_has_zero hb
    | some p =>
      rw [hj] at hb
      obtain ⟨s, hs, hp⟩ := List.mem_filterMap.1 (List.mem_of_getElem? hj)
      obtain ⟨ht, hst⟩ := passStrip_iff.1 hp
      exact hnone s hs p ht hst hb

theorem LoopEnd.stored_of_freeable (hheads : HeadsFrom g st heads) (hlen : heads.length ≤ fuel)
    (hable : ∀ j < fuel, Freeable g st'.bitmap st'.fmap j) {s : StripState} (hs : s ∈ heads) {p : ℕ} (ht : Takes g s p)
    (hst : Stored g p) : g.stripUnits = 0 ∨ (p + g.stripUnits ≤ 2 ^ 32 ∧ p + g.stripUnits ≤ g.nbits) := by
  have hle : (heads.filterMap (passStrip g)).length ≤ fuel := (List.length_filterMap_le _ _).trans hlen
  obtain ⟨j, hj, hget⟩ := List.getElem_of_mem (List.mem_filterMap.2 ⟨s, hs, passStrip_iff.2 ⟨ht, hst⟩⟩)
  have hfree := hable j (by omega)
  have hslot : freedUnits g.allocUnit (st'.fmap.ieStrips 0 j) = (p, g.stripUnits) := by
    rw [(hend.slot hcount hslots hunit hat j).1, List.getElem?_eq_getElem hj, hget]
    rfl
  rcases Nat.eq_zero_or_pos g.stripUnits with hzero | hpos
  · exact Or.inl hzero
  have hin := hfree.inside
  rw [hslot] at hin
  -- the last bit of the run is set at the end but was not at the start
  have hlast : Seg.Has (p, g.stripUnits) (p + g.stripUnits - 1) := ⟨by simp only; omega, by simp only; omega⟩
  have hset := (hfree.run _ (by rw [hslot]; exact hlast)).1
  rw [hend.marked, hheads.was_clear hs ht hlast] at hset
  obtain ⟨r, -, q, -, htouch, -⟩ := hset.resolve_left Bool.false_ne_true
  have := htouch.lt
  exact Or.inr ⟨by omega, hin⟩

theorem LoopEnd.freeable (hheads : HeadsFrom g st heads) (hbuf : g.nbits ≤ st.bitmap.bits) (hcan : CanUndo g fuel heads) (j : ℕ) :
    Freeable g st'.bitmap st'.fmap j := by
  obtain ⟨hunits, halign⟩ := hend.slot hcount hslots hunit hat j
  cases hj : (heads.filterMap (passStrip g))[j]? with
  | none =>
    rw [hj] at hunits
    exact ⟨by rw [hunits]; exact Nat.zero_le _, halign, fun b hb => absurd (hunits ▸ hb) Seg.not_has_zero⟩
  | some p =>
    rw [hj] at hunits
    obtain ⟨hlt, hget⟩ := List.getElem?_eq_some_iff.1 hj
    obtain ⟨s, hs, hp⟩ := List.mem_filterMap.1 (List.mem_of_getElem? hj)
    obtain ⟨ht, hst⟩ := passStrip_iff.1 hp
    have hplt := ht.lt
    have hstored := hcan.stored s hs p ht hst
    refine ⟨by rw [hunits]; simp only [Option.map_some, Option.getD_some]; omega, halign, fun b hb => ?_⟩
    rw [hunits] at hb
    have hb' : p ≤ b ∧ b < p + g.stripUnits := hb
    refine ⟨(hend.marked b).2 (Or.inr ⟨s, hs, p, ht, has_touches hb (by omega), by omega⟩), fun k hk hbk => ?_⟩
    rw [(hend.slot hcount hslots hunit hat k).1, List.getElem?_eq_getElem (by omega)] at hbk
    have hapart := List.pairwise_iff_getElem.1 (hheads.disjoint hbuf fun s hs p ht hst => (hcan.stored s hs p ht hst).imp_right And.left) k j (by omega) hlt hk
    rw [hget] at hapart
    exact hapart b hbk hb

theorem LoopEnd.undo_iff (hheads : HeadsFrom g st heads) (hlen : heads.length = fuel) (hbuf : g.nbits ≤ st.bitmap.bits) :
    (fuel ≤ FAMFS_MAX_SIMPLE_EXTENTS ∧
      ∃ bm, freeStrips g st'.bitmap st'.fmap fuel = .ok bm ∧ ∀ b, muBitmapTest bm b = muBitmapTest st.bitmap b) ↔
      CanUndo g fuel heads := by
  constructor
  · rintro ⟨h16, bm, hfree, hsame⟩
    have hable := (freeStrips_ok_iff g st'.bitmap st'.fmap fuel).1 ⟨bm, hfree⟩
    have hstored : ∀ s ∈ heads, ∀ p, Takes g s p → Stored g p →
        g.stripUnits = 0 ∨ (p + g.stripUnits ≤ 2 ^ 32 ∧ p + g.stripUnits ≤ g.nbits) :=
      fun s hs p ht hst => hend.stored_of_freeable hcount hslots hunit hat hheads hlen.le hable hs ht hst
    refine ⟨h16, hstored, fun s hs p ht hst b hb hlt => ?_⟩
    by_contra hbit
    have hwas : ¬ muBitmapTest st.bitmap b = true := fun h => hbit (hheads.grows s hs b h)
    rw [hheads.bits s hs] at hlt
    -- the bit is marked, so it must have been given back with the strip of another search
    have hgone : ¬ (∀ r ∈ heads, ∀ q, Takes g r q → Stored g q → ¬ Seg.Has (q, g.stripUnits) b) := by
      intro hnone
      rw [← hend.freed hcount hslots hunit hat hlen.le] at hnone
      have hset := ((freeStrips_ok hfree).2 b).2 ⟨(hend.marked b).2 (Or.inr ⟨s, hs, p, ht, hb, hlt⟩), hnone⟩
      rw [hsame] at hset
      exact hwas hset
    push Not at hgone
    obtain ⟨r, hr, q, htq, hsq, hbq⟩ := hgone
    obtain ⟨i, hi, rfl⟩ := List.getElem_of_mem hs
    obtain ⟨j, hj, rfl⟩ := List.getElem_of_mem hr
    rcases Nat.lt_trichotomy i j with hij | rfl | hji
    · have hseen := hheads.sees hij hj ht hb hlt
      rw [htq.clear hbq] at hseen
      exact Bool.noConfusion hseen
    · exact hst (ht.unique htq ▸ hsq)
    · exact hbit (hheads.sees hji hi htq (has_touches hbq hb.lt) hlt)
  · intro hcan
    obtain ⟨bm, hfree⟩ := (freeStrips_ok_iff g st'.bitmap st'.fmap fuel).2
      fun j _ => hend.freeable hcount hslots hunit hat hheads hbuf hcan j
    refine ⟨hcan.slots, bm, hfree, fun b => ?_⟩
    rw [Bool.eq_iff_iff, (freeStrips_ok hfree).2, hend.freed hcount hslots hunit hat hlen.le]
    constructor
    · rintro ⟨hset, hnone⟩
      by_contra hwas
      obtain ⟨s, hs, p, ht, hst, hb⟩ := hend.freed_of_marked hheads hcan hset (by simpa using hwas)
      exact hnone s hs p ht hst hb
    · intro hwas
      refine ⟨(hend.marked b).2 (Or.inl hwas), fun s hs p ht _ hb => ?_⟩
      rw [hheads.was_clear hs ht hb] at hwas
      exact Bool.noConfusion hwas

end

end

section

variable {lp : FamfsLockedLog} {size : ℕ}

/-- A striped call comes back, and leaves the bitmap alone if it fails, exactly when there is
no memory for the map, or enough strips are found, or all that was marked can be given back. -/
theorem strided_undone_iff (h : StripedCall lp size) (hbuf : lp.nbits ≤ lp.bits.bits) (host : AllocHost) :
    Undone lp.bits (slotsRead host lp size) (famfsFileStridedAlloc host lp size) ↔
      host.fmapMem = false ∨ EnoughPlaces (stripeGeometry lp size) (stripPasses host lp size) ∨
        CanUndo (stripeGeometry lp size) lp.interleaveParam.nbuckets (stripPasses host lp size) := by
  rw [h.eq_loop, slotsRead]
  split_ifs with hmem
  · exact iff_of_true (fun _ => ⟨fun _ => rfl, fun _ hj => absurd hj List.not_mem_nil⟩) (Or.inl hmem)
  obtain ⟨st, hst, hheads, hend⟩ := h.loop host
  have hcount : st.nstripsAllocated =
      ((stripPasses host lp size).filterMap (passStrip (stripeGeometry lp size))).length :=
    hend.count.trans (Nat.zero_add _)
  rw [hst, enoughPlaces_iff, ← hcount, or_iff_right hmem]
  change Undone lp.bits (if st.nstripsAllocated < (stripeGeometry lp size).nstrips then List.range st.i else [])
    (finishStrips lp (stripeGeometry lp size) st) ↔ _
  rw [finishStrips]
  split_ifs with hfew
  · obtain ⟨hi, hlen⟩ := hend.passes hfew
    have hi' : st.i = lp.interleaveParam.nbuckets := hi.trans (Nat.zero_add _)
    rw [or_iff_right (not_le.2 hfew), ← hend.undo_iff rfl (stripedFmap_slots lp.interleaveParam) h.unit
      (fun s _ p ht hs => h.stripAt_eq ht hs) hheads hlen hbuf, hi']
    have hslots : (∀ j ∈ List.range lp.interleaveParam.nbuckets, j < FAMFS_MAX_SIMPLE_EXTENTS) ↔
        lp.interleaveParam.nbuckets ≤ FAMFS_MAX_SIMPLE_EXTENTS := by
      refine ⟨fun hall => ?_, fun hle j hj => (List.mem_range.1 hj).trans_le hle⟩
      by_contra hlt
      exact lt_irrefl _ (hall _ (List.mem_range.2 (not_le.1 hlt)))
    cases freeStrips (stripeGeometry lp size) st.bitmap st.fmap lp.interleaveParam.nbuckets with
    | error t => simp [Undone]
    | ok bm =>
      rw [← hslots, and_comm]
      simp [Undone, FamfsLockedLog.bits, stripStart, ENOMEM]
  · exact iff_of_true (fun hrc => absurd rfl hrc) (Or.inl (not_lt.1 hfew))

end

/-- The code and the bits that a call returns, or what stopped it. -/
def answer (r : Except Trap (ℤ × Option FamfsLogFmap × FamfsLockedLog)) : Except Trap (ℤ × Bitmap) :=
  r.map fun x => (x.1, x.2.2.bits)

theorem undone_of_answer {rc : ℤ} {before : Bitmap} {slots : List ℕ}
    (h : answer r = .ok (rc, before)) (hslots : ∀ j ∈ slots, j < FAMFS_MAX_SIMPLE_EXTENTS) : Undone before slots r := by
  rcases r with t | ⟨rc', fmap, lp'⟩
  · cases h
  · cases h
    exact fun _ => ⟨fun _ => rfl, hslots⟩

theorem not_undone {rc : ℤ} {before : Bitmap} {slots : List ℕ}
    {j : ℕ} (hrc : (answer r).map Prod.fst = .ok rc) (hne : rc ≠ 0) (hj : j ∈ slots) (hpast : FAMFS_MAX_SIMPLE_EXTENTS ≤ j) :
    ¬ Undone before slots r := by
  rcases r with t | ⟨rc', fmap, lp'⟩
  · cases hrc
  · cases hrc
    exact fun h => absurd ((h hne).2 j hj) (not_lt.2 hpast)

theorem error_of_answer {t : Trap}
    (h : answer r = .error t) : r = .error t := by
  rcases r with t' | ⟨rc', fmap, lp'⟩
  · cases h
    rfl
  · cases h

/-- The session with its bitmap, as its first allocation has it. -/
def withBitmap (lp : FamfsLockedLog) : FamfsLockedLog := (ensureBitmap Crc32.update lp).toOption.getD lp

/-- Two strips of 513 units do not fit in buckets of 512, and the call says so. -/
theorem strided_undone_iff_too_long :
    answer (famfsFileStridedAlloc ⟨true, true, id⟩ (stripedSession (withBitmap freshSession)) (1026 * FAMFS_ALLOC_UNIT)) =
      .ok (-ENOMEM, (withBitmap freshSession).bits) ∧
    (EnoughPlaces (stripeGeometry (stripedSession (withBitmap freshSession)) (1026 * FAMFS_ALLOC_UNIT))
        (stripPasses ⟨true, true, id⟩ (stripedSession (withBitmap freshSession)) (1026 * FAMFS_ALLOC_UNIT)) ∨
      CanUndo (stripeGeometry (stripedSession (withBitmap freshSession)) (1026 * FAMFS_ALLOC_UNIT)) 4
        (stripPasses ⟨true, true, id⟩ (stripedSession (withBitmap freshSession)) (1026 * FAMFS_ALLOC_UNIT))) := by
  have hcall : StripedCall (stripedSession (withBitmap freshSession)) (1026 * FAMFS_ALLOC_UNIT) :=
    stripedSession_call (by decide +kernel) (by decide +kernel) (by decide +kernel) (by decide) (by decide)
  have hanswer : answer (famfsFileStridedAlloc ⟨true, true, id⟩ (stripedSession (withBitmap freshSession))
      (1026 * FAMFS_ALLOC_UNIT)) = .ok (-ENOMEM, (withBitmap freshSession).bits) := by decide +kernel
  refine ⟨hanswer, Or.resolve_left ((strided_undone_iff hcall (by decide +kernel) ⟨true, true, id⟩).mp ?_) (by decide)⟩
  exact undone_of_answer hanswer (by decide +kernel)

/-- The first session on a new device, with the given configuration. -/
def newSession (devsize : ℕ) (p : FamfsInterleaveParam) : FamfsLockedLog :=
  withBitmap (famfsInitLockedLog 43 (mkfsSuperblock Crc32.update ⟨some [], [], []⟩ [] FAMFS_LOG_LEN devsize)
    (mkfsLog Crc32.update FAMFS_LOG_LEN) .v1 [47, 109] none (some p))

def wideSession (p : FamfsInterleaveParam) : FamfsLockedLog := newSession (17 * 2 ^ 30) p

/-- On the fresh device, sixteen strips of 513 units do not fit in the buckets of 512. All 17
searches fail, and giving back reads slot 16. -/
theorem undo_reads_past_strips :
    StripedCall (wideSession ⟨17, 16, FAMFS_ALLOC_UNIT⟩) (16 * 513 * FAMFS_ALLOC_UNIT) ∧
      (wideSession ⟨17, 16, FAMFS_ALLOC_UNIT⟩).nbits ≤ (wideSession ⟨17, 16, FAMFS_ALLOC_UNIT⟩).bits.bits ∧
      (answer (famfsFileStridedAlloc ⟨true, true, id⟩ (wideSession ⟨17, 16, FAMFS_ALLOC_UNIT⟩) (16 * 513 * FAMFS_ALLOC_UNIT))).map
        Prod.fst = .ok (-ENOMEM) ∧
      16 ∈ slotsRead ⟨true, true, id⟩ (wideSession ⟨17, 16, FAMFS_ALLOC_UNIT⟩) (16 * 513 * FAMFS_ALLOC_UNIT) ∧
      ¬ Undone (wideSession ⟨17, 16, FAMFS_ALLOC_UNIT⟩).bits
        (slotsRead ⟨true, true, id⟩ (wideSession ⟨17, 16, FAMFS_ALLOC_UNIT⟩) (16 * 513 * FAMFS_ALLOC_UNIT))
        (famfsFileStridedAlloc ⟨true, true, id⟩ (wideSession ⟨17, 16, FAMFS_ALLOC_UNIT⟩) (16 * 513 * FAMFS_ALLOC_UNIT)) := by
  have hread : 16 ∈ slotsRead ⟨true, true, id⟩ (wideSession ⟨17, 16, FAMFS_ALLOC_UNIT⟩) (16 * 513 * FAMFS_ALLOC_UNIT) := by
    decide +kernel
  have hanswer : (answer (famfsFileStridedAlloc ⟨true, true, id⟩ (wideSession ⟨17, 16, FAMFS_ALLOC_UNIT⟩)
      (16 * 513 * FAMFS_ALLOC_UNIT))).map Prod.fst = .ok (-ENOMEM) := by decide +kernel
  exact ⟨⟨by decide +kernel, by decide +kernel, by decide +kernel, by decide +kernel, by decide +kernel, by decide +kernel,
    Or.inr (by decide +kernel), by decide +kernel⟩, by decide +kernel, hanswer, hread, not_undone hanswer (by decide) hread le_rfl⟩

end Famfs

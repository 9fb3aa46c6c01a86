import Famfs.Proofs.ClusterSpace
import Famfs.Proofs.TornCounters
import Famfs.Spec.LogAccess

/-! What a scan of the log says of a cluster. For `famfs_fsck_scan` that is nothing, ever: before the first
torn counter there is nothing to find, and after it the scan passes over every entry that it would have to
find something in. A new session gets from it the space that files have, and no more. -/

namespace Famfs

open Machine Intervals Relation

theorem nbits_bound {devsize : ℕ} (hdev : 0 < devsize ∧ devsize < 2 ^ 30 * FAMFS_ALLOC_UNIT) :
    bitmapNbits devsize FAMFS_ALLOC_UNIT ≤ 2 ^ 30 := by
  simp only [bitmapNbits, FAMFS_ALLOC_UNIT] at hdev ⊢
  rw [u64_of_lt (by omega)]
  omega

section

variable {H P : Type} {crc32 : Crc32} {devsize N : ℕ} {s : Cluster H P} {L : Layout N} {rest : List Seg}

theorem Spread.scan (h : Spread crc32 devsize s L rest) (hbits : bitmapNbits devsize FAMFS_ALLOC_UNIT ≤ 2 ^ 30) :
    ∃ b, famfsBuildBitmap crc32 s.logp FAMFS_ALLOC_UNIT devsize = .ok b ∧ b.errors = 0 := by
  obtain ⟨b, hbuild, -, -, herrors⟩ := famfsBuildBitmap_mapped h.mapped devsize hbits
  exact ⟨b, hbuild, herrors (List.pairwise_append.1 (L.apart.perm h.segs fun h => h.symm)).1⟩

theorem torn_scan {s' : Cluster H P} {logp0 : FamfsLog} (ht : Told crc32 logp0 s) (ht' : Told crc32 logp0 s')
    (hl : Later s s') (htorn : 0 < s.torn)
    (hmaps : ∀ i < s.logp.famfsLogNextIndex, ∀ m, (s.logp.entries i).body = .fm m → m.fmFmap.Bounded) {b : BuiltBitmap}
    (hbuild : famfsBuildBitmap crc32 s.logp FAMFS_ALLOC_UNIT devsize = .ok b) :
    ∃ b', famfsBuildBitmap crc32 s'.logp FAMFS_ALLOC_UNIT devsize = .ok b' ∧ b'.errors = b.errors := by
  obtain ⟨hindex, hold, hnew⟩ := later_entries ht ht' hl htorn
  rw [famfsBuildBitmap_passed FAMFS_ALLOC_UNIT devsize (ht'.len.trans ht.len.symm) hindex hold
    (fun i hi _ => hmaps i hi) hnew, hbuild]
  exact ⟨_, rfl, rfl⟩

variable [DecidableEq H] [DecidableEq P] {kabi : ℕ} {hostOf : P → H} {uuid : H → List UInt8} {asked : CreateCall → Prop}
  {s0 s' : Cluster H P}

theorem tear_logp (hstep : ClusterStep crc32 kabi hostOf uuid asked s s') (h : s.torn = 0) (h' : s'.torn ≠ 0) :
    s'.logp = s.logp := by
  cases hstep with
  | exit => rfl
  | _ => exact absurd h h'

end

/-- The check finds nothing wrong in any state that a cluster can come to, with any number of processes
that ended between two counter stores: also where entries do not validate any more, and where the same
space is logged for two files. -/
theorem fsck_never_complains {H P : Type} [DecidableEq H] [DecidableEq P] {crc32 : Crc32} {kabi : ℕ}
    {hostOf : P → H} {uuid : H → List UInt8} {s0 s : Cluster H P} {mkfsHost : MkfsHost} {u : List UInt8}
    {logLen devsize : ℕ} (huuid : ∀ h h', pad 16 (uuid h) = pad 16 (uuid h') → h = h') (hf : Formatted crc32 s0)
    (hmade : s0.sb = mkfsSuperblock crc32 mkfsHost u logLen devsize ∧ s0.logp = mkfsLog crc32 logLen)
    (hdev : 0 < devsize ∧ devsize < 2 ^ 30 * FAMFS_ALLOC_UNIT) (hlen : mkfsLogLenValid logLen) (h64 : logLen < 2 ^ 64)
    (hrun : ReflTransGen (ClusterStep crc32 kabi hostOf uuid (CreateCall.Admitted devsize)) s0 s)
    {nbuckets : ℤ} (hbuckets : 0 ≤ nbuckets) : famfsFsckScan crc32 true s.sb s.logp nbuckets = .ok 0 := by
  have hbits := nbits_bound hdev
  have hscan : ∃ b, famfsBuildBitmap crc32 s.logp FAMFS_ALLOC_UNIT devsize = .ok b ∧ b.errors = 0 := by
    by_cases htorn : s.torn = 0
    · obtain ⟨L, rest, hL⟩ := spread_run (fun _ hc => hc) huuid hf hmade hdev hlen h64 hrun htorn
      exact hL.scan hbits
    · -- back to the first tear
      obtain ⟨a, b, hsa, ha, hab, hb, hbs⟩ := Runs.first_step (P := fun s => s.torn ≠ 0) hrun (fun h => h hf.torn) htorn
      obtain ⟨L, rest, hL⟩ := spread_run (fun _ hc => hc) huuid hf hmade hdev hlen h64 hsa (not_not.1 ha)
      obtain ⟨built, hbuild, hzero⟩ := hL.scan hbits
      have hmaps := hL.mapped.maps
      rw [← tear_logp hab (not_not.1 ha) hb] at hbuild hmaps
      obtain ⟨built', hbuild', herrors⟩ := torn_scan (told_run huuid hf (hsa.tail hab)).2 (told_run huuid hf hrun).2
        (later_run hbs) (Nat.pos_of_ne_zero hb) hmaps hbuild
      exact ⟨built', hbuild', herrors.trans hzero⟩
  obtain ⟨b, hbuild, hzero⟩ := hscan
  have hsb : s.sb = s0.sb := (told_run huuid hf hrun).1.super
  have hunit : s.sb.tsAllocUnit = FAMFS_ALLOC_UNIT := by
    rw [hsb, hmade.1]
    rfl
  have hsize : s.sb.tsDaxdevSize = devsize := by
    rw [hsb, hmade.1]
    rfl
  rw [famfsFsckScan, hunit, hsize, if_neg (by decide), if_neg (by decide), hbuild, Runs.ok_bind, if_neg (by omega), hzero]
  rfl

/-- The first host makes a directory after one of its processes tore a counter: the entry is counted,
does not validate, and the check finds nothing. -/
theorem fsck_never_complains_two_boxes :
    ∃ s, ReflTransGen (ClusterStep Crc32.update 43 id boxUuid (CreateCall.Admitted mkfsMinDevsize)) twoBoxes s ∧
      s.logp.famfsLogNextIndex = 1 ∧ ¬ entryValid Crc32.update s.logp 0 ∧
      famfsFsckScan Crc32.update true s.sb s.logp 0 = .ok 0 := by
  have htorn := boxTorn_run (CreateCall.Admitted mkfsMinDevsize) trivial
  obtain ⟨s, hlater, hindex⟩ := boxLater_run (CreateCall.Admitted mkfsMinDevsize) trivial
  have hrun := htorn.trans hlater
  refine ⟨s, hrun, hindex, ?_, ?_⟩
  · exact (later_entries (told_run boxUuid_distinct twoBoxes_formatted htorn).2
      (told_run boxUuid_distinct twoBoxes_formatted hrun).2 (later_run hlater) Nat.one_pos).2.2 0 (by decide) (by rw [hindex]; decide)
  · exact fsck_never_complains boxUuid_distinct twoBoxes_formatted ⟨rfl, rfl⟩ (by decide) (by decide) (by decide) hrun le_rfl

section

variable {logp : FamfsLog} {es : List FamfsSimpleExtent}

theorem units_has {e : FamfsSimpleExtent} (h : e.Whole) (x : ℕ) : e.units.Has x ↔ x * FAMFS_ALLOC_UNIT ∈ e.bytes := by
  have hoffset := h.offset
  have hlen := h.len
  simp only [FamfsSimpleExtent.units, Seg.Has, FamfsSimpleExtent.bytes, Set.mem_Ico, FAMFS_ALLOC_UNIT] at *
  omega

theorem covers_units (hes : ∀ e ∈ es, e.Whole) (x : ℕ) :
    Covers (es.map FamfsSimpleExtent.units) x ↔ ∃ e ∈ es, x * FAMFS_ALLOC_UNIT ∈ e.bytes := by
  simp only [Covers, List.mem_map, exists_exists_and_eq_and]
  exact exists_congr fun e => and_congr_right fun he => units_has (hes e he) x

theorem covers_logSegs (hes : ∀ e ∈ logExtents logp, e.Whole) (x : ℕ) :
    Covers (logSegs logp) x ↔ x * FAMFS_ALLOC_UNIT < FAMFS_SUPERBLOCK_SIZE + logp.famfsLogLen ∨
      ∃ e ∈ logExtents logp, x * FAMFS_ALLOC_UNIT ∈ e.bytes := by
  have hmeta : Seg.Has (0, metaUnits logp) x ↔ x * FAMFS_ALLOC_UNIT < FAMFS_SUPERBLOCK_SIZE + logp.famfsLogLen := by
    have hle := divUp_le (n := FAMFS_SUPERBLOCK_SIZE + logp.famfsLogLen) (m := x) (show 0 < FAMFS_ALLOC_UNIT by decide)
    simp only [Seg.Has, metaUnits]
    omega
  rw [logSegs, covers_cons, hmeta, covers_units hes]

end

/-- Space comes back with the next session. As long as no counter is torn, the bitmap that a new session
builds in any state of the cluster has exactly the units of the superblock, the log and the files in it,
whatever was placed before for creations that failed or for processes that ended; and the bitmap of an
open session has all of these, and those of a creation that is under way. -/
theorem cluster_space_recovered {H P : Type} [DecidableEq H] [DecidableEq P] {crc32 : Crc32} {kabi : ℕ}
    {hostOf : P → H} {uuid : H → List UInt8} {s0 s : Cluster H P} {mkfsHost : MkfsHost} {u : List UInt8}
    {logLen devsize : ℕ} (huuid : ∀ h h', pad 16 (uuid h) = pad 16 (uuid h') → h = h') (hf : Formatted crc32 s0)
    (hmade : s0.sb = mkfsSuperblock crc32 mkfsHost u logLen devsize ∧ s0.logp = mkfsLog crc32 logLen)
    (hdev : 0 < devsize ∧ devsize < 2 ^ 30 * FAMFS_ALLOC_UNIT) (hlen : mkfsLogLenValid logLen) (h64 : logLen < 2 ^ 64)
    (hrun : ReflTransGen (ClusterStep crc32 kabi hostOf uuid (CreateCall.Admitted devsize)) s0 s) (htorn : s.torn = 0) :
    ∃ b, famfsBuildBitmap crc32 s.logp FAMFS_ALLOC_UNIT devsize = .ok b ∧
      (∀ x < bitmapNbits devsize FAMFS_ALLOC_UNIT, muBitmapTest b.bitmap x = true ↔
        x * FAMFS_ALLOC_UNIT < FAMFS_SUPERBLOCK_SIZE + s.logp.famfsLogLen ∨
          ∃ e ∈ logExtents s.logp, x * FAMFS_ALLOC_UNIT ∈ e.bytes) ∧
      ∀ p lp bm, (s.pc p).lp = some lp → lp.bitmap = some bm → ∀ x < bitmapNbits devsize FAMFS_ALLOC_UNIT,
        (muBitmapTest b.bitmap x = true → muBitmapTest bm x = true) ∧
        ∀ fmap, (s.pc p).fmap = some fmap → (∃ e ∈ fmap.extents, x * FAMFS_ALLOC_UNIT ∈ e.bytes) →
          muBitmapTest bm x = true := by
  have hbits := nbits_bound hdev
  obtain ⟨L, rest, hL⟩ := spread_run (fun _ hc => hc) huuid hf hmade hdev hlen h64 hrun htorn
  obtain ⟨b, hbuild, -, htest, -⟩ := famfsBuildBitmap_mapped hL.mapped devsize hbits
  refine ⟨b, hbuild, fun x hx => (htest x hx).trans (covers_logSegs hL.mapped.whole x), fun p lp bm hlp hbm x hx => ?_⟩
  obtain ⟨-, -, hshows, -⟩ := hL.session p lp hlp
  -- the session's own bitmap also has what it placed and did not log
  have hshown : muBitmapTest bm x = true ↔ Covers (logSegs s.logp ++ rest) x := by
    rw [(hshows bm hbm).2.shown x hx]
    simp only [Covers, hL.segs.mem_iff]
  refine ⟨fun hset => hshown.2 ?_, fun fmap hfmap hin => hshown.2 ?_⟩
  · rw [covers_append]
    exact Or.inl ((htest x hx).1 hset)
  · obtain ⟨-, hwhole, rest', hperm⟩ := hL.pending p fmap hfmap
    rw [covers_append]
    refine Or.inr ?_
    obtain ⟨c, hc, hhas⟩ := (covers_units hwhole x).2 hin
    exact ⟨c, hperm.mem_iff.2 (List.mem_append_left _ hc), hhas⟩

/-- The creation of a second file fails after its unit was placed: a new session has only the unit of the
first one. -/
theorem cluster_space_recovered_two_boxes :
    ∃ s b, ReflTransGen (ClusterStep Crc32.update 43 id boxUuid (CreateCall.Admitted mkfsMinDevsize)) twoBoxes s ∧
      logExtents s.logp = [unitExtent (5, 1)] ∧
      famfsBuildBitmap Crc32.update s.logp FAMFS_ALLOC_UNIT mkfsMinDevsize = .ok b ∧
      muBitmapTest b.bitmap 5 = true ∧ muBitmapTest b.bitmap 6 = false := by
  have hstep := boxAlloc_step boxFile_admitted (s := boxLogged) rfl (by decide +kernel)
  rw [afterAlloc_placed (by decide +kernel) (by decide +kernel)] at hstep
  have hrun := ((boxLogged_run boxFile_admitted).tail hstep).tail (.notCreated (goto_self ..))
  have hextents : logExtents boxLogged.logp = [unitExtent (5, 1)] := by decide +kernel
  have hfirst : 5 * FAMFS_ALLOC_UNIT ∈ (unitExtent (5, 1)).bytes ↔ _ := Set.mem_Ico
  have hsecond : 6 * FAMFS_ALLOC_UNIT ∈ (unitExtent (5, 1)).bytes ↔ _ := Set.mem_Ico
  obtain ⟨b, hbuild, hexact, -⟩ := cluster_space_recovered boxUuid_distinct twoBoxes_formatted ⟨rfl, rfl⟩ (by decide)
    (by decide) (by decide) hrun rfl
  refine ⟨_, b, hrun, hextents, hbuild, (hexact 5 (by decide)).2 (Or.inr ⟨unitExtent (5, 1), ?_, hfirst.2 (by decide)⟩), ?_⟩
  · show unitExtent (5, 1) ∈ logExtents boxLogged.logp
    rw [hextents]
    exact List.mem_singleton_self _
  · rw [Bool.eq_false_iff]
    intro hset
    rcases (hexact 6 (by decide)).1 hset with hmeta | ⟨e, he, hin⟩
    · exact absurd hmeta (by decide +kernel)
    · change e ∈ logExtents boxLogged.logp at he
      rw [hextents, List.mem_singleton] at he
      subst he
      exact absurd (hsecond.1 hin) (by decide)

end Famfs

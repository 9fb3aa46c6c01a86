import Famfs.Proofs.LogRuns
import Famfs.Spec.Mkfs

/-! Formatting over whole histories. A call of `famfs_mkfs` refuses and changes nothing, kills the
superblock, or makes a new file system whose only master is the host that made it. Without force
the first call that succeeds settles who owns the device. On a device that drops its stores the
call looks at the magic number only: if it is there already the call reports a success and has
made nothing. -/

namespace Famfs

variable {calls : List (MkfsSys × MkfsArgs)}

inductive MkfsOutcome (crc32 : Crc32) (sys : MkfsSys) (a : MkfsArgs) (sb : FamfsSuperblock) (logp : FamfsLog) :
    ℤ × FamfsSuperblock × FamfsLog → Prop
  | refused {rc : ℤ} (hrc : rc ≠ 0) : MkfsOutcome crc32 sys a sb logp (rc, sb, logp)
  | killed (hkill : a.kill = true) (hforce : a.force = true) :
      MkfsOutcome crc32 sys a sb logp (0, famfsKillSuperblock sys.writable sb, logp)
  | dropped (hwrite : sys.writable = false) (hmagic : sb.tsMagic = FAMFS_SUPER_MAGIC)
      (hfree : a.force = false → famfsCheckSuper crc32 sb ≠ 0 ∧ famfsCheckSuper crc32 sb ≠ 1) :
      MkfsOutcome crc32 sys a sb logp (0, sb, logp)
  | made {u : List UInt8} {devsize : ℕ} (hwrite : sys.writable = true) (hlen : mkfsLogLenValid a.logLen)
      (hsize : sys.devsize = some devsize ∧ mkfsMinDevsize ≤ devsize) (hu : sys.host.systemUuid = some u)
      (hfree : a.force = false → famfsCheckSuper crc32 sb ≠ 0 ∧ famfsCheckSuper crc32 sb ≠ 1) :
      MkfsOutcome crc32 sys a sb logp (0, mkfsSuperblock crc32 sys.host u a.logLen devsize, mkfsLog crc32 a.logLen)

section

variable {crc32 : Crc32} {sys : MkfsSys} {a : MkfsArgs} {sb : FamfsSuperblock} {logp : FamfsLog}

theorem famfsMkfsAllowed_some {role : Option FamfsSystemRole} {force : Bool} {size : Option ℕ} {n : ℕ}
    (h : famfsMkfsAllowed role force size = some n) : size = some n ∧ mkfsMinDevsize ≤ n := by
  unfold famfsMkfsAllowed at h
  split_ifs at h
  cases size with
  | none => cases h
  | some m =>
    dsimp only at h
    split_ifs at h with hmin
    cases h
    exact ⟨rfl, not_lt.1 hmin⟩

theorem famfsMkfs_outcome {devsize : ℕ} (hlen : mkfsLogLenValid a.logLen)
    (hsize : sys.devsize = some devsize ∧ mkfsMinDevsize ≤ devsize) :
    MkfsOutcome crc32 sys a sb logp (famfsMkfs crc32 sys.host sys.writable sb logp a.logLen devsize a.force a.kill) := by
  by_cases hkill : (a.kill && a.force) = true
  · obtain ⟨hk, hf⟩ : a.kill = true ∧ a.force = true := by simpa using hkill
    rw [famfsMkfs, if_pos hkill]
    exact .killed hk hf
  by_cases hsuper : (famfsCheckSuper crc32 sb = 0 ∨ famfsCheckSuper crc32 sb = 1) ∧ a.force = false
  · rw [famfsMkfs, if_neg hkill, if_pos hsuper]
    exact .refused (by decide)
  have hfree : a.force = false → famfsCheckSuper crc32 sb ≠ 0 ∧ famfsCheckSuper crc32 sb ≠ 1 := fun hforce =>
    not_or.1 fun h => hsuper ⟨h, hforce⟩
  cases hu : sys.host.systemUuid with
  | none =>
    rw [famfsMkfs, if_neg hkill, if_neg hsuper, hu]
    exact .refused (by decide)
  | some u =>
    cases hwrite : sys.writable with
    | true =>
      rw [famfsMkfs_writable crc32 (Bool.eq_false_of_not_eq_true hkill) hsuper hu]
      exact .made hwrite hlen hsize hu hfree
    | false =>
      rw [famfsMkfs, if_neg hkill, if_neg hsuper, hu]
      by_cases hmagic : sb.tsMagic = FAMFS_SUPER_MAGIC
      · simp only [Bool.false_eq_true, ↓reduceIte, hmagic, ne_eq, not_true_eq_false]
        exact .dropped hwrite hmagic hfree
      · simp only [Bool.false_eq_true, ↓reduceIte, ne_eq, hmagic, not_false_eq_true]
        exact .refused (by decide)

theorem mkfs_killed_outcome {mapped : Bool} (hkill : (a.kill && a.force) = true) :
    MkfsOutcome crc32 sys a sb logp (if mapped then (0, famfsKillSuperblock sys.writable sb, logp) else (-1, sb, logp)) := by
  obtain ⟨hk, hf⟩ : a.kill = true ∧ a.force = true := by simpa using hkill
  split_ifs
  · exact .killed hk hf
  · exact .refused (by decide)

theorem famfsMkfsRawdev_outcome (hlen : mkfsLogLenValid a.logLen) :
    MkfsOutcome crc32 sys a sb logp (famfsMkfsRawdev crc32 sys a.logLen a.kill a.force sb logp) := by
  unfold famfsMkfsRawdev
  by_cases hmounted : sys.mounted = true
  · rw [if_pos hmounted]
    exact .refused (by decide)
  rw [if_neg hmounted]
  by_cases hkill : (a.kill && a.force) = true
  · rw [if_pos hkill]
    exact mkfs_killed_outcome hkill
  rw [if_neg hkill]
  cases hallow : famfsMkfsAllowed (famfsGetRoleByDev crc32 sys.mapRole sys.myUuid sb) a.force sys.devsize with
  | none => exact .refused (by decide)
  | some n =>
    dsimp only
    split_ifs
    · exact famfsMkfs_outcome hlen (famfsMkfsAllowed_some hallow)
    · exact .refused (by decide)

theorem famfsMkfsViaDummyMount_outcome (hlen : mkfsLogLenValid a.logLen) :
    MkfsOutcome crc32 sys a sb logp (famfsMkfsViaDummyMount crc32 sys a.logLen a.kill a.force sb logp) := by
  unfold famfsMkfsViaDummyMount
  by_cases hsize : sys.firstSize ≠ 0
  · rw [if_pos hsize]
    exact .refused hsize
  rw [if_neg hsize]
  by_cases hmode : sys.daxmode ≠ 0
  · rw [if_pos hmode]
    exact .refused hmode
  rw [if_neg hmode]
  by_cases hmount : sys.dummyMount ≠ 0
  · rw [if_pos hmount]
    exact .refused hmount
  rw [if_neg hmount]
  by_cases hkill : (a.kill && a.force) = true
  · rw [if_pos hkill]
    exact mkfs_killed_outcome hkill
  rw [if_neg hkill]
  by_cases hrole : sys.mapRole = false
  · rw [if_pos hrole]
    exact .refused (by decide)
  rw [if_neg hrole]
  cases hallow : famfsMkfsAllowed (some (famfsGetRole crc32 sys.myUuid sb)) a.force sys.devsize with
  | none => exact .refused (by decide)
  | some n =>
    dsimp only
    split_ifs
    · exact .refused (by decide)
    · exact .refused (by decide)
    · exact famfsMkfs_outcome hlen (famfsMkfsAllowed_some hallow)

theorem famfsMkfsRouted_outcome (crc32 : Crc32) (sys : MkfsSys) (a : MkfsArgs) (sb : FamfsSuperblock) (logp : FamfsLog) :
    MkfsOutcome crc32 sys a sb logp (famfsMkfsRouted crc32 sys a sb logp) := by
  unfold famfsMkfsRouted
  by_cases hlen : mkfsLogLenValid a.logLen
  · rw [if_neg (not_not.2 hlen)]
    split_ifs
    · exact famfsMkfsViaDummyMount_outcome hlen
    · exact famfsMkfsRawdev_outcome hlen
  · rw [if_pos hlen]
    exact .refused (by decide)

end

section

variable (crc32 : Crc32)

theorem famfsCheckSuper_made (host : MkfsHost) (u : List UInt8) (logLen devsize : ℕ) :
    famfsCheckSuper crc32 (mkfsSuperblock crc32 host u logLen devsize) = 0 := by
  have hcrc : (mkfsSuperblock crc32 host u logLen devsize).tsCrc =
      famfsGenSuperblockCrc crc32 (mkfsSuperblock crc32 host u logLen devsize) := rfl
  have hmagic : (mkfsSuperblock crc32 host u logLen devsize).tsMagic = FAMFS_SUPER_MAGIC := rfl
  have hversion : (mkfsSuperblock crc32 host u logLen devsize).tsVersion = FAMFS_CURRENT_VERSION := rfl
  have hunit : (mkfsSuperblock crc32 host u logLen devsize).tsAllocUnit = 0x200000 := rfl
  rw [famfsCheckSuper, if_neg (not_not.2 hmagic), if_neg (not_not.2 hversion), if_neg (not_not.2 hcrc),
    if_neg fun h => h.2 hunit]

theorem famfsGetRole_made (host : MkfsHost) (u me : List UInt8) (logLen devsize : ℕ) :
    famfsGetRole crc32 (some me) (mkfsSuperblock crc32 host u logLen devsize) =
      if pad 16 me = pad 16 u then .master else .client := by
  simp only [famfsGetRole, famfsCheckSuper_made, ne_eq, not_true_eq_false, ↓reduceIte]
  rfl

/-- Calls one after another, each from some host. The results, and the device at the end. -/
def mkfsRun : List (MkfsSys × MkfsArgs) → FamfsSuperblock → FamfsLog → List ℤ × FamfsSuperblock × FamfsLog
  | [], sb, logp => ([], sb, logp)
  | (sys, a) :: calls, sb, logp =>
    let (rc, sb, logp) := famfsMkfsRouted crc32 sys a sb logp
    let (rcs, sb, logp) := mkfsRun calls sb logp
    (rc :: rcs, sb, logp)

theorem mkfsRun_cons {sys : MkfsSys} {a : MkfsArgs}
    {sb sb1 : FamfsSuperblock} {logp logp1 : FamfsLog} {rc : ℤ} {rcs : List ℤ} {d : FamfsSuperblock × FamfsLog}
    (hcall : famfsMkfsRouted crc32 sys a sb logp = (rc, sb1, logp1)) (hrun : mkfsRun crc32 calls sb1 logp1 = (rcs, d)) :
    mkfsRun crc32 ((sys, a) :: calls) sb logp = (rc :: rcs, d) := by
  simp only [mkfsRun, hcall, hrun]

theorem mkfsRun_refused (hforce : ∀ c ∈ calls, c.2.force = false)
    {sb : FamfsSuperblock} (hsuper : famfsCheckSuper crc32 sb = 0) (logp : FamfsLog) :
    ∃ rcs, mkfsRun crc32 calls sb logp = (rcs, sb, logp) ∧ ∀ rc ∈ rcs, rc ≠ 0 := by
  induction calls with
  | nil => exact ⟨[], rfl, by simp⟩
  | cons c calls ih =>
    obtain ⟨sys, a⟩ := c
    rw [List.forall_mem_cons] at hforce
    obtain ⟨rcs, hrun, hrcs⟩ := ih hforce.2
    have hout := famfsMkfsRouted_outcome crc32 sys a sb logp
    generalize hcall : famfsMkfsRouted crc32 sys a sb logp = r at hout
    cases hout with
    | @refused rc hrc =>
      exact ⟨rc :: rcs, mkfsRun_cons crc32 hcall hrun, List.forall_mem_cons.2 ⟨hrc, hrcs⟩⟩
    | killed hkill hf =>
      rw [hforce.1] at hf
      cases hf
    | dropped hwrite hmagic hfree => exact absurd hsuper (hfree hforce.1).1
    | made hwrite hlen hsize hu hfree => exact absurd hsuper (hfree hforce.1).1

end

/-- The device is as the call made it, with a log that readers accept and one master. -/
structure MadeBy (crc32 : Crc32) (c : MkfsSys × MkfsArgs) (sb : FamfsSuperblock) (logp : FamfsLog) : Prop where
  super : ∃ u devsize, c.1.host.systemUuid = some u ∧ c.1.devsize = some devsize ∧
    sb = mkfsSuperblock crc32 c.1.host u c.2.logLen devsize ∧
    ∀ me, famfsGetRole crc32 (some me) sb = if pad 16 me = pad 16 u then .master else .client
  log : logp = mkfsLog crc32 c.2.logLen
  accepted : LogOk crc32 logp

/-- Of all calls without force, from any hosts and however the system answers them, at most one
succeeds. The device is then the one that this call made, with the host whose uuid the call read as
the only master. If none succeeds the device is as it was. Where the magic number is on the device
already it has to take what is stored to it. -/
theorem mkfs_first_wins (crc32 : Crc32)
    (hforce : ∀ c ∈ calls, c.2.force = false) (h64 : ∀ c ∈ calls, c.2.logLen < 2 ^ 64)
    {sb : FamfsSuperblock} (hwrite : sb.tsMagic = FAMFS_SUPER_MAGIC → ∀ c ∈ calls, c.1.writable = true) (logp : FamfsLog) :
    (∃ rcs, mkfsRun crc32 calls sb logp = (rcs, sb, logp) ∧ ∀ rc ∈ rcs, rc ≠ 0) ∨
    ∃ before c after rcs rcs' sb' logp', calls = before ++ c :: after ∧
      mkfsRun crc32 calls sb logp = (rcs ++ 0 :: rcs', sb', logp') ∧ rcs.length = before.length ∧
      (∀ rc ∈ rcs ++ rcs', rc ≠ 0) ∧ MadeBy crc32 c sb' logp' := by
  induction calls with
  | nil => exact Or.inl ⟨[], rfl, by simp⟩
  | cons c calls ih =>
    obtain ⟨sys, a⟩ := c
    rw [List.forall_mem_cons] at hforce h64
    simp only [List.forall_mem_cons] at hwrite
    have hout := famfsMkfsRouted_outcome crc32 sys a sb logp
    generalize hcall : famfsMkfsRouted crc32 sys a sb logp = r at hout
    cases hout with
    | @refused rc hrc =>
      rcases ih hforce.2 h64.2 (fun hmagic => (hwrite hmagic).2) with
        ⟨rcs, hrun, hrcs⟩ | ⟨before, c, after, rcs, rcs', sb', logp', rfl, hrun, hlen, hrcs, hmade⟩
      · exact Or.inl ⟨rc :: rcs, mkfsRun_cons crc32 hcall hrun, List.forall_mem_cons.2 ⟨hrc, hrcs⟩⟩
      · refine Or.inr ⟨(sys, a) :: before, c, after, rc :: rcs, rcs', sb', logp', rfl,
          mkfsRun_cons crc32 hcall hrun, ?_, ?_, hmade⟩
        · rw [List.length_cons, List.length_cons, hlen]
        · exact List.forall_mem_cons.2 ⟨hrc, hrcs⟩
    | killed hkill hf =>
      rw [hforce.1] at hf
      cases hf
    | dropped hnot hmagic hfree =>
      rw [(hwrite hmagic).1] at hnot
      cases hnot
    | @made u devsize hw hlen hsize hu hfree =>
      -- from here on there is a superblock, and every later call refuses
      have hsuper := famfsCheckSuper_made crc32 sys.host u a.logLen devsize
      obtain ⟨rcs, hrun, hrcs⟩ := mkfsRun_refused crc32 hforce.2 hsuper (mkfsLog crc32 a.logLen)
      refine Or.inr ⟨[], (sys, a), calls, [], rcs, mkfsSuperblock crc32 sys.host u a.logLen devsize,
        mkfsLog crc32 a.logLen, rfl, mkfsRun_cons crc32 hcall hrun, rfl, hrcs, ?_⟩
      exact ⟨⟨u, devsize, hu, hsize.1, rfl, fun me => famfsGetRole_made crc32 sys.host u me a.logLen devsize⟩, rfl,
        logOk_mkfs crc32 hlen.2 h64.1⟩

/-- The call of a host with this uuid on a raw device. -/
def mkfsFrom (u : List UInt8) : MkfsSys × MkfsArgs :=
  (⟨false, 0, 0, 0, true, true, true, true, true, some u, some mkfsMinDevsize, ⟨some u, [], []⟩⟩,
    ⟨FAMFS_LOG_LEN, false, false, false⟩)

def blankSuper : FamfsSuperblock :=
  { mkfsSuperblock Crc32.update ⟨none, [], []⟩ [] FAMFS_LOG_LEN mkfsMinDevsize with tsMagic := 0 }

/-- Two hosts format a blank device: the first makes it and is the master, the second is refused. -/
theorem mkfs_first_wins_two_hosts :
    (mkfsRun Crc32.update [mkfsFrom [1], mkfsFrom [2]] blankSuper (mkfsLog Crc32.update 0)).1 = [0, -EPERM] ∧
    ∃ sb' logp', (mkfsRun Crc32.update [mkfsFrom [1], mkfsFrom [2]] blankSuper (mkfsLog Crc32.update 0)).2 = (sb', logp') ∧
      MadeBy Crc32.update (mkfsFrom [1]) sb' logp' := by
  have hresults : (mkfsRun Crc32.update [mkfsFrom [1], mkfsFrom [2]] blankSuper (mkfsLog Crc32.update 0)).1 =
      [0, -EPERM] := by decide +kernel
  refine ⟨hresults, ?_⟩
  have hforce : ∀ c ∈ [mkfsFrom [1], mkfsFrom [2]], c.2.force = false := by decide
  have h64 : ∀ c ∈ [mkfsFrom [1], mkfsFrom [2]], c.2.logLen < 2 ^ 64 := by decide
  have hblank : blankSuper.tsMagic = FAMFS_SUPER_MAGIC → ∀ c ∈ [mkfsFrom [1], mkfsFrom [2]], c.1.writable = true := by
    decide
  rcases mkfs_first_wins Crc32.update hforce h64 hblank (mkfsLog Crc32.update 0) with
    ⟨rcs, hrun, hrcs⟩ | ⟨before, c, after, rcs, rcs', sb', logp', hcalls, hrun, hlen, hrcs, hmade⟩
  · rw [hrun] at hresults
    cases hresults
    exact absurd rfl (hrcs 0 (by simp))
  · rw [hrun] at hresults ⊢
    cases before with
    | nil =>
      cases hcalls
      exact ⟨sb', logp', rfl, hmade⟩
    | cons b before =>
      cases rcs with
      | nil => cases hlen
      | cons rc rcs =>
        have hrc : rc = 0 := (List.cons.inj hresults).1
        exact absurd hrc (hrcs rc (by simp))

end Famfs

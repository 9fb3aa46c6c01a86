import Famfs.Sanity.AllocFmap
import Famfs.Spec.Create

/-! All that a creation that returns can do, whatever the system calls return. -/

namespace Famfs

open Paths

section

variable {crc32 : Crc32} {kabi : ℕ} {cred : Cred} {sys : Sys} {host : AllocHost} {h : Host} {lp : FamfsLockedLog}
  {fmap : FamfsLogFmap} {relpath : CStr} {r : ℤ × Host × FamfsLockedLog}

theorem relpath_pathIn (s r : CStr) : famfsRelpathFromFullpath s (pathIn s r) = .ok (some r) := by
  have hpre : s <+: pathIn s r := List.prefix_append _ _
  have hne : pathIn s r ≠ s := by simp [pathIn]
  have hdrop : (pathIn s r).drop (s.length + 1) = r := by simp [pathIn]
  rw [famfsRelpathFromFullpath, if_neg (not_not.2 hpre), if_neg hne, hdrop]

def FamfsLockedLog.logged (crc32 : Crc32) (lp : FamfsLockedLog) (b : FamfsLogEntryBody) : FamfsLockedLog :=
  { lp with logp := famfsAppendLog crc32 lp.logp (newLogEntry b) }

def MkfileArgs.body (a : MkfileArgs) (fmap : FamfsLogFmap) (relpath : CStr) : FamfsLogEntryBody :=
  .fm (logFileMeta fmap relpath a.mode a.uid a.gid a.size)

variable {a : MkfileArgs}

theorem mkfileLog_cases {fd : ℤ} (hok : mkfileLog crc32 h lp a fmap relpath fd = .ok r) :
    (famfsLogFull lp.logp = true ∧ r = (-ENOMEM, h, lp)) ∨
      (famfsLogFull lp.logp = false ∧ r = (fd, h, lp.logged crc32 (a.body fmap relpath))) := by
  rw [mkfileLog, Runs.bind_eq_ok] at hok
  obtain ⟨⟨rc, logp⟩, hlog, hret⟩ := hok
  simp only [famfsLogFileCreation] at hlog
  split_ifs at hlog with h1 h2 hfull
  · cases hlog
    cases hret
    exact Or.inl ⟨hfull, rfl⟩
  · cases hlog
    cases hret
    exact Or.inr ⟨Bool.eq_false_iff.2 hfull, rfl⟩

theorem mkfileShadow_cases {root : CStr} (hok : mkfileShadow crc32 cred sys h lp a fmap relpath root = .ok r) :
    relpath.length < FAMFS_MAX_PATHLEN - 1 ∧ ∃ rc d h1,
      famfsShadowFileCreate cred sys h (pathIn root relpath)
        (logFileMeta fmap relpath a.mode a.uid a.gid a.size) false = (rc, d, h1) ∧
      ((rc ≠ 0 ∧ r = (-1, h1, lp)) ∨
        (rc = 0 ∧ mkfileLog crc32 h1 lp a fmap relpath
          (if sys.openFile ∧ (h1.openRdwr (pathIn lp.mpt relpath)).isSome then sys.fd else -1) = .ok r)) := by
  rw [mkfileShadow] at hok
  split_ifs at hok with hlen
  refine ⟨by omega, ?_⟩
  rcases hc : famfsShadowFileCreate cred sys h (pathIn root relpath)
    (logFileMeta fmap relpath a.mode a.uid a.gid a.size) false with ⟨rc, d, h1⟩
  refine ⟨rc, d, h1, rfl, ?_⟩
  simp only [hc] at hok
  split_ifs at hok with hrc hopen
  · cases hok
    exact Or.inl ⟨hrc, rfl⟩
  · exact Or.inr ⟨not_not.1 hrc, by rw [if_pos hopen]; exact hok⟩
  · exact Or.inr ⟨not_not.1 hrc, by rw [if_neg hopen]; exact hok⟩

theorem mkfileAlloc_cases (hok : mkfileAlloc crc32 kabi cred sys host h lp a = .ok r) :
    (∃ lp1, SameSession lp lp1 ∧ r = (-1, h, lp1)) ∨
      ∃ lp1 fmap relpath, famfsFileAlloc crc32 kabi host lp a.size = .ok (0, some fmap, lp1) ∧
        famfsRelpathFromFullpath lp1.mpt (targetFullpath h a.filename) = .ok (some relpath) ∧
        mkfileCreate crc32 kabi cred sys h lp1 a fmap relpath = .ok r := by
  rw [mkfileAlloc, Runs.bind_eq_ok] at hok
  obtain ⟨⟨rc, fmap, lp1⟩, halloc, hok⟩ := hok
  have hsame := (famfsFileAlloc_replayable halloc).1
  simp only at hok
  split_ifs at hok with hrc
  · cases hok
    exact Or.inl ⟨lp1, hsame, rfl⟩
  · rw [not_not] at hrc
    subst hrc
    cases fmap with
    | none => cases hok
    | some fmap =>
      simp only at hok
      split_ifs at hok with hone
      split at hok
      · cases hok
      · cases hok
        exact Or.inl ⟨lp1, hsame, rfl⟩
      · next relpath hrel => exact Or.inr ⟨lp1, fmap, relpath, halloc, hrel, hok⟩

theorem famfsMkfile_cases (hok : famfsMkfile crc32 kabi cred sys host h lp a = .ok r) :
    (∃ rc, r = (rc, h, lp) ∧ (rc = sys.fd ∨ rc = -1)) ∨
      (a.size ≠ 0 ∧ (sys.statTarget = true → h.stat (targetFullpath h a.filename) = none) ∧
        sys.statParent = true ∧ (∃ attr, h.stat (dirname (targetFullpath h a.filename)) = some (.dir attr)) ∧
        mkfileAlloc crc32 kabi cred sys host h lp a = .ok r) := by
  by_cases h0 : a.size = 0
  · rw [famfsMkfile, if_pos h0] at hok
    cases hok
  · rw [famfsMkfile, if_neg h0] at hok
    generalize hstat : (if sys.statTarget then h.stat (targetFullpath h a.filename) else none) = st at hok
    generalize hdir : (if sys.statParent then h.stat (dirname (targetFullpath h a.filename)) else none) = dir at hok
    cases st with
    | some n =>
      simp only at hok
      split_ifs at hok
      · cases hok
        exact Or.inl ⟨_, rfl, Or.inl rfl⟩
      · cases hok
        exact Or.inl ⟨_, rfl, Or.inr rfl⟩
      · cases hok
        exact Or.inl ⟨_, rfl, Or.inr rfl⟩
    | none =>
      simp only at hok
      split at hok
      · next attr =>
        split_ifs at hdir with hp
        refine Or.inr ⟨h0, fun ht => ?_, hp, ⟨attr, hdir⟩, hok⟩
        rwa [if_pos ht] at hstat
      · cases hok
        exact Or.inl ⟨_, rfl, Or.inr rfl⟩

end

section

variable {crc32 : Crc32} {cred : Cred} {sys : Sys} {h : Host} {lp : FamfsLockedLog} {a : MkdirArgs}
  {relpath : CStr} {r : ℤ × Host × FamfsLockedLog}

def MkdirArgs.body (a : MkdirArgs) (relpath : CStr) : FamfsLogEntryBody :=
  .md ⟨a.uid, a.gid, a.mode, copyRelpath relpath⟩

/-- The directory that new directories are made below. -/
def FamfsLockedLog.dirRoot (lp : FamfsLockedLog) : Option CStr :=
  match lp.famfsType with
  | .fuse => lp.shadowRoot
  | .v1 => some lp.mpt

theorem mkdirCreate_unrooted (hroot : lp.dirRoot = none) :
    mkdirCreate crc32 cred sys h lp a relpath = .error .nullPointer := by
  unfold mkdirCreate
  unfold FamfsLockedLog.dirRoot at hroot
  cases htype : lp.famfsType with
  | fuse =>
    rw [htype] at hroot
    simp only [hroot]
  | v1 =>
    rw [htype] at hroot
    cases hroot

theorem mkdirCreate_rooted {root : CStr} {rc : ℤ} {h1 : Host} (hroot : lp.dirRoot = some root)
    (hmk : famfsDirCreate cred sys h root relpath a.mode a.uid a.gid = (rc, h1)) :
    mkdirCreate crc32 cred sys h lp a relpath = if rc ≠ 0 then .ok (-1, h1, lp) else
      famfsLogDirCreation crc32 lp.logp relpath a.mode a.uid a.gid >>= fun r => .ok (r.1, h1, { lp with logp := r.2 }) := by
  unfold mkdirCreate
  unfold FamfsLockedLog.dirRoot at hroot
  cases htype : lp.famfsType with
  | fuse =>
    rw [htype] at hroot
    simp only [hroot, hmk]
  | v1 =>
    rw [htype] at hroot
    obtain rfl : lp.mpt = root := Option.some.inj hroot
    simp only [hmk]

theorem mkdirCreate_cases (hok : mkdirCreate crc32 cred sys h lp a relpath = .ok r) :
    ∃ root rc h1, lp.dirRoot = some root ∧
      famfsDirCreate cred sys h root relpath a.mode a.uid a.gid = (rc, h1) ∧
      ((rc ≠ 0 ∧ r = (-1, h1, lp)) ∨
        (rc = 0 ∧ famfsLogFull lp.logp = true ∧ r = (-ENOMEM, h1, lp)) ∨
        (rc = 0 ∧ famfsLogFull lp.logp = false ∧ r = (0, h1, lp.logged crc32 (a.body relpath)))) := by
  cases hroot : lp.dirRoot with
  | none =>
    rw [mkdirCreate_unrooted hroot] at hok
    cases hok
  | some root =>
    rcases hc : famfsDirCreate cred sys h root relpath a.mode a.uid a.gid with ⟨rc, h1⟩
    refine ⟨root, rc, h1, rfl, hc, ?_⟩
    rw [mkdirCreate_rooted hroot hc] at hok
    split_ifs at hok with hrc
    · cases hok
      exact Or.inl ⟨hrc, rfl⟩
    · rw [Runs.bind_eq_ok] at hok
      obtain ⟨⟨rc', logp⟩, hlog, hret⟩ := hok
      simp only [famfsLogDirCreation] at hlog
      split_ifs at hlog with h2 hfull
      · cases hlog
        cases hret
        exact Or.inr (Or.inl ⟨not_not.1 hrc, hfull, rfl⟩)
      · cases hlog
        cases hret
        exact Or.inr (Or.inr ⟨not_not.1 hrc, Bool.eq_false_iff.2 hfull, rfl⟩)

theorem stat_found {s : CStr} {p : Path} (hs : h.resolve s = .found p) : h.stat s = h.look p := by
  simp only [Host.stat, hs]

theorem stat_eq_some {s : CStr} {n : Node} (hs : h.stat s = some n) :
    ∃ p, h.resolve s = .found p ∧ h.look p = some n := by
  rw [Host.stat] at hs
  cases hr : h.resolve s with
  | found p => exact ⟨p, rfl, by rwa [hr] at hs⟩
  | missing p rest => rw [hr] at hs; cases hs
  | notDir => rw [hr] at hs; cases hs

theorem realpath_eq_some {s t : CStr} (hs : (h.realpath s).1 = some t) :
    ∃ p, h.resolve s = .found p ∧ t = render p := by
  rw [Host.realpath] at hs
  cases hr : h.resolve s with
  | found p =>
    rw [hr] at hs
    cases hs
    exact ⟨p, rfl, rfl⟩
  | missing p rest => rw [hr] at hs; cases hs
  | notDir => rw [hr] at hs; cases hs

theorem famfsMkdir_cases (hok : famfsMkdir crc32 cred sys h lp a = .ok r) :
    r = (-1, h, lp) ∨
      ((sys.realpath = true → (h.realpath a.dirpath).1 = none) ∧
        sys.realParent = true ∧ ∃ p relpath, h.resolve (dirname a.dirpath) = .found p ∧
          (sys.statParent = true → ∀ n, h.look p = some n → n.isDir = true) ∧
          famfsRelpathFromFullpath lp.mpt (pathIn (render p) (basename a.dirpath)) = .ok (some relpath) ∧
          mkdirCreate crc32 cred sys h lp a relpath = .ok r) := by
  by_cases hexists : sys.realpath ∧ (h.realpath a.dirpath).1.isSome
  · rw [famfsMkdir, if_pos hexists] at hok
    cases hok
    exact Or.inl rfl
  · rw [famfsMkdir, if_neg hexists] at hok
    have hnew : sys.realpath = true → (h.realpath a.dirpath).1 = none := by
      intro hs
      rw [← Option.not_isSome_iff_eq_none]
      exact fun hsome => hexists ⟨hs, hsome⟩
    generalize hstat : (if sys.statParent then h.stat (dirname a.dirpath) else none) = st at hok
    generalize hparent : (if sys.realParent then (h.realpath (dirname a.dirpath)).1 else none) = par at hok
    split at hok
    · cases hok
      exact Or.inl rfl
    · cases hok
      exact Or.inl rfl
    · next hreg hspecial =>
      cases par with
      | none =>
        cases hok
        exact Or.inl rfl
      | some realparent =>
        split_ifs at hparent with hreal
        obtain ⟨p, hp, rfl⟩ := realpath_eq_some hparent
        simp only at hok
        split at hok
        · cases hok
          exact Or.inl rfl
        · cases hok
        · next relpath hrel =>
          refine Or.inr ⟨hnew, hreal, p, relpath, hp, fun hs n hn => ?_, hrel, hok⟩
          rw [if_pos hs, stat_found hp, hn] at hstat
          cases n with
          | dir attr => rfl
          | reg attr data => exact absurd hstat.symm (hreg attr data)
          | special attr => exact absurd hstat.symm (hspecial attr)

end

end Famfs

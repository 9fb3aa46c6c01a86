import Famfs.Proofs.ReplayRuns
import Famfs.Sanity.PlayOutcomes

/-! The status of a replay. `__famfs_logplay` returns the number of errors it counted, and
some failures it does not count: a map that the kernel refuses, a shadow file whose yaml
is not written, an object of another kind in the place of a file, a directory that is
missing on the way to a file, and a file that `stat` does not show and that is written
over. In a replay that meets none of them the status tells the truth. -/

namespace Famfs

open Paths Machine

/-- What the file of an entry holds when the entry was carried out. -/
def carried (cfg : PlayConfig) (fm : FamfsLogFileMeta) : Option FileData :=
  if cfg.shadow then some (.shadow (some fm)) else (playedMap cfg.kabi fm).map (.mapped fm.fmSize)

/-- What an entry asks for is there. `before` is the node as the entry was reached. -/
def Realized (cfg : PlayConfig) (before after : Host) : FamfsLogEntryBody → Prop
  | .fm fm => ∃ attr data, after.stat (pathIn cfg.root (cstr fm.fmRelpath)) = some (.reg attr data) ∧
      (carried cfg fm = some data ∨ (before.stat (pathIn cfg.root (cstr fm.fmRelpath))).any Node.isReg = true)
  | .md md => (after.stat (pathIn cfg.root (cstr md.mdRelpath))).any Node.isDir = true
  | _ => True

section

variable {cfg : PlayConfig} {sys : Sys} {st st' : PlayState} {h h' : Host} {fm : FamfsLogFileMeta} {p : Path}
  {b : FamfsLogEntryBody}

theorem Keeps.statDir {s : CStr} (hk : Keeps h h') (hd : (h.stat s).any Node.isDir = true) :
    (h'.stat s).any Node.isDir = true := by
  obtain ⟨n, hn, hdir⟩ := (Option.any_eq_true _ _).1 hd
  obtain ⟨n', hn', hsame⟩ := hk.stat hn
  rw [hn']
  cases hsame with
  | dir a b => rfl
  | reg a b d => cases hdir
  | special a b => cases hdir

theorem Realized.keeps {before after : Host} (hr : Realized cfg before h b) (hk : Keeps h after) :
    Realized cfg before after b := by
  cases b with
  | fm fm =>
    obtain ⟨attr, data, hstat, hdata⟩ := hr
    obtain ⟨n, hn, hsame⟩ := hk.stat hstat
    cases hsame with
    | reg a b => exact ⟨b, data, hn, hdata⟩
  | md md => exact hk.statDir hr
  | _ => trivial

end

def playedBefore (cfg : PlayConfig) (sys : ℕ → Sys) (logp : FamfsLog) (st : PlayState) : ℕ → Except Trap PlayState
  | 0 => .ok st
  | i + 1 => do
    let st ← playedBefore cfg sys logp st i
    playEntry cfg (sys i) st (logp.body i)

section

variable {crc32 : Crc32} {cfg : PlayConfig} {sys : ℕ → Sys} {logp : FamfsLog} {st0 st st' : PlayState}

end

def loggedOnce (crc32 : Crc32) (b : FamfsLogEntryBody) : FamfsLog :=
  famfsAppendLog crc32 (mkfsLog crc32 FAMFS_LOG_LEN) (newLogEntry b)

theorem loggedOnce_body (crc32 : Crc32) (b : FamfsLogEntryBody) : (loggedOnce crc32 b).body 0 = b :=
  append_body_new

theorem famfsLogplay_loggedOnce {α : Type} {crc32 : Crc32} {cfg : PlayConfig} {sys : ℕ → Sys} {h : Host} {root : CStr}
    {b : FamfsLogEntryBody} {f : PlayState → α} {rc : ℤ} {v : α} (hrole : cfg.role ≠ .nosuper)
    (hroot : playRoot cfg h = some root)
    (hplay : ((playEntry { cfg with root := root } (sys 0) ⟨h, .zero⟩ b).toOption.map fun st => (playErrors st.ls, f st)) =
      some (rc, v)) :
    ∃ st, famfsLogplay crc32 cfg sys h (loggedOnce crc32 b) = .ok (rc, st) ∧ f st = v := by
  have hlog : LogOk crc32 (loggedOnce crc32 b) :=
    logOk_append crc32 (logOk_mkfs crc32 le_rfl (by decide)) rfl _
  have hvalid := hlog.entry 0 (Nat.zero_lt_one)
  have hbody : ((loggedOnce crc32 b).entries 0).body = b := loggedOnce_body crc32 b
  have hone : (loggedOnce crc32 b).famfsLogNextIndex = 1 := rfl
  rw [famfsLogplay_root hrole hlog.header hroot, hone, playLoop, if_neg (not_not.2 hvalid), hbody]
  cases hentry : playEntry { cfg with root := root } (sys 0) ⟨h, .zero⟩ b with
  | error t =>
    rw [hentry] at hplay
    cases hplay
  | ok st =>
    rw [hentry] at hplay
    cases hplay
    exact ⟨st, rfl, rfl⟩

end Famfs

import Famfs.Proofs.CreateAtomic
import Famfs.Sanity.PlayPlaces

/-! The paths in the log. A path reaches its entry in two cuts: the text of the mount point and one
byte more are taken off at its start, and what is left is copied as far as the array goes. Neither
cut is checked, except in FUSE mode for files, and `..` stays in the text. The object is made where
the text leads, so the entry holds its path exactly when the text was that path already. -/

namespace Famfs

open Paths

variable {r : ℤ × Host × FamfsLockedLog}

def loggedPath (logp logp' : FamfsLog) : CStr := (logp'.body logp.famfsLogNextIndex).relpath

def cutPath (mpt full : CStr) : CStr := full.drop (mpt.length + 1)

/-- Where the text that the call opens leads, with `.` and `..` resolved: in standalone mode the argument
itself, else what was cut out of it, below the shadow root. -/
def filePlace (root : Path) (lp : FamfsLockedLog) (full : CStr) : Path :=
  match lp.shadowRoot with
  | some _ => follow root (components (cutPath lp.mpt full))
  | none => follow [] (components full)

/-- A call of `__famfs_mkfile` or `__famfs_mkdir` in either mode, on any node and whatever its system
calls return, that cuts `rel` out of its path, hands a text to `open` or `mkdir` that leads to
`place`, makes an object at `made` and logs it as `logged`. The mount point, or the shadow root in
FUSE mode, is the directory `root`. -/
inductive Creation (crc32 : Crc32) (kabi : ℕ) (root : Path) : CStr → Path → Path → CStr → Prop
  | file {cred : Cred} {sys : Sys} {host : AllocHost} {h h' : Host} {lp lp' : FamfsLockedLog} {a : MkfileArgs} {rc : ℤ}
      {made : Path} (hroot : Rooted h lp.rootStr root) (hcwd : Rooted h (render h.cwd) h.cwd)
      (hok : famfsMkfile crc32 kabi cred sys host h lp a = .ok (rc, h', lp')) (hrc : 0 < rc)
      (hnew : lp'.logp.famfsLogNextIndex ≠ lp.logp.famfsLogNextIndex) (hfree : h.tree made = none)
      (hmade : h'.tree made ≠ none) :
      Creation crc32 kabi root (cutPath lp.mpt (targetFullpath h a.filename))
        (filePlace root lp (targetFullpath h a.filename)) made (loggedPath lp.logp lp'.logp)
  | dir {cred : Cred} {sys : Sys} {h h' : Host} {lp lp' : FamfsLockedLog} {a : MkdirArgs} {parent made : Path}
      (hroot : Rooted h lp.rootStr root) (hkind : lp.dirRoot = some lp.rootStr)
      (hparent : h.resolve (dirname a.dirpath) = .found parent)
      (hok : famfsMkdir crc32 cred sys h lp a = .ok (0, h', lp')) (hfree : h.tree made = none)
      (hmade : h'.tree made ≠ none) :
      Creation crc32 kabi root (cutPath lp.mpt (pathIn (render parent) (basename a.dirpath)))
        (follow root (components (cutPath lp.mpt (pathIn (render parent) (basename a.dirpath))))) made
        (loggedPath lp.logp lp'.logp)

def RelativePath (root place : Path) (rel : CStr) : Prop := ∃ names, names ≠ [] ∧ place = root ++ names ∧ rel = join names

section

variable {crc32 : Crc32} {kabi : ℕ} {root place made : Path} {rel logged : CStr}

theorem loggedPath_append (logp : FamfsLog) (b : FamfsLogEntryBody) :
    loggedPath logp (famfsAppendLog crc32 logp (newLogEntry b)) = b.relpath := by
  rw [loggedPath, append_body_new]
  rfl

theorem mkfileLog_logged {h : Host} {lp : FamfsLockedLog} {a : MkfileArgs} {fmap : FamfsLogFmap} {relpath : CStr} {fd : ℤ}
    (hok : mkfileLog crc32 h lp a fmap relpath fd = .ok r) :
    r.2.2 = lp ∨ r.2.2 = lp.logged crc32 (a.body fmap relpath) := by
  rcases mkfileLog_cases hok with ⟨-, rfl⟩ | ⟨-, rfl⟩
  · exact Or.inl rfl
  · exact Or.inr rfl

theorem mkfileStub_logged {cred : Cred} {sys : Sys} {h : Host} {lp : FamfsLockedLog} {a : MkfileArgs} {fmap : FamfsLogFmap}
    {relpath : CStr} (hok : mkfileStub crc32 kabi cred sys h lp a fmap relpath = .ok r) :
    r.2.2 = lp ∨ r.2.2 = lp.logged crc32 (a.body fmap relpath) := by
  simp only [mkfileStub] at hok
  split_ifs at hok with hfd hk
  · cases hok
    exact Or.inl rfl
  · obtain ⟨⟨rc, h1⟩, -, hlog⟩ := Runs.bind_eq_ok.1 hok
    exact mkfileLog_logged hlog
  · obtain ⟨⟨rc, h1⟩, -, hlog⟩ := Runs.bind_eq_ok.1 hok
    simp only at hlog
    split_ifs at hlog with hrc
    · cases hlog
      exact Or.inl rfl
    · exact mkfileLog_logged hlog

theorem mkfileCreate_logged {cred : Cred} {sys : Sys} {h : Host} {lp : FamfsLockedLog} {a : MkfileArgs} {fmap : FamfsLogFmap}
    {relpath : CStr} (hok : mkfileCreate crc32 kabi cred sys h lp a fmap relpath = .ok r) :
    r.2.2 = lp ∨ r.2.2 = lp.logged crc32 (a.body fmap relpath) := by
  rw [mkfileCreate] at hok
  split at hok
  · obtain ⟨-, rc, d, h1, -, ⟨-, rfl⟩ | ⟨-, hlog⟩⟩ := mkfileShadow_cases hok
    · exact Or.inl rfl
    · exact mkfileLog_logged hlog
  · exact mkfileStub_logged hok

theorem relpath_cut {mpt full rel : CStr} (h : famfsRelpathFromFullpath mpt full = .ok (some rel)) : rel = cutPath mpt full := by
  rw [famfsRelpathFromFullpath] at h
  split_ifs at h
  · exact (Option.some.inj (Except.ok.inj h)).symm
  · cases h

theorem adds_mapIoctl (sys : Sys) (h : Host) (p : Path) (size : ℕ) (map : IocMap) : Adds h (mapIoctl sys h p size map).2 none := by
  rw [mapIoctl]
  split_ifs
  · exact adds_writeBack (some (.mapped size map))
  · exact .refl h none

theorem adds_v2SetFileMap {sys : Sys} {h h' : Host} {fd rc : ℤ} {p : Path} {size : ℕ} {fm : FamfsLogFmap}
    (hok : famfsV2SetFileMap sys h fd p size fm = .ok (rc, h')) : Adds h h' none := by
  rw [famfsV2SetFileMap] at hok
  split_ifs at hok
  split at hok
  · cases hok
  · cases hok
    exact .refl h none
  · next map _ =>
    have hadds := adds_mapIoctl sys h p size map
    rwa [Except.ok.inj hok] at hadds

theorem adds_v1SetFileMap {sys : Sys} {h h' : Host} {fd rc : ℤ} {p : Path} {size nextents : ℕ} {fm : FamfsLogFmap}
    (hok : famfsV1SetFileMap sys h fd p size fm nextents = .ok (rc, h')) : Adds h h' none := by
  rw [famfsV1SetFileMap] at hok
  split_ifs at hok
  have hadds := adds_mapIoctl sys h p size (v1Map fm nextents)
  rwa [Except.ok.inj hok] at hadds

section

variable {cred : Cred} {sys : Sys} {h : Host} {lp : FamfsLockedLog} {a : MkfileArgs} {fmap : FamfsLogFmap}
  {r : ℤ × Host × FamfsLockedLog}

theorem mkfileLog_host {fd : ℤ} (hok : mkfileLog crc32 h lp a fmap rel fd = .ok r) : r.2.1 = h := by
  rcases mkfileLog_cases hok with ⟨-, rfl⟩ | ⟨-, rfl⟩
  · rfl
  · rfl

theorem adds_mkfileStub (hok : mkfileStub crc32 kabi cred sys h lp a fmap rel = .ok r) :
    Adds h r.2.1 (if sys.openCreat then h.creates a.filename else none) := by
  have hstub := adds_stub cred sys h a.filename a.mode a.uid a.gid false
  simp only [mkfileStub] at hok
  generalize famfsFileCreateStub cred sys h a.filename a.mode a.uid a.gid false = res at hok hstub
  obtain ⟨fd, p, h1⟩ := res
  simp only at hok hstub
  split_ifs at hok with hfd hk
  · cases hok
    exact hstub
  · obtain ⟨⟨rc, h2⟩, hmap, hlog⟩ := Runs.bind_eq_ok.1 hok
    rw [mkfileLog_host hlog]
    exact hstub.trans (adds_v2SetFileMap hmap)
  · obtain ⟨⟨rc, h2⟩, hmap, hlog⟩ := Runs.bind_eq_ok.1 hok
    simp only at hlog
    have hset := hstub.trans (adds_v1SetFileMap hmap)
    split_ifs at hlog with hrc
    · cases hlog
      exact hset
    · rw [mkfileLog_host hlog]
      exact hset

theorem mkfileCreate_place (hroot : Rooted h lp.rootStr root) (hcwd : Rooted h (render h.cwd) h.cwd)
    (hrel : rel = cutPath lp.mpt (targetFullpath h a.filename))
    (hok : mkfileCreate crc32 kabi cred sys h lp a fmap rel = .ok r) (hfree : h.tree made = none)
    (hmade : r.2.1.tree made ≠ none) : made = filePlace root lp (targetFullpath h a.filename) := by
  have hopened : ∀ s, Adds h r.2.1 (if sys.openCreat then h.creates s else none) → h.resolve s = .missing made [] := by
    intro s hadds
    have hcreates := hadds.tree made hfree hmade
    split_ifs at hcreates
    exact (creates_eq_some hcreates).1
  rw [mkfileCreate] at hok
  rw [filePlace]
  cases hshadow : lp.shadowRoot with
  | some s =>
    rw [FamfsLockedLog.rootStr, hshadow, Option.getD_some] at hroot
    rw [hshadow] at hok
    obtain ⟨-, rc, d, h1, hcreate, hcases⟩ := mkfileShadow_cases hok
    have hhost : r.2.1 = h1 := by
      rcases hcases with ⟨-, rfl⟩ | ⟨-, hlog⟩
      · rfl
      · exact mkfileLog_host hlog
    have hadds := adds_shadow cred sys h (pathIn s rel) (logFileMeta fmap rel a.mode a.uid a.gid a.size)
    rw [hcreate, ← hhost] at hadds
    have hres := hopened _ hadds
    rw [hroot.resolve_in] at hres
    rw [walk_missing_trailing hres, hrel]
  | none =>
    rw [hshadow] at hok
    have hres := hopened _ (adds_mkfileStub hok)
    have hname : a.filename ≠ [] := by
      intro hnil
      rw [hnil] at hres
      cases hres
    have htarget := resolve_target hcwd hname
    rw [show h.cd h.cwd = h from rfl, hres] at htarget
    have hhead : (targetFullpath h a.filename).head? = some slash := by
      rw [targetFullpath]
      split_ifs with habs
      · exact habs
      · rfl
    have hne : targetFullpath h a.filename ≠ [] := by
      intro hnil
      rw [hnil] at hhead
      cases hhead
    rw [Host.resolve, if_neg hne, if_pos hhead] at htarget
    exact walk_missing_trailing htarget.symm

end

theorem Creation.logged_made (h : Creation crc32 kabi root rel place made logged) :
    logged = copyRelpath rel ∧ made = place := by
  cases h with
  | @file cred sys host h h' lp lp' a rc made hroot hcwd hok hrc hnew hfree hmade =>
    rcases famfsMkfile_cases hok with ⟨rc', heq, -⟩ | ⟨-, -, -, -, halloc⟩
    · cases heq
      exact absurd rfl hnew
    rcases mkfileAlloc_cases halloc with ⟨lp1, -, heq⟩ | ⟨lp1, fmap, rel, hf, hrel, hcreate⟩
    · cases heq
      exact absurd hrc (by decide)
    have hsame := (famfsFileAlloc_replayable hf).1
    have hcut := relpath_cut hrel
    have hstr : lp1.rootStr = lp.rootStr := by rw [FamfsLockedLog.rootStr, FamfsLockedLog.rootStr, hsame.shadowRoot, hsame.mpt]
    have hat := mkfileCreate_place (hstr ▸ hroot) hcwd hcut hcreate hfree hmade
    rw [hsame.mpt] at hcut
    rw [filePlace, hsame.shadowRoot, hsame.mpt] at hat
    refine ⟨?_, hat⟩
    rcases mkfileCreate_logged hcreate with heq | heq
    · cases heq
      exact absurd (congrArg FamfsLog.famfsLogNextIndex hsame.logp) hnew
    · have hlogp : lp'.logp = famfsAppendLog crc32 lp.logp (newLogEntry (a.body fmap rel)) := by
        rw [← hsame.logp]
        exact congrArg FamfsLockedLog.logp heq
      rw [hlogp, loggedPath_append, ← hcut]
      rfl
  | @dir cred sys h h' lp lp' a parent made hroot hkind hparent hok hfree hmade =>
    rcases famfsMkdir_cases hok with heq | ⟨-, -, p, rel, hp, -, hrel, hcreate⟩
    · cases heq
    obtain rfl : parent = p := by
      rw [hparent] at hp
      cases hp
      rfl
    rw [← relpath_cut hrel]
    obtain ⟨s, rc, h1, hs, hmk, ⟨-, heq⟩ | ⟨-, -, heq⟩ | ⟨-, -, heq⟩⟩ := mkdirCreate_cases hcreate
    · cases heq
    · cases heq
    · cases heq
      refine ⟨loggedPath_append _ _, ?_⟩
      rw [hkind] at hs
      cases hs
      have hadds := adds_dirCreate cred sys h lp.rootStr rel a.mode a.uid a.gid
      rw [hmk] at hadds
      have hcreates := hadds.tree made hfree hmade
      split_ifs at hcreates
      have hres := (creates_eq_some hcreates).1
      have hstrip : stripSlashes (pathIn lp.rootStr rel) ≠ [] := by
        intro hnil
        rw [hnil] at hres
        cases hres
      rw [hroot.resolve_strip hstrip] at hres
      exact walk_missing_end hres

theorem Creation.plain (h : Creation crc32 kabi root rel place made logged) : ∀ c ∈ made, Plain c := by
  rw [h.logged_made.2]
  cases h with
  | @file cred sys host h h' lp lp' a rc made hroot hcwd hok hrc hnew hfree hmade =>
    rw [filePlace]
    split
    · exact follow_mem_plain hroot.plain fun c => components_mem
    · exact follow_mem_plain (fun c hc => absurd hc List.not_mem_nil) fun c => components_mem
  | dir hroot hkind hparent hok hfree hmade => exact follow_mem_plain hroot.plain fun c => components_mem

theorem RelativePath.ne {p q : Path} {s t : CStr} (hp : RelativePath root p s) (hq : RelativePath root q t)
    (hpl : ∀ c ∈ p, Plain c) (hql : ∀ c ∈ q, Plain c) (hne : p ≠ q) : s ≠ t := by
  obtain ⟨ns, -, rfl, rfl⟩ := hp
  obtain ⟨ms, -, rfl, rfl⟩ := hq
  intro heq
  have hcomps := congrArg components heq
  rw [components_join fun c hc => hpl c (List.mem_append_right _ hc),
    components_join fun c hc => hql c (List.mem_append_right _ hc)] at hcomps
  exact hne (by rw [hcomps])

end

end Famfs

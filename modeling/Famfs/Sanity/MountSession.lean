import Famfs.Sanity.MasterSteps

/-! A session at the mount of its node, and what one `__famfs_mkdir` does there. -/

namespace Famfs

open Paths

/-- The session is one of the mount that the node has. In FUSE mode the shadow root is the directory
behind the mount. -/
structure AtMount (shadow : Bool) (mpt root : Path) (h : Host) (lp : FamfsLockedLog) : Prop where
  mptNe : mpt ≠ []
  mptStr : lp.mpt = render mpt
  view : Rooted h (render mpt) mpt
  setting : Setting mpt root h lp shadow
  base : Rooted h lp.rootStr root
  apart : h.mount.Apart root

section

variable {shadow : Bool} {mpt root : Path} {h h' : Host} {lp lp' : FamfsLockedLog} {names : List Name} {crc32 : Crc32}
  {cred : Cred} {sys : Sys} {r : ℤ × Host × FamfsLockedLog}

theorem AtMount.grown (hs : AtMount shadow mpt root h lp) (he : Extends h h') (hsame : lp'.mpt = lp.mpt)
    (hroot : lp'.shadowRoot = lp.shadowRoot) (htype : lp'.famfsType = lp.famfsType) : AtMount shadow mpt root h' lp' := by
  have hstr : lp'.rootStr = lp.rootStr := by simp only [FamfsLockedLog.rootStr, hsame, hroot]
  refine ⟨hs.mptNe, hsame.trans hs.mptStr, hs.view.extends he, ?_, hstr ▸ hs.base.extends he, he.mount ▸ hs.apart⟩
  cases hs.setting with
  | standalone hmount hr hshadow ht =>
    exact .standalone (he.mount.trans hmount) hr (hroot.trans hshadow) (htype.trans ht)
  | fuse hmount hmpt hr hshadow ht =>
    exact .fuse (he.mount.trans hmount) hmpt hr (hroot.trans hshadow) (htype.trans ht)

theorem AtMount.plain (hs : AtMount shadow mpt root h lp) (hpl : ∀ c ∈ names, Plain c) : ∀ d ∈ mpt ++ names, Plain d :=
  List.forall_mem_append.2 ⟨hs.view.plain, hpl⟩

theorem MasterOk.atMount {kabi : ℕ} {allowed : Cred → Prop} {m : Master}
    (hm : MasterOk crc32 kabi shadow allowed mpt root m) : AtMount shadow mpt root m.host m.lp := by
  obtain ⟨node, hh, -⟩ := hm.made
  exact ⟨hm.mptNe, hm.mptStr, hm.view, hm.setting, hh.rooted, hh.apart⟩

theorem famfsDirCreate_cases {dir rpath : CStr} {mode uid gid : ℕ} {rc : ℤ}
    (hmk : famfsDirCreate cred sys h dir rpath mode uid gid = (rc, h')) :
    (rc = -1 ∧ h' = h) ∨ ∃ p, h.resolve (stripSlashes (pathIn dir rpath)) = .missing p [] ∧
      (rc = 0 → h' = h.set p (some (.dir (ownedAttr cred mode uid gid)))) := by
  rw [famfsDirCreate] at hmk
  by_cases hsys : sys.mkdir = true
  · rw [if_pos hsys, Host.mkdir] at hmk
    split at hmk
    · next hnone =>
      cases hmk
      exact Or.inl ⟨rfl, rfl⟩
    · next p h1 hsome =>
      split at hsome
      · next q hres =>
        split_ifs at hsome with hloc
        cases hsome
        refine Or.inr ⟨p, hres, ?_⟩
        rintro rfl
        split_ifs at hmk with hown hchown
        · cases hmk
          rw [modify_set, ownedAttr, if_pos hown]
          rfl
        · cases hmk
        · cases hmk
          rw [ownedAttr, if_neg hown]
      · cases hsome
  · rw [if_neg hsys] at hmk
    cases hmk
    exact Or.inl ⟨rfl, rfl⟩

theorem AtMount.dirCreate (hs : AtMount shadow mpt root h lp) (hne : names ≠ []) (hpl : ∀ c ∈ names, Plain c)
    {mode uid gid : ℕ} {rc : ℤ}
    (hmk : famfsDirCreate cred sys h lp.rootStr (join names) mode uid gid = (rc, h')) :
    (rc = -1 ∧ h' = h) ∨ (h.tree (root ++ names) = none ∧
      (rc = 0 → h' = h.set (root ++ names) (some (.dir (ownedAttr cred mode uid gid))))) := by
  rcases famfsDirCreate_cases hmk with hfail | ⟨p, hres, hmade⟩
  · exact Or.inl hfail
  · rw [stripSlashes_join hne hpl, hs.base.resolve_names hne hpl] at hres
    have hfree := walk_missing hres
    obtain rfl := walk_missing_last hpl hres
    rw [look_below hs.apart] at hfree
    exact Or.inr ⟨hfree, hmade⟩

theorem AtMount.mkdir_cases (hs : AtMount shadow mpt root h lp) (hne : names ≠ []) (hpl : ∀ c ∈ names, Plain c)
    {a : MkdirArgs} (hdir : ∀ p, h.resolve (dirname a.dirpath) = .found p → p = mpt ++ names.dropLast)
    (hbase : basename a.dirpath = names.getLast hne) (hok : famfsMkdir crc32 cred sys h lp a = .ok r) :
    r = (-1, h, lp) ∨ (h.tree (root ++ names) = none ∧ (r.1 = 0 → famfsLogFull lp.logp = false ∧
      r = (0, h.set (root ++ names) (some (.dir (ownedAttr cred a.mode a.uid a.gid))),
        lp.logged crc32 (a.body (join names))))) := by
  rcases famfsMkdir_cases hok with hfail | ⟨-, -, p, rel, hp, -, hrel, hcreate⟩
  · exact Or.inl hfail
  rw [hdir p hp, hbase, hs.mptStr, pathIn_render hs.mptNe, List.dropLast_append_getLast, relpath_pathIn] at hrel
  cases hrel
  obtain ⟨rootStr, rc, h1, hroot, hmk, hcases⟩ := mkdirCreate_cases hcreate
  rw [hs.setting.dirRoot] at hroot
  cases hroot
  rcases hs.dirCreate hne hpl hmk with ⟨rfl, rfl⟩ | ⟨hfree, hmade⟩
  · rcases hcases with ⟨-, hret⟩ | ⟨h0, -⟩ | ⟨h0, -⟩
    · exact Or.inl hret
    · cases h0
    · cases h0
  · refine Or.inr ⟨hfree, fun hzero => ?_⟩
    rcases hcases with ⟨-, rfl⟩ | ⟨-, -, rfl⟩ | ⟨h0, hroom, rfl⟩
    · cases hzero
    · cases hzero
    · exact ⟨hroom, by rw [hmade h0]⟩

end

end Famfs

import Famfs.Sanity.CreateCases
import Famfs.Sanity.MasterPaths
import Famfs.Sanity.PlayLog

/-! Histories of successful creations on a master. Each creation leaves below the root
the object that a replay of its log entry on the same node would make, so the objects
of the master are those of its log. -/

namespace Famfs

open Paths Machine

structure Master where
  host : Host
  lp : FamfsLockedLog

structure NormalPath (names : List Name) : Prop where
  nonempty : names ≠ []
  plain : ∀ c ∈ names, Plain c
  noNul : (0 : UInt8) ∉ join names
  short : (join names).length ≤ 78

/-- The string of the directory that objects are made below. -/
def FamfsLockedLog.rootStr (lp : FamfsLockedLog) : CStr := lp.shadowRoot.getD lp.mpt

/-- Steps of the master: a new session, or a call that succeeds. Every call is made by
a process with its own credentials and working directory, from which the session's
root is still the same directory, and its path argument is `names` below the mount
point. -/
inductive MasterStep (crc32 : Crc32) (kabi : ℕ) (sb : FamfsSuperblock) (allowed : Cred → Prop) :
    Master → Master → Prop
  | session (m : Master) (cfg : Option FamfsInterleaveParam) :
      MasterStep crc32 kabi sb allowed m
        ⟨m.host, famfsInitLockedLog kabi sb m.lp.logp m.lp.famfsType m.lp.mpt m.lp.shadowRoot cfg⟩
  | mkfile {m : Master} {cred : Cred} {cwd : Path} {fd rc : ℤ} {host : AllocHost} {param : FamfsInterleaveParam}
      {a : MkfileArgs} {names : List Name} {h' : Host} {lp' : FamfsLockedLog} (hcred : allowed cred)
      (hcwd : Rooted m.host (render cwd) cwd)
      (hsame : (m.host.cd cwd).resolve m.lp.rootStr = m.host.resolve m.lp.rootStr) (hpath : NormalPath names)
      (htarget : targetFullpath (m.host.cd cwd) a.filename = pathIn m.lp.mpt (join names))
      (hok : famfsMkfile crc32 kabi cred { Sys.healthy with fd := fd } host (m.host.cd cwd)
        { m.lp with interleaveParam := param } a = .ok (rc, h', lp'))
      (hrc : 0 < rc) : MasterStep crc32 kabi sb allowed m ⟨h', lp'⟩
  | mkdir {m : Master} {cred : Cred} {cwd : Path} {a : MkdirArgs} {names : List Name} {h' : Host}
      {lp' : FamfsLockedLog} (hcwd : Rooted m.host (render cwd) cwd)
      (hsame : (m.host.cd cwd).resolve m.lp.rootStr = m.host.resolve m.lp.rootStr) (hpath : NormalPath names)
      (htarget : targetFullpath (m.host.cd cwd) a.dirpath = pathIn m.lp.mpt (join names))
      (hok : famfsMkdir crc32 cred Sys.healthy (m.host.cd cwd) m.lp a = .ok (0, h', lp')) :
      MasterStep crc32 kabi sb allowed m ⟨h', lp'⟩

/-- The standalone or the FUSE setting of a master. -/
inductive Setting (mpt root : Path) (host : Host) (lp : FamfsLockedLog) : Bool → Prop
  | standalone (hmount : host.mount = .v1 mpt) (hroot : root = mpt) (hshadow : lp.shadowRoot = none)
      (htype : lp.famfsType = .v1) : Setting mpt root host lp false
  | fuse {d : FuseDirs} {s : CStr} (hmount : host.mount = .fuse d) (hmpt : d.mpt = mpt) (hroot : d.root = root)
      (hshadow : lp.shadowRoot = some s) (htype : lp.famfsType = .fuse) : Setting mpt root host lp true

def masterConfig (kabi : ℕ) (shadow : Bool) (cred : Cred) : PlayConfig :=
  ⟨kabi, cred, .master, shadow, false, []⟩

structure MasterOk (crc32 : Crc32) (kabi : ℕ) (shadow : Bool) (allowed : Cred → Prop) (mpt root : Path)
    (m : Master) : Prop where
  log : LogOk crc32 m.lp.logp
  good : GoodLog kabi m.lp.logp
  mptNe : mpt ≠ []
  mptStr : m.lp.mpt = render mpt
  view : Rooted m.host (render mpt) mpt
  setting : Setting mpt root m.host m.lp shadow
  made : ∃ node : ℕ → Node,
    Holds m.host m.lp.rootStr root (objects m.lp.logp node m.lp.logp.famfsLogNextIndex) ∧
    ∀ i < m.lp.logp.famfsLogNextIndex, ∃ cred, (∀ fm, m.lp.logp.body i = .fm fm → allowed cred) ∧
      node i = playNode (masterConfig kabi shadow cred) (m.lp.logp.body i)

theorem playedMap_replayable {kabi : ℕ} {fm : FamfsLogFileMeta} (hr : Replayable fm.fmFmap)
    (hsimple : kabi ≤ 42 → fm.fmFmap.fmapExtType = FAMFS_EXT_SIMPLE) : ∃ map, playedMap kabi fm = some map := by
  unfold playedMap
  by_cases hk : 42 < kabi
  · rw [if_pos hk]
    rcases hr.kind with ht | ⟨ht, hstrips⟩
    · have hmax : ¬ FAMFS_MAX_SIMPLE_EXTENTS < fm.fmFmap.fmapNextents := by rw [hr.one]; decide
      exact ⟨_, by rw [v2Map, if_pos ht, if_neg hmax]⟩
    · have hmax : ¬ FAMFS_MAX_INTERLEAVED_EXTENTS < fm.fmFmap.fmapNextents := by rw [hr.one]; decide
      have hnot : fm.fmFmap.fmapExtType ≠ FAMFS_EXT_SIMPLE := by rw [ht]; decide
      have hover : ¬ (0 < fm.fmFmap.fmapNextents ∧ FAMFS_MAX_SIMPLE_EXTENTS < fm.fmFmap.ieNstrips 0) :=
        fun h => absurd h.2 (not_lt.2 hstrips)
      exact ⟨_, by rw [v2Map, if_neg hnot, if_pos ht, if_neg hover, if_neg hmax]⟩
  · rw [if_neg hk, if_pos (hsimple (by omega))]
    exact ⟨_, rfl⟩

def shownNode (shadow : Bool) (n : Node) : Option Node := if shadow then n.present else some n

section

variable {mpt root : Path} {host : Host} {lp : FamfsLockedLog} {shadow : Bool} {objs : Objects} {s : CStr}

theorem Setting.look_tree (hs : Setting mpt root host lp shadow) (rel : List Name) :
    host.look (mpt ++ rel) = (host.tree (root ++ rel)).bind (shownNode shadow) := by
  cases hs with
  | standalone hmount hroot hshadow htype =>
    subst hroot
    simp only [Host.look, hmount]
    cases host.tree (root ++ rel) with
    | none => rfl
    | some n => rfl
  | @fuse d s' hmount hmpt hroot hshadow htype =>
    subst hmpt hroot
    have hpre : d.mpt <+: d.mpt ++ rel := List.prefix_append _ _
    simp only [Host.look, hmount, hpre, if_true, List.drop_left]
    rfl

theorem Setting.look (hs : Setting mpt root host lp shadow) (hh : Holds host s root objs) {rel : List Name}
    (hne : rel ≠ []) : host.look (mpt ++ rel) = (objs.lookup rel).bind (shownNode shadow) := by
  rw [hs.look_tree, hh.below rel hne]

theorem Setting.dirRoot (hs : Setting mpt root host lp shadow) : lp.dirRoot = some lp.rootStr := by
  cases hs with
  | standalone hmount hr hshadow htype =>
    simp only [FamfsLockedLog.dirRoot, FamfsLockedLog.rootStr, htype, hshadow, Option.getD_none]
  | fuse hmount hmpt hr hshadow htype =>
    simp only [FamfsLockedLog.dirRoot, FamfsLockedLog.rootStr, htype, hshadow, Option.getD_some]

theorem playNode_shown {kabi : ℕ} (cred : Cred) {b : FamfsLogEntryBody} (hg : GoodEntry kabi b) :
    ∃ n, shownNode shadow (playNode (masterConfig kabi shadow cred) b) = some n ∧
      (n.isDir = true ↔ ∃ md, b = .md md) ∧ (n.isReg = true ↔ ∃ fm, b = .fm fm) := by
  cases hg.creates with
  | @file fm hone hoff hmap =>
    cases shadow with
    | true => exact ⟨_, rfl, by simp [Node.isDir], by simp [Node.isReg]⟩
    | false => exact ⟨_, rfl, by simp [playNode, masterConfig, Node.isDir], by simp [playNode, masterConfig, Node.isReg]⟩
  | @dir md =>
    cases shadow with
    | true => exact ⟨_, rfl, by simp [playNode, Node.isDir], by simp [playNode, Node.isReg]⟩
    | false => exact ⟨_, rfl, by simp [playNode, Node.isDir], by simp [playNode, Node.isReg]⟩

end

section

variable {h : Host} {s : CStr} {root cwd : Path}

theorem cd_resolve (hs : s.head? = some slash) : (h.cd cwd).resolve s = h.resolve s := by
  simp only [Host.resolve, hs, if_true]
  rfl

theorem Rooted.cd (hr : Rooted h s root) (hsame : (h.cd cwd).resolve s = h.resolve s) :
    Rooted (h.cd cwd) s root :=
  ⟨hsame.trans hr.resolves, hr.plain, hr.reach, hr.dir⟩

theorem Holds.cd {objs : Objects} (hh : Holds h s root objs) (hsame : (h.cd cwd).resolve s = h.resolve s) :
    Holds (h.cd cwd) s root objs :=
  ⟨hh.rooted.cd hsame, hh.apart, hh.below, hh.closed⟩

end

/-- The directory of a path is logged among the first `n` entries. -/
def FamfsLog.HasParent (logp : FamfsLog) (n : ℕ) (names : List Name) : Prop :=
  names.dropLast = [] ∨ ∃ j < n, (∃ md, logp.body j = .md md) ∧ (logp.body j).names = names.dropLast

section

variable {crc32 : Crc32} {kabi : ℕ} {shadow : Bool} {allowed : Cred → Prop} {mpt root : Path} {m : Master}
  {names : List Name}

theorem MasterOk.cd (hm : MasterOk crc32 kabi shadow allowed mpt root m) {cwd : Path}
    (hsame : (m.host.cd cwd).resolve m.lp.rootStr = m.host.resolve m.lp.rootStr) :
    MasterOk crc32 kabi shadow allowed mpt root ⟨m.host.cd cwd, m.lp⟩ := by
  obtain ⟨node, hh, hnode⟩ := hm.made
  refine ⟨hm.log, hm.good, hm.mptNe, hm.mptStr, hm.view.cd (cd_resolve rfl), ?_, node, hh.cd hsame, hnode⟩
  cases hm.setting with
  | standalone hmount hroot hshadow htype => exact .standalone hmount hroot hshadow htype
  | fuse hmount hmpt hroot hshadow htype => exact .fuse hmount hmpt hroot hshadow htype

theorem MasterOk.same (hm : MasterOk crc32 kabi shadow allowed mpt root m) {lp : FamfsLockedLog}
    (hs : SameSession m.lp lp) : MasterOk crc32 kabi shadow allowed mpt root ⟨m.host, lp⟩ := by
  obtain ⟨node, hh, hnode⟩ := hm.made
  have hroot : lp.rootStr = m.lp.rootStr := by simp only [FamfsLockedLog.rootStr, hs.shadowRoot, hs.mpt]
  refine ⟨hs.logp ▸ hm.log, hs.logp ▸ hm.good, hm.mptNe, hs.mpt.trans hm.mptStr, hm.view, ?_, node, ?_, ?_⟩
  · cases hm.setting with
    | standalone hmount hr hshadow htype =>
      exact .standalone hmount hr (hs.shadowRoot.trans hshadow) (hs.famfsType.trans htype)
    | fuse hmount hmpt hr hshadow htype =>
      exact .fuse hmount hmpt hr (hs.shadowRoot.trans hshadow) (hs.famfsType.trans htype)
  · rw [hroot, hs.logp]
    exact hh
  · rw [hs.logp]
    exact hnode

theorem masterNode_dir {node : ℕ → Node}
    (hnode : ∀ i < m.lp.logp.famfsLogNextIndex, ∃ cred, (∀ fm, m.lp.logp.body i = .fm fm → allowed cred) ∧
      node i = playNode (masterConfig kabi shadow cred) (m.lp.logp.body i)) {j : ℕ}
    (hj : j < m.lp.logp.famfsLogNextIndex) {md : FamfsLogMkdir} (hmd : m.lp.logp.body j = .md md) :
    ∃ a, node j = .dir a := by
  obtain ⟨cred, -, hn⟩ := hnode j hj
  rw [hn, hmd]
  exact ⟨_, rfl⟩

theorem MasterOk.creatable (hm : MasterOk crc32 kabi shadow allowed mpt root m) {node : ℕ → Node}
    (hnode : ∀ i < m.lp.logp.famfsLogNextIndex, ∃ cred, (∀ fm, m.lp.logp.body i = .fm fm → allowed cred) ∧
      node i = playNode (masterConfig kabi shadow cred) (m.lp.logp.body i))
    (hne : names ≠ []) (hpl : ∀ c ∈ names, Plain c)
    (hparent : m.lp.logp.HasParent m.lp.logp.famfsLogNextIndex names) :
    Creatable (objects m.lp.logp node m.lp.logp.famfsLogNextIndex) names := by
  refine ⟨hne, hpl, ?_⟩
  rcases hparent with h0 | ⟨j, hj, ⟨md, hmd⟩, hnames⟩
  · exact Or.inl h0
  · obtain ⟨a, ha⟩ := masterNode_dir hnode hj hmd
    refine Or.inr ⟨a, ?_⟩
    rw [← hnames, hm.good.lookup node hj le_rfl, if_pos hj, ha]

theorem MasterOk.look_cases (hm : MasterOk crc32 kabi shadow allowed mpt root m) (hne : names ≠ []) :
    (m.host.look (mpt ++ names) = none ∧
      ∀ j < m.lp.logp.famfsLogNextIndex, (m.lp.logp.body j).names ≠ names) ∨
    ∃ j < m.lp.logp.famfsLogNextIndex, (m.lp.logp.body j).names = names ∧
      ∃ n, m.host.look (mpt ++ names) = some n ∧ (n.isDir = true ↔ ∃ md, m.lp.logp.body j = .md md) := by
  obtain ⟨node, hh, hnode⟩ := hm.made
  by_cases hex : ∃ j < m.lp.logp.famfsLogNextIndex, (m.lp.logp.body j).names = names
  · obtain ⟨j, hj, rfl⟩ := hex
    obtain ⟨cred, -, hn⟩ := hnode j hj
    obtain ⟨n, hshown, hdir, -⟩ := playNode_shown cred (hm.good.entry j hj)
    refine Or.inr ⟨j, hj, rfl, n, ?_, hdir⟩
    rw [hm.setting.look hh hne, hm.good.lookup node hj le_rfl, if_pos hj, hn, Option.bind_some, hshown]
  · push Not at hex
    refine Or.inl ⟨?_, hex⟩
    rw [hm.setting.look hh hne, lookup_fresh node hex]
    rfl

theorem MasterOk.resolve_mpt (hm : MasterOk crc32 kabi shadow allowed mpt root m) (hne : names ≠ [])
    (hpl : ∀ c ∈ names, Plain c) (hparent : m.lp.logp.HasParent m.lp.logp.famfsLogNextIndex names) :
    m.host.resolve (pathIn (render mpt) (join names)) = walkBelow m.host mpt names := by
  obtain ⟨node, hh, hnode⟩ := hm.made
  have hc := hm.creatable hnode hne hpl hparent
  refine hm.view.resolve_join hne hpl fun q hq h0 hqn => ?_
  obtain ⟨a, ha⟩ := hc.ancestor hh hq h0 hqn
  rw [hm.setting.look hh h0, ha]
  cases shadow with
  | true => rfl
  | false => rfl

theorem MasterOk.parent_logged (hm : MasterOk crc32 kabi shadow allowed mpt root m) (hpl : ∀ c ∈ names, Plain c)
    {p : Path} (hwalk : walk Node.isDir m.host.look [] (mpt ++ names.dropLast) = .found p)
    (hdir : ∀ n, m.host.look p = some n → n.isDir = true) :
    p = mpt ++ names.dropLast ∧ m.lp.logp.HasParent m.lp.logp.famfsLogNextIndex names := by
  have hplain : ∀ c ∈ mpt ++ names.dropLast, Plain c := by
    intro c hc
    rcases List.mem_append.1 hc with hc | hc
    · exact hm.view.plain c hc
    · exact hpl c (List.mem_of_mem_dropLast hc)
  have hp := walk_found_plain hplain hwalk
  rw [List.nil_append] at hp
  have hsome := walk_found_some hplain (by simp [hm.mptNe]) hwalk
  subst hp
  refine ⟨rfl, ?_⟩
  by_cases h0 : names.dropLast = []
  · exact Or.inl h0
  · rcases hm.look_cases h0 with ⟨hnone, -⟩ | ⟨j, hj, hnames, n, hn, hmd⟩
    · rw [hnone] at hsome
      cases hsome
    · exact Or.inr ⟨j, hj, hmd.1 (hdir n hn), hnames⟩

theorem MasterOk.fresh (hm : MasterOk crc32 kabi shadow allowed mpt root m) (hne : names ≠ [])
    (hpl : ∀ c ∈ names, Plain c) (hparent : m.lp.logp.HasParent m.lp.logp.famfsLogNextIndex names)
    (hmiss : m.host.stat (pathIn (render mpt) (join names)) = none) :
    ∀ j < m.lp.logp.famfsLogNextIndex, (m.lp.logp.body j).names ≠ names := by
  rcases hm.look_cases hne with ⟨-, hfresh⟩ | ⟨j, hj, hnames, n, hn, -⟩
  · exact hfresh
  · have hfound : m.host.resolve (pathIn (render mpt) (join names)) = .found (mpt ++ names) := by
      rw [hm.resolve_mpt hne hpl hparent, walkBelow, hn]
      rfl
    rw [stat_found hfound, hn] at hmiss
    cases hmiss

end

end Famfs

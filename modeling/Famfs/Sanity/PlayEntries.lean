import Famfs.Lib.Runs
import Famfs.Sanity.Tree

/-! Replaying one entry. An entry as successful creations log it either finds its
object below the root, and then nothing happens, or makes it; it never counts an error. -/

namespace Famfs

open Paths Machine

def FamfsLogEntryBody.relpath : FamfsLogEntryBody → CStr
  | .fm m => m.fmRelpath
  | .md m => m.mdRelpath
  | _ => []

def FamfsLogEntryBody.names (b : FamfsLogEntryBody) : List Name := components b.relpath

/-- The map that a standalone file gets from its entry. -/
def playedMap (kabi : ℕ) (fm : FamfsLogFileMeta) : Option IocMap :=
  if 42 < kabi then
    match v2Map fm.fmFmap fm.fmSize with
    | .ok (.ok map) => some map
    | _ => none
  else if fm.fmFmap.fmapExtType = FAMFS_EXT_SIMPLE then some (v1Map fm.fmFmap fm.fmFmap.fmapNextents)
  else none

theorem playedMap_v2 {kabi : ℕ} {fm : FamfsLogFileMeta} {map : IocMap} (hk : 42 < kabi)
    (h : playedMap kabi fm = some map) : v2Map fm.fmFmap fm.fmSize = .ok (.ok map) := by
  rw [playedMap, if_pos hk] at h
  split at h
  · next m hm =>
    cases h
    exact hm
  · cases h

theorem playedMap_v1 {kabi : ℕ} {fm : FamfsLogFileMeta} {map : IocMap} (hk : ¬ 42 < kabi)
    (h : playedMap kabi fm = some map) :
    fm.fmFmap.fmapExtType = FAMFS_EXT_SIMPLE ∧ map = v1Map fm.fmFmap fm.fmFmap.fmapNextents := by
  rw [playedMap, if_neg hk] at h
  split_ifs at h with ht
  exact ⟨ht, (Option.some.inj h).symm⟩

/-- The attributes of a stub or a directory after its `chown`. -/
def ownedAttr (cred : Cred) (mode uid gid : ℕ) : Attr :=
  if uid ≠ 0 ∧ gid ≠ 0 then { cred.attr mode with uid := uid, gid := gid } else cred.attr mode

def playNode (cfg : PlayConfig) : FamfsLogEntryBody → Node
  | .fm fm =>
      if cfg.shadow then .reg (cfg.cred.attr 0o644) (.shadow (some fm))
      else .reg (ownedAttr cfg.cred (if cfg.role = .client then fm.fmMode.ldiff S_IWALL else fm.fmMode)
          fm.fmUid fm.fmGid)
        (match playedMap cfg.kabi fm with
          | some map => .mapped fm.fmSize map
          | none => .plain 0)
  | .md md => .dir (ownedAttr cfg.cred md.mdMode md.mdUid md.mdGid)
  | _ => .special ⟨0, 0, 0⟩

/-- Entries as `__famfs_mkfile` and `__famfs_mkdir` log them. -/
inductive Creates (kabi : ℕ) : FamfsLogEntryBody → Prop
  | file {fm : FamfsLogFileMeta} (hone : fm.fmFmap.fmapNextents = 1)
      (hoff : (fm.fmFmap.se 0).seOffset ≠ 0) (hmap : (playedMap kabi fm).isSome = true) :
      Creates kabi (.fm fm)
  | dir {md : FamfsLogMkdir} : Creates kabi (.md md)

structure GoodEntry (kabi : ℕ) (b : FamfsLogEntryBody) : Prop where
  creates : Creates kabi b
  nonempty : b.names ≠ []
  plain : ∀ c ∈ b.names, Plain c
  path : b.relpath = join b.names
  noNul : (0 : UInt8) ∉ b.relpath

theorem cstr_of_noNul {s : List UInt8} (h : (0 : UInt8) ∉ s) : cstr s = s := by
  rw [cstr, List.takeWhile_eq_self_iff]
  intro x hx
  have : x ≠ 0 := fun h0 => h (h0 ▸ hx)
  simpa using this

theorem join_relative {names : List Name} (hne : names ≠ []) (hpl : ∀ c ∈ names, Plain c) :
    pathIsRelative (join names) = true := by
  obtain ⟨c, cs, rfl⟩ := List.exists_cons_of_ne_nil hne
  have hc := hpl c List.mem_cons_self
  obtain ⟨x, xs, rfl⟩ := List.exists_cons_of_ne_nil hc.nonempty
  have hx : x ≠ slash := fun h => hc.noSlash (h ▸ List.mem_cons_self)
  have hhead : (join ((x :: xs) :: cs)).head? = some x := by
    cases cs with
    | nil => rfl
    | cons d ds => rfl
  obtain ⟨ys, hys⟩ := List.head?_eq_some_iff.1 hhead
  rw [pathIsRelative, hys]
  simp [hx]

theorem zeroOffsets_eq_zero (past : ℕ → ℕ) (f : FamfsLogFmap) :
    zeroOffsets past f = 0 ↔ ∀ j < f.fmapNextents, f.wordIn past (3 * j + 1) ≠ 0 := by
  unfold zeroOffsets
  rw [List.countP_eq_zero]
  simp only [List.mem_range, decide_eq_true_eq]

theorem FamfsLogFmap.wordIn_offset (f : FamfsLogFmap) (past : ℕ → ℕ) {j : ℕ} (hj : j ≤ FAMFS_MAX_SIMPLE_EXTENTS) :
    f.wordIn past (3 * j + 1) = (f.se j).seOffset :=
  f.wordIn_eq past (by simp only [FAMFS_MAX_SIMPLE_EXTENTS] at hj; omega)

theorem zeroOffsets_unseen {past : ℕ → ℕ} (hpast : ∀ k, past k ≠ 0) {f : FamfsLogFmap}
    (h : ∀ j < f.fmapNextents, j ≤ FAMFS_MAX_SIMPLE_EXTENTS → (f.se j).seOffset ≠ 0) : zeroOffsets past f = 0 := by
  rw [zeroOffsets_eq_zero]
  intro j hj
  by_cases hin : j ≤ FAMFS_MAX_SIMPLE_EXTENTS
  · rw [f.wordIn_offset past hin]
    exact h j hj hin
  · rw [FamfsLogFmap.wordIn, dif_neg (by simp only [FAMFS_MAX_SIMPLE_EXTENTS] at hin; omega)]
    exact hpast _

theorem zeroOffsets_one {past : ℕ → ℕ} {fmap : FamfsLogFmap} (hone : fmap.fmapNextents = 1)
    (hoff : (fmap.se 0).seOffset ≠ 0) : zeroOffsets past fmap = 0 := by
  have hword : fmap.wordIn past 1 = (fmap.se 0).seOffset := fmap.wordIn_eq past (by norm_num)
  simp [zeroOffsets, hone, hword, hoff]

theorem modify_set (h : Host) (p : Path) (n : Node) (f : Node → Node) :
    (h.set p (some n)).modify p f = h.set p (some (f n)) := by
  simp [Host.modify, Host.set]

@[simp] theorem set_mount (h : Host) (p : Path) (n : Option Node) : (h.set p n).mount = h.mount := rfl

section

variable {h : Host} {p : Path} {path : CStr}

theorem stat_missing (hres : h.resolve path = .missing p []) : h.stat path = none := by
  simp only [Host.stat, hres]

theorem openCreat_missing (hres : h.resolve path = .missing p []) (hloc : h.isLocal p = true) (cred : Cred)
    (mode : ℕ) (data : FileData) :
    h.openCreat cred path mode data = some (p, h.set p (some (.reg (cred.attr mode) data))) := by
  simp only [Host.openCreat, hres, hloc, if_true]

theorem stub_ownedAttr (cred : Cred) (mode uid gid : ℕ) (data : FileData) :
    (if uid ≠ 0 ∧ gid ≠ 0 then Node.chown uid gid (.reg (cred.attr mode) data)
      else .reg (cred.attr mode) data) = .reg (ownedAttr cred mode uid gid) data := by
  unfold ownedAttr
  split_ifs <;> rfl

theorem stub_missing (hres : h.resolve path = .missing p []) (hloc : h.isLocal p = true)
    (hv1 : h.isFamfsV1 p = true) (cred : Cred) (fd : ℤ) (mode uid gid : ℕ) (disableWrite : Bool) :
    famfsFileCreateStub cred { Sys.healthy with fd := fd } h path mode uid gid disableWrite =
      (fd, p, h.set p (some (.reg
        (ownedAttr cred (if disableWrite then mode.ldiff S_IWALL else mode) uid gid) (.plain 0)))) := by
  have hfamfs : ∀ n, (h.set p n).isFamfsV1 p = true := fun _ => hv1
  simp only [famfsFileCreateStub, Sys.healthy, stat_missing hres, Option.isSome_none, Bool.false_eq_true,
    and_false, if_false, if_true, openCreat_missing hres hloc, hfamfs, and_self, not_true_eq_false, and_true,
    modify_set, ← stub_ownedAttr]
  split_ifs <;> rfl

theorem shadow_missing (hres : h.resolve path = .missing p []) (hloc : h.isLocal p = true) (cred : Cred)
    (fd : ℤ) (fc : FamfsLogFileMeta) :
    famfsShadowFileCreate cred { Sys.healthy with fd := fd } h path fc false =
      (0, ⟨0, 0, 1⟩, h.set p (some (.reg (cred.attr 0o644) (.shadow (some fc))))) := by
  simp only [famfsShadowFileCreate, Sys.healthy, Bool.false_eq_true, if_false, if_true, stat_missing hres,
    openCreat_missing hres hloc, Bool.true_eq_false, modify_set, Node.write]

theorem mkdir_missing {dir relpath : CStr} (hres : h.resolve (stripSlashes (pathIn dir relpath)) = .missing p [])
    (hloc : h.isLocal p = true) (cred : Cred) (fd : ℤ) (mode uid gid : ℕ) :
    famfsDirCreate cred { Sys.healthy with fd := fd } h dir relpath mode uid gid =
      (0, h.set p (some (.dir (ownedAttr cred mode uid gid)))) := by
  simp only [famfsDirCreate, Sys.healthy, if_true, Host.mkdir, hres, hloc, modify_set, ownedAttr]
  split_ifs <;> rfl

end

theorem stripSlashes_join {names : List Name} (hne : names ≠ []) (hpl : ∀ c ∈ names, Plain c) (s : CStr) :
    stripSlashes (pathIn s (join names)) = pathIn s (join names) := by
  rw [stripSlashes, List.rdropWhile_eq_self_iff]
  intro h0 hlast
  refine join_getLast hne hpl s ?_
  change (pathIn s (join names)).getLast? = some slash
  rw [List.getLast?_eq_some_getLast h0]
  exact congrArg some (of_decide_eq_true hlast)

@[simp] theorem healthy_statPlay : Sys.healthy.statPlay = true := rfl

def NoErrors (st : PlayState) : Prop := st.ls.fErrs = 0 ∧ st.ls.dErrs = 0

/-- A replay that makes its objects below `root`: in a shadow tree, or in a standalone
famfs mounted there. -/
structure Replaying (cfg : PlayConfig) (h : Host) (root : Path) : Prop where
  wet : cfg.dryRun = false
  v1 : cfg.shadow = false → h.mount = .v1 root

section

variable {cfg : PlayConfig} {st : PlayState} {root : Path} {objs : Objects} {b : FamfsLogEntryBody}

theorem Replaying.isFamfsV1 {h : Host} (hr : Replaying cfg h root) (hs : cfg.shadow = false) (rel : List Name) :
    h.isFamfsV1 (root ++ rel) = true := by
  simp only [Host.isFamfsV1, hr.v1 hs, decide_eq_true_eq]
  exact List.prefix_append root rel

theorem playMap_good {h : Host} {p : Path} {fm : FamfsLogFileMeta} {map : IocMap} {attr : Attr} {data : FileData}
    (hone : fm.fmFmap.fmapNextents = 1) (hmap : playedMap cfg.kabi fm = some map) :
    playMap cfg Sys.healthy (h.set p (some (.reg attr data))) 3 p fm =
      .ok (0, h.set p (some (.reg attr (.mapped fm.fmSize map)))) := by
  by_cases hk : 42 < cfg.kabi
  · simp only [playMap, hk, if_true, famfsV2SetFileMap, playedMap_v2 hk hmap, mapIoctl, Sys.healthy, modify_set,
      Node.write]
    norm_num
  · obtain ⟨ht, rfl⟩ := playedMap_v1 hk hmap
    simp only [playMap, hk, if_false, ht, ne_eq, not_true_eq_false, famfsV1SetFileMap, mapIoctl, Sys.healthy,
      if_true, modify_set, Node.write, hone, FAMFS_MAX_EXTENTS]
    norm_num

theorem GoodEntry.relative (hg : GoodEntry cfg.kabi b) :
    pathIsRelative (cstr b.relpath) = true := by
  rw [cstr_of_noNul hg.noNul, hg.path]
  exact join_relative hg.nonempty hg.plain

theorem GoodEntry.realpath (hg : GoodEntry cfg.kabi b) {h : Host} (hh : Holds h cfg.root root objs)
    (hc : Creatable objs b.names) :
    (h.realpath (pathIn cfg.root (cstr b.relpath))).2 = some (render (root ++ b.names)) := by
  rw [cstr_of_noNul hg.noNul, hg.path]
  exact hh.realpath hc

theorem playEntry_new (hcfg : Replaying cfg st.host root) (hg : GoodEntry cfg.kabi b)
    (hh : Holds st.host cfg.root root objs) (hc : Creatable objs b.names) (hnone : objs.lookup b.names = none)
    (hok : NoErrors st) :
    ∃ st', playEntry cfg Sys.healthy st b = .ok st' ∧ NoErrors st' ∧
      st'.host = st.host.set (root ++ b.names) (some (playNode cfg b)) := by
  have hrel := hg.relative
  have hreal := hg.realpath hh hc
  have hres : st.host.resolve (render (root ++ b.names)) = .missing (root ++ b.names) [] := by
    rw [hh.resolve_render hc, hnone]
    rfl
  have hstat : st.host.stat (render (root ++ b.names)) = none := stat_missing hres
  have hloc := isLocal_below hh.apart b.names
  have hdry := hcfg.wet
  cases hg.creates with
  | @file fm hone hoff hmap =>
    simp only [FamfsLogEntryBody.relpath] at hrel hreal
    simp only [playEntry, playFile, hrel, zeroOffsets_one hone hoff, hreal, hdry, if_true, if_false,
      Nat.add_zero, ne_eq, not_true_eq_false, Bool.false_eq_true]
    cases hs : cfg.shadow with
    | true =>
      simp only [if_true, playShadow, hdry]
      rw [show Sys.healthy = { Sys.healthy with fd := 3 } from rfl, shadow_missing hres hloc]
      exact ⟨_, rfl, hok, by simp only [playNode, hs, if_true]⟩
    | false =>
      obtain ⟨map, hm⟩ := Option.isSome_iff_exists.1 hmap
      simp only [Bool.false_eq_true, if_false, playStub, hstat, Option.isSome_none, and_false]
      rw [show Sys.healthy = { Sys.healthy with fd := 3 } from rfl,
        stub_missing hres hloc (hcfg.isFamfsV1 hs _)]
      simp only [show ¬ (3 : ℤ) < 0 by decide, if_false]
      rw [show ({ Sys.healthy with fd := 3 } : Sys) = Sys.healthy from rfl, playMap_good hone hm]
      refine ⟨_, rfl, hok, ?_⟩
      simp only [playNode, hs, Bool.false_eq_true, if_false, hm, decide_eq_true_eq]
  | @dir md =>
    simp only [FamfsLogEntryBody.relpath] at hrel hreal
    have hmk : famfsDirCreate cfg.cred Sys.healthy st.host cfg.root (cstr md.mdRelpath) md.mdMode md.mdUid
        md.mdGid = (0, st.host.set (root ++ FamfsLogEntryBody.names (.md md))
          (some (.dir (ownedAttr cfg.cred md.mdMode md.mdUid md.mdGid)))) := by
      rw [show cstr md.mdRelpath = join (FamfsLogEntryBody.names (.md md)) from
        (cstr_of_noNul hg.noNul).trans hg.path]
      refine mkdir_missing ?_ hloc cfg.cred 3 _ _ _
      rw [stripSlashes_join hg.nonempty hg.plain, hh.resolve_join hc, hnone]
      rfl
    simp only [playEntry, playDir, hrel, hreal, hdry, healthy_statPlay, if_true, if_false, Bool.true_eq_false,
      Bool.false_eq_true, hstat, hmk, ne_eq, not_true_eq_false]
    exact ⟨_, rfl, hok, rfl⟩

def FamfsLogEntryBody.Matches : FamfsLogEntryBody → Node → Prop
  | .fm _, n => n.isReg = true
  | .md _, n => n.isDir = true
  | _, _ => False

theorem playNode_matches (hg : GoodEntry cfg.kabi b) : b.Matches (playNode cfg b) := by
  cases hg.creates with
  | file hone hoff hmap =>
    simp only [FamfsLogEntryBody.Matches, playNode]
    split_ifs <;> rfl
  | dir => rfl

theorem playEntry_old (hcfg : Replaying cfg st.host root) (hg : GoodEntry cfg.kabi b)
    (hh : Holds st.host cfg.root root objs) (hc : Creatable objs b.names) {n : Node}
    (hsome : objs.lookup b.names = some n) (hn : b.Matches n) (hok : NoErrors st) :
    ∃ st', playEntry cfg Sys.healthy st b = .ok st' ∧ NoErrors st' ∧ st'.host = st.host := by
  have hrel := hg.relative
  have hreal := hg.realpath hh hc
  have hstat : st.host.stat (render (root ++ b.names)) = some n := by rw [hh.stat_render hc, hsome]
  have hdry := hcfg.wet
  cases hg.creates with
  | @file fm hone hoff hmap =>
    simp only [FamfsLogEntryBody.relpath] at hrel hreal
    simp only [playEntry, playFile, hrel, zeroOffsets_one hone hoff, hreal, hdry, if_true, if_false,
      Nat.add_zero, ne_eq, not_true_eq_false, Bool.false_eq_true]
    cases n with
    | reg attr data =>
      cases hs : cfg.shadow with
      | true =>
        simp only [if_true, playShadow, hdry, famfsShadowFileCreate, Sys.healthy, hstat, Bool.false_eq_true,
          if_false]
        exact ⟨_, rfl, hok, rfl⟩
      | false =>
        simp only [Bool.false_eq_true, if_false, playStub, Sys.healthy, hstat, Option.isSome_some, and_self,
          if_true]
        exact ⟨_, rfl, hok, rfl⟩
    | dir attr => cases hn
    | special attr => cases hn
  | @dir md =>
    simp only [FamfsLogEntryBody.relpath] at hrel hreal
    cases n with
    | dir attr =>
      simp only [playEntry, playDir, hrel, hreal, hdry, healthy_statPlay, if_true, if_false,
        Bool.true_eq_false, Bool.false_eq_true, hstat]
      exact ⟨_, rfl, hok, rfl⟩
    | reg attr data => cases hn
    | special attr => cases hn

end

end Famfs

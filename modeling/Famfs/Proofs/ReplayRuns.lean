import Famfs.Proofs.MasterRuns
import Mathlib.Data.Nat.Bitwise

/-! Replaying the log of a history on other nodes, at once or in passes over prefixes of
it. Every pass finds what earlier passes made and adds the rest, so the passes climb one
chain of hosts, and its top is the namespace of the master. -/

namespace Famfs

open Paths Machine Relation

structure FreshMaster (crc32 : Crc32) (shadow : Bool) (mpt root : Path) (m : Master) : Prop where
  log : ∃ logLen, mkfsLogLenValid logLen ∧ logLen < 2 ^ 64 ∧ m.lp.logp = mkfsLog crc32 logLen
  mptNe : mpt ≠ []
  mptStr : m.lp.mpt = render mpt
  view : Rooted m.host (render mpt) mpt
  setting : Setting mpt root m.host m.lp shadow
  empty : Holds m.host m.lp.rootStr root []

def playRoot (cfg : PlayConfig) (h : Host) : Option CStr :=
  if cfg.shadow then famfsGetShadowRoot h cfg.root else some cfg.root

/-- A node whose namespace is empty and that is set up for a replay. -/
structure EmptyNode (cfg : PlayConfig) (h : Host) (root : Path) : Prop where
  role : cfg.role ≠ .nosuper
  wet : cfg.dryRun = false
  v1 : cfg.shadow = false → h.mount = .v1 root
  empty : ∃ s, playRoot cfg h = some s ∧ Holds h s root []

/-- The log as it is when the first `n` entries have been appended. -/
def FamfsLog.upto (logp : FamfsLog) (n : ℕ) : FamfsLog := { logp with famfsLogNextIndex := n }

/-- Replays of prefixes one after another: what each returns and the node after it. -/
def playPasses (crc32 : Crc32) (cfg : PlayConfig) (logp : FamfsLog) : List ℕ → Host → Except Trap (List (ℤ × Host))
  | [], _ => .ok []
  | n :: ns, h => do
    let (rc, st) ← famfsLogplay crc32 cfg (fun _ => Sys.healthy) h (logp.upto n)
    let rest ← playPasses crc32 cfg logp ns st.host
    .ok ((rc, st.host) :: rest)

section

variable {crc32 : Crc32} {kabi : ℕ} {sb : FamfsSuperblock} {allowed : Cred → Prop} {shadow : Bool}
  {mpt root : Path} {m m' : Master}

theorem FreshMaster.masterOk (hf : FreshMaster crc32 shadow mpt root m) :
    MasterOk crc32 kabi shadow allowed mpt root m := by
  obtain ⟨logLen, hlen, h64, hlog⟩ := hf.log
  have hnone : m.lp.logp.famfsLogNextIndex = 0 := by rw [hlog]; rfl
  refine ⟨?_, ⟨?_, ?_, ?_⟩, hf.mptNe, hf.mptStr, hf.view, hf.setting, fun _ => .special ⟨0, 0, 0⟩, ?_, ?_⟩
  · rw [hlog]
    exact logOk_mkfs crc32 hlen.2 h64
  · intro i hi
    omega
  · intro i hi
    omega
  · intro i hi
    omega
  · rw [hnone]
    exact hf.empty
  · intro i hi
    omega

theorem masterOk_run (hf : FreshMaster crc32 shadow mpt root m)
    (hrun : ReflTransGen (MasterStep crc32 kabi sb allowed) m m') :
    MasterOk crc32 kabi shadow allowed mpt root m' :=
  Runs.invariant (P := MasterOk crc32 kabi shadow allowed mpt root) (fun _ _ hm hs => masterOk_step hm hs) hrun
    hf.masterOk

end

section

variable {crc32 : Crc32} {cfg : PlayConfig} {logp : FamfsLog} {h : Host} {root : Path} {s : CStr}

theorem famfsGetShadowRoot_extends {h' : Host} {path : CStr} (he : Extends h h')
    (hs : famfsGetShadowRoot h path = some s) : famfsGetShadowRoot h' path = some s := by
  simp only [famfsGetShadowRoot] at hs ⊢
  by_cases hdir : (h.stat path).any Node.isDir = false
  · rw [if_pos hdir] at hs
    cases hs
  · have hdir' : ¬ (h'.stat path).any Node.isDir = false := by
      rw [he.statDir (Bool.eq_true_of_not_eq_false hdir)]
      decide
    rw [if_neg hdir] at hs
    rw [if_neg hdir']
    by_cases hsuffix : [47, 114, 111, 111, 116] <:+ path
    · rwa [if_pos hsuffix] at hs ⊢
    · rw [if_neg hsuffix] at hs ⊢
      generalize path ++ (if path.getLast? = some slash then _ else _) = sub at hs ⊢
      by_cases hsub : (h.stat sub).any Node.isDir = true
      · rw [if_pos hsub] at hs
        rwa [if_pos (he.statDir hsub)]
      · rw [if_neg hsub] at hs
        cases hs

theorem playRoot_extends {h' : Host} (he : Extends h h') (hs : playRoot cfg h = some s) :
    playRoot cfg h' = some s := by
  unfold playRoot at hs ⊢
  by_cases hshadow : cfg.shadow = true
  · rw [if_pos hshadow] at hs ⊢
    exact famfsGetShadowRoot_extends he hs
  · rwa [if_neg hshadow] at hs ⊢

theorem famfsLogplay_root {sys : ℕ → Sys} (hrole : cfg.role ≠ .nosuper)
    (hheader : famfsValidateLogHeader crc32 logp = 0) (hs : playRoot cfg h = some s) :
    famfsLogplay crc32 cfg sys h logp =
      playLoop crc32 { cfg with root := s } sys logp logp.famfsLogNextIndex 0 ⟨h, .zero⟩ := by
  unfold playRoot at hs
  simp only [famfsLogplay, if_neg hrole, hheader, ne_eq, not_true_eq_false, if_false]
  by_cases hshadow : cfg.shadow = true
  · rw [if_pos hshadow] at hs
    rw [if_pos hshadow, hs]
  · rw [if_neg hshadow] at hs
    obtain rfl := Option.some.inj hs
    rw [if_neg hshadow]

theorem famfsLogplay_built (hnode : EmptyNode cfg h root) (hs : playRoot cfg h = some s)
    (hempty : Holds h s root []) (hg : GoodLog cfg.kabi logp) (hlog : LogOk crc32 logp) {k n : ℕ}
    (hk : k ≤ logp.famfsLogNextIndex) (hn : n ≤ logp.famfsLogNextIndex) :
    ∃ st, famfsLogplay crc32 cfg (fun _ => Sys.healthy) (built { cfg with root := s } logp h root k)
        (logp.upto n) = .ok (0, st) ∧
      st.host = built { cfg with root := s } logp h root (max k n) := by
  have hcfg : Replaying { cfg with root := s } h root := ⟨hnode.wet, hnode.v1⟩
  have hg' : GoodLog (PlayConfig.kabi { cfg with root := s }) logp := hg
  have hgrow : Extends h (built { cfg with root := s } logp h root k) := hg'.built_extends hempty (Nat.zero_le k) hk
  have hroot : playRoot cfg (built { cfg with root := s } logp h root k) = some s := playRoot_extends hgrow hs
  have hheader : famfsValidateLogHeader crc32 (logp.upto n) = 0 := hlog.header
  rw [famfsLogplay_root hnode.role hheader hroot]
  have hstart : (⟨built { cfg with root := s } logp h root k, .zero⟩ : PlayState).host =
      built { cfg with root := s } logp h root (max k 0) := by rw [Nat.max_zero]
  obtain ⟨st, hloop, hst⟩ := playLoop_built hcfg hg hlog hempty hk (N := n) n 0 (by omega) hstart ⟨rfl, rfl⟩
  rw [Nat.zero_add] at hst
  exact ⟨st, hloop, hst⟩

theorem famfsLogplay_once (hnode : EmptyNode cfg h root) (hs : playRoot cfg h = some s)
    (hempty : Holds h s root []) (hg : GoodLog cfg.kabi logp) (hlog : LogOk crc32 logp) :
    ∃ st, famfsLogplay crc32 cfg (fun _ => Sys.healthy) h logp = .ok (0, st) ∧
      st.host = built { cfg with root := s } logp h root logp.famfsLogNextIndex := by
  obtain ⟨st, hplay, hst⟩ := famfsLogplay_built hnode hs hempty hg hlog (Nat.zero_le _) le_rfl
  rw [Nat.zero_max] at hst
  exact ⟨st, hplay, hst⟩

theorem playPasses_built (hnode : EmptyNode cfg h root) (hs : playRoot cfg h = some s)
    (hempty : Holds h s root []) (hg : GoodLog cfg.kabi logp) (hlog : LogOk crc32 logp) (ns : List ℕ)
    (hns : ∀ n ∈ ns, n ≤ logp.famfsLogNextIndex) {k : ℕ} (hk : k ≤ logp.famfsLogNextIndex) :
    ∃ passes, playPasses crc32 cfg logp ns (built { cfg with root := s } logp h root k) = .ok passes ∧
      (∀ q ∈ passes, q.1 = 0) ∧
      (built { cfg with root := s } logp h root k :: passes.map Prod.snd).Pairwise Extends ∧
      (ns.getLast? = some logp.famfsLogNextIndex → (passes.map Prod.snd).getLast? =
        some (built { cfg with root := s } logp h root logp.famfsLogNextIndex)) := by
  induction ns generalizing k with
  | nil => exact ⟨[], rfl, by simp, by simp, by simp⟩
  | cons n ns ih =>
    have hn : n ≤ logp.famfsLogNextIndex := hns n List.mem_cons_self
    have hmax : max k n ≤ logp.famfsLogNextIndex := max_le hk hn
    obtain ⟨st, hplay, hst⟩ := famfsLogplay_built hnode hs hempty hg hlog hk hn
    obtain ⟨passes, hrest, hzero, hpair, hlast⟩ := ih (fun n' h' => hns n' (List.mem_cons_of_mem n h')) hmax
    have hg' : GoodLog (PlayConfig.kabi { cfg with root := s }) logp := hg
    have hup := hg'.built_extends hempty (le_max_left k n) hmax
    refine ⟨(0, st.host) :: passes, ?_, ?_, ?_, ?_⟩
    · rw [playPasses, hplay, Runs.ok_bind]
      simp only [hst, hrest, Runs.ok_bind]
    · intro q hq
      rcases List.mem_cons.1 hq with rfl | hq
      · rfl
      · exact hzero q hq
    · rw [List.map_cons, List.pairwise_cons, hst]
      refine ⟨fun h' hh' => ?_, hpair⟩
      rcases List.mem_cons.1 hh' with rfl | hh'
      · exact hup
      · exact hup.trans ((List.pairwise_cons.1 hpair).1 h' hh')
    · intro hend
      rw [List.map_cons, hst]
      cases ns with
      | nil =>
        obtain rfl : n = logp.famfsLogNextIndex := by simpa using hend
        rw [playPasses] at hrest
        cases hrest
        rw [max_eq_right hk]
        rfl
      | cons n' ns' =>
        rw [List.getLast?_cons_cons] at hend
        have := hlast hend
        rw [List.getLast?_cons, this]
        rfl

end

/-- Passes over prefixes of a master's log, in any order and with the whole log last,
end where one replay of the log ends. All of them return 0, and what a pass left is
still there, unchanged, after every later one. -/
theorem incremental_replay {crc32 : Crc32} {kabi : ℕ} {sb : FamfsSuperblock} {shadow : Bool} {mpt root : Path}
    {m m' : Master} (hfresh : FreshMaster crc32 shadow mpt root m)
    (hrun : ReflTransGen (MasterStep crc32 kabi sb fun _ => True) m m') {cfg : PlayConfig} (hkabi : cfg.kabi = kabi)
    {h : Host} {nodeRoot : Path} (hnode : EmptyNode cfg h nodeRoot) {ns : List ℕ}
    (hns : ∀ n ∈ ns, n ≤ m'.lp.logp.famfsLogNextIndex) (hlast : ns.getLast? = some m'.lp.logp.famfsLogNextIndex) :
    ∃ passes once, playPasses crc32 cfg m'.lp.logp ns h = .ok passes ∧
      famfsLogplay crc32 cfg (fun _ => Sys.healthy) h m'.lp.logp = .ok (0, once) ∧
      (∀ q ∈ passes, q.1 = 0) ∧
      (passes.map Prod.snd).getLast? = some once.host ∧
      (h :: passes.map Prod.snd).Pairwise Extends := by
  have hm := masterOk_run hfresh hrun
  have hg : GoodLog cfg.kabi m'.lp.logp := hkabi ▸ hm.good
  obtain ⟨s, hs, hempty⟩ := hnode.empty
  obtain ⟨passes, hpasses, hzero, hpair, hend⟩ :=
    playPasses_built hnode hs hempty hg hm.log ns hns (Nat.zero_le _)
  obtain ⟨once, honce, hhost⟩ := famfsLogplay_once hnode hs hempty hg hm.log
  exact ⟨passes, once, hpasses, honce, hzero, hhost ▸ hend hlast, hpair⟩

/-- What a replay has to make of an object of the master, both as their mounts show
them: the same kind of object, and for files the same contents, size and map, the same
owner and the same mode. -/
inductive ReplayedAs (cfg : PlayConfig) : Option Node → Option Node → Prop
  | absent : ReplayedAs cfg none none
  | dir {attr attr' : Attr} : ReplayedAs cfg (some (.dir attr)) (some (.dir attr'))
  | file {attr attr' : Attr} {data : FileData} (huid : attr'.uid = attr.uid) (hgid : attr'.gid = attr.gid)
      (hmode : attr'.mode =
        if cfg.shadow = false ∧ cfg.role = .client then attr.mode.ldiff S_IWALL else attr.mode) :
      ReplayedAs cfg (some (.reg attr data)) (some (.reg attr' data))

theorem attr_mode_client (cred : Cred) (mode : ℕ) :
    (cred.attr (mode.ldiff S_IWALL)).mode = (cred.attr mode).mode.ldiff S_IWALL := by
  simp only [Cred.attr]
  apply Nat.eq_of_testBit_eq
  intro i
  simp only [Nat.testBit_ldiff, Nat.testBit_and]
  cases Nat.testBit mode i <;> cases Nat.testBit S_IWALL i <;> simp

theorem ownedAttr_client (cred : Cred) (mode uid gid : ℕ) :
    ownedAttr cred (mode.ldiff S_IWALL) uid gid =
      { ownedAttr cred mode uid gid with mode := (ownedAttr cred mode uid gid).mode.ldiff S_IWALL } := by
  have hmode := attr_mode_client cred mode
  unfold ownedAttr
  split_ifs
  · simp only [hmode]
  · simp only [← hmode]
    rfl

section

variable {cfg : PlayConfig}

theorem playNode_replayed {b : FamfsLogEntryBody} (hg : GoodEntry cfg.kabi b) {cred : Cred}
    (hcred : cfg.shadow = false → ∀ fm, b = .fm fm → cred = cfg.cred) :
    ReplayedAs cfg (shownNode cfg.shadow (playNode (masterConfig cfg.kabi cfg.shadow cred) b))
      (shownNode cfg.shadow (playNode cfg b)) := by
  cases hg.creates with
  | @dir md => cases hs : cfg.shadow <;> exact .dir
  | @file fm hone hoff hmap =>
    cases hs : cfg.shadow with
    | true =>
      simp only [shownNode, playNode, masterConfig, hs, if_true, Node.present]
      exact .file rfl rfl (by simp [hs])
    | false =>
      obtain rfl := hcred hs fm rfl
      simp only [shownNode, playNode, masterConfig, hs, Bool.false_eq_true, if_false]
      by_cases hrole : cfg.role = .client
      · rw [if_pos hrole, ownedAttr_client]
        exact .file rfl rfl (by simp [hs, hrole])
      · rw [if_neg hrole]
        exact .file rfl rfl (by simp [hrole])

/-- The log that successful creations leave on the master gives another node the
master's namespace. In standalone mode the files also take the effective ids and the
file mode creation mask of the process that makes them, and the processes that make or
replay files have to agree on these; the ones of a FUSE file system only show what is logged. -/
theorem replay_reproduces_master {crc32 : Crc32} {sb : FamfsSuperblock} {allowed : Cred → Prop} {mpt root : Path}
    {m m' : Master} (hfresh : FreshMaster crc32 cfg.shadow mpt root m)
    (hrun : ReflTransGen (MasterStep crc32 cfg.kabi sb allowed) m m')
    (hcred : cfg.shadow = false → ∀ cred, allowed cred → cred = cfg.cred) {h : Host} {nodeRoot : Path}
    (hnode : EmptyNode cfg h nodeRoot) :
    ∃ st, famfsLogplay crc32 cfg (fun _ => Sys.healthy) h m'.lp.logp = .ok (0, st) ∧
      (∀ rel, rel ≠ [] → ReplayedAs cfg (m'.host.look (mpt ++ rel))
        ((st.host.tree (nodeRoot ++ rel)).bind (shownNode cfg.shadow))) ∧
      (cfg.shadow = true → ∀ rel fm, rel ≠ [] →
        ((∃ attr, m'.host.tree (root ++ rel) = some (.reg attr (.shadow (some fm)))) ↔
          ∃ attr, st.host.tree (nodeRoot ++ rel) = some (.reg attr (.shadow (some fm))))) := by
  have hm := masterOk_run hfresh hrun
  obtain ⟨s, hs, hempty⟩ := hnode.empty
  obtain ⟨st, hplay, hst⟩ := famfsLogplay_once hnode hs hempty hm.good hm.log
  have hg : GoodLog (PlayConfig.kabi { cfg with root := s }) m'.lp.logp := hm.good
  have hholds := hg.holds hempty le_rfl
  rw [← hst] at hholds
  obtain ⟨node, hh, hnodes⟩ := hm.made
  refine ⟨st, hplay, ?_, ?_⟩
  · intro rel hne
    rw [hm.setting.look hh hne, hholds.below rel hne, playedObjects]
    rcases hm.good.lookup_cases rel with hnone | ⟨i, hi, hsome⟩
    · rw [hnone, hnone]
      exact .absent
    · obtain ⟨cred, hallowed, hn⟩ := hnodes i hi
      rw [hsome, hsome, hn]
      exact playNode_replayed (hm.good.entry i hi) fun hs fm hfm => hcred hs cred (hallowed fm hfm)
  · intro hshadow rel fm hne
    rw [hh.below rel hne, hholds.below rel hne, playedObjects]
    rcases hm.good.lookup_cases rel with hnone | ⟨i, hi, hsome⟩
    · rw [hnone, hnone]
    · obtain ⟨cred, -, hn⟩ := hnodes i hi
      rw [hsome, hsome, hn]
      have hcreates := (hm.good.entry i hi).creates
      generalize m'.lp.logp.body i = b at hcreates ⊢
      cases hcreates with
      | file hone hoff hmap => simp [playNode, masterConfig, hshadow]
      | dir => simp [playNode]

end

/-! A small history: a file, a directory and a file in it, below `/m`. -/

/-- A node with the directory `/m` and nothing in it. -/
def smallHost : Host where
  tree p := if p = [] ∨ p = [[109]] then some (.dir ⟨0o755, 0, 0⟩) else none
  cwd := []
  mount := .v1 [[109]]

def smallMaster : Master := ⟨smallHost, freshSession⟩

def makeDir (cred : Cred) (m : Master) (a : MkdirArgs) : Master :=
  match famfsMkdir Crc32.update cred Sys.healthy (m.host.cd []) m.lp a with
  | .ok (rc, h, lp) => if rc = 0 then ⟨h, lp⟩ else m
  | .error _ => m

def makeFile (cred : Cred) (m : Master) (a : MkfileArgs) : Master :=
  match famfsMkfile Crc32.update 43 cred Sys.healthy ⟨true, true, id⟩ (m.host.cd []) m.lp a with
  | .ok (rc, h, lp) => if 0 < rc then ⟨h, lp⟩ else m
  | .error _ => m

def smallFile (cred : Cred) : Master := makeFile cred smallMaster ⟨[47, 109, 47, 97], 0o644, 0, 0, 1, false⟩

def smallDir (cred : Cred) : Master := makeDir cred (smallFile cred) ⟨[47, 109, 47, 100], 0o755, 0, 0⟩

def smallHistory (cred : Cred) : Master :=
  makeFile cred (smallDir cred) ⟨[47, 109, 47, 100, 47, 102], 0o644, 0, 0, 1, false⟩

/-- Replays on clients of the standalone kind at `/m`. -/
def smallClient (cred : Cred) : PlayConfig := ⟨43, cred, .client, false, false, [47, 109]⟩

theorem rooted_top {h : Host} (hdir : (h.look []).any Node.isDir = true) : Rooted h (render []) [] := by
  refine ⟨?_, by simp, ?_, hdir⟩
  · have hres : h.resolve (render []) = walk Node.isDir h.look [] [dot] := rfl
    rw [hres, walk, if_pos hdir, if_pos rfl, walk]
  · intro q hq hne
    exact absurd (List.prefix_nil.1 hq) hne

theorem smallHost_holds : Holds smallHost [47, 109] [[109]] [] := by
  refine ⟨⟨by decide, by decide, ?_, by decide⟩, trivial, ?_, ?_⟩
  · intro q hq hne
    rcases List.prefix_cons_iff.1 hq with rfl | ⟨t, rfl, ht⟩
    · decide
    · rw [List.prefix_nil.1 ht] at hne
      exact absurd rfl hne
  · intro rel hne
    have h1 : [[109]] ++ rel ≠ [] := by simp
    have h2 : [[109]] ++ rel ≠ [[(109 : UInt8)]] := by simpa using hne
    simp only [smallHost, h1, h2, or_self, if_false]
    rfl
  · intro rel n hn
    cases hn

theorem smallMaster_fresh : FreshMaster Crc32.update false [[109]] [[109]] smallMaster :=
  ⟨⟨FAMFS_LOG_LEN, by decide, by decide, rfl⟩, by decide, rfl, smallHost_holds.rooted,
    .standalone rfl rfl rfl rfl, smallHost_holds⟩

theorem smallHost_empty (cred : Cred) : EmptyNode (smallClient cred) smallHost [[109]] :=
  ⟨by simp [smallClient], rfl, fun _ => rfl, [47, 109], rfl, smallHost_holds⟩

section

variable {allowed : Cred → Prop} {cred : Cred} {m : Master} {names : List Name}

theorem makeDir_step {a : MkdirArgs} (htop : (m.host.look []).any Node.isDir = true)
    (habs : m.lp.rootStr.head? = some slash) (hpath : NormalPath names)
    (htarget : targetFullpath (m.host.cd []) a.dirpath = pathIn m.lp.mpt (join names))
    (hadd : m.lp.logp.famfsLogNextIndex < (makeDir cred m a).lp.logp.famfsLogNextIndex) :
    MasterStep Crc32.update 43 freshSuper allowed m (makeDir cred m a) := by
  unfold makeDir at hadd ⊢
  split at hadd
  · next rc h lp hok =>
    split_ifs at hadd ⊢ with hrc
    · subst hrc
      exact .mkdir (rooted_top htop) (cd_resolve habs) hpath htarget hok
    · exact absurd hadd (lt_irrefl _)
  · exact absurd hadd (lt_irrefl _)

theorem makeFile_step {a : MkfileArgs} (hcred : allowed cred) (htop : (m.host.look []).any Node.isDir = true)
    (habs : m.lp.rootStr.head? = some slash) (hpath : NormalPath names)
    (htarget : targetFullpath (m.host.cd []) a.filename = pathIn m.lp.mpt (join names))
    (hadd : m.lp.logp.famfsLogNextIndex < (makeFile cred m a).lp.logp.famfsLogNextIndex) :
    MasterStep Crc32.update 43 freshSuper allowed m (makeFile cred m a) := by
  unfold makeFile at hadd ⊢
  split at hadd
  · next rc h lp hok =>
    split_ifs at hadd ⊢ with hrc
    · have hok' : famfsMkfile Crc32.update 43 cred { Sys.healthy with fd := 3 } ⟨true, true, id⟩ (m.host.cd [])
          { m.lp with interleaveParam := m.lp.interleaveParam } a = .ok (rc, h, lp) := hok
      exact .mkfile hcred (rooted_top htop) (cd_resolve habs) hpath htarget hok' hrc
    · exact absurd hadd (lt_irrefl _)
  · exact absurd hadd (lt_irrefl _)

end

theorem smallHistory_run {allowed : Cred → Prop} (hcred : allowed ⟨0, 0, 0o022⟩) :
    ReflTransGen (MasterStep Crc32.update 43 freshSuper allowed) smallMaster (smallHistory ⟨0, 0, 0o022⟩) := by
  have hfile : NormalPath [[97]] := ⟨by decide, by decide, by decide, by decide⟩
  have hdir : NormalPath [[100]] := ⟨by decide, by decide, by decide, by decide⟩
  have hsub : NormalPath [[100], [102]] := ⟨by decide, by decide, by decide, by decide⟩
  have h1 : MasterStep Crc32.update 43 freshSuper allowed smallMaster (smallFile ⟨0, 0, 0o022⟩) := by
    apply makeFile_step hcred _ _ hfile
    all_goals decide +kernel
  have h2 : MasterStep Crc32.update 43 freshSuper allowed (smallFile ⟨0, 0, 0o022⟩) (smallDir ⟨0, 0, 0o022⟩) := by
    apply makeDir_step _ _ hdir
    all_goals decide +kernel
  have h3 : MasterStep Crc32.update 43 freshSuper allowed (smallDir ⟨0, 0, 0o022⟩) (smallHistory ⟨0, 0, 0o022⟩) := by
    apply makeFile_step hcred _ _ hsub
    all_goals decide +kernel
  exact ((ReflTransGen.single h1).tail h2).tail h3

/-- Passes over one entry, none, two and all three. -/
theorem incremental_replay_four_passes :
    ∃ passes once, playPasses Crc32.update (smallClient ⟨0, 0, 0o077⟩) (smallHistory ⟨0, 0, 0o022⟩).lp.logp
        [1, 0, 2, 3] smallHost = .ok passes ∧
      famfsLogplay Crc32.update (smallClient ⟨0, 0, 0o077⟩) (fun _ => Sys.healthy) smallHost
        (smallHistory ⟨0, 0, 0o022⟩).lp.logp = .ok (0, once) ∧
      (passes.map Prod.snd).getLast? = some once.host := by
  have hns : ∀ n ∈ [1, 0, 2, 3], n ≤ (smallHistory ⟨0, 0, 0o022⟩).lp.logp.famfsLogNextIndex := by decide +kernel
  obtain ⟨passes, once, hpasses, honce, -, hlast, -⟩ := incremental_replay smallMaster_fresh
    (smallHistory_run trivial) rfl (smallHost_empty ⟨0, 0, 0o077⟩) hns (by decide +kernel)
  exact ⟨passes, once, hpasses, honce, hlast⟩

/-- With one mask everywhere the client has the file with the mode less the write bits. -/
theorem replay_reproduces_master_same_mask :
    ∃ st, famfsLogplay Crc32.update (smallClient ⟨0, 0, 0o022⟩) (fun _ => Sys.healthy) smallHost
        (smallHistory ⟨0, 0, 0o022⟩).lp.logp = .ok (0, st) ∧
      ∀ rel, rel ≠ [] → ReplayedAs (smallClient ⟨0, 0, 0o022⟩) ((smallHistory ⟨0, 0, 0o022⟩).host.look ([[109]] ++ rel))
        ((st.host.tree ([[109]] ++ rel)).bind (shownNode (smallClient ⟨0, 0, 0o022⟩).shadow)) := by
  have hnode := smallHost_empty ⟨0, 0, 0o022⟩
  have hfresh : FreshMaster Crc32.update (smallClient ⟨0, 0, 0o022⟩).shadow [[109]] [[109]] smallMaster :=
    smallMaster_fresh
  have hrun : ReflTransGen (MasterStep Crc32.update (smallClient ⟨0, 0, 0o022⟩).kabi freshSuper
      (· = ⟨0, 0, 0o022⟩)) smallMaster (smallHistory ⟨0, 0, 0o022⟩) := smallHistory_run rfl
  obtain ⟨st, hplay, hsame, -⟩ := replay_reproduces_master hfresh hrun (fun _ _ h => h) hnode
  exact ⟨st, hplay, hsame⟩

/-- A client process with another file mode creation mask makes a file that is not the
master's file less the write bits: its mode is 0400, and that would be 0444. -/
theorem replay_other_mask :
    FreshMaster Crc32.update false [[109]] [[109]] smallMaster ∧
    ReflTransGen (MasterStep Crc32.update 43 freshSuper fun _ => True) smallMaster (smallHistory ⟨0, 0, 0o022⟩) ∧
    EmptyNode (smallClient ⟨0, 0, 0o077⟩) smallHost [[109]] ∧
      ∃ st, famfsLogplay Crc32.update (smallClient ⟨0, 0, 0o077⟩) (fun _ => Sys.healthy) smallHost
          (smallHistory ⟨0, 0, 0o022⟩).lp.logp = .ok (0, st) ∧
        ¬ ReplayedAs (smallClient ⟨0, 0, 0o077⟩) ((smallHistory ⟨0, 0, 0o022⟩).host.look [[109], [97]])
          (st.host.tree [[109], [97]]) := by
  have hnode := smallHost_empty ⟨0, 0, 0o077⟩
  have hrun : ReflTransGen (MasterStep Crc32.update 43 freshSuper fun _ => True) smallMaster
      (smallHistory ⟨0, 0, 0o022⟩) := smallHistory_run trivial
  have hm := masterOk_run smallMaster_fresh hrun
  have hlen : (smallHistory ⟨0, 0, 0o022⟩).lp.logp.famfsLogNextIndex = 3 := by decide +kernel
  have hs : playRoot (smallClient ⟨0, 0, 0o077⟩) smallHost = some [47, 109] := rfl
  have hg : GoodLog (smallClient ⟨0, 0, 0o077⟩).kabi (smallHistory ⟨0, 0, 0o022⟩).lp.logp := hm.good
  obtain ⟨st, hplay, hst⟩ := famfsLogplay_once hnode hs smallHost_holds hg hm.log
  refine ⟨smallMaster_fresh, hrun, hnode, st, hplay, ?_⟩
  have hmaster : (smallHistory ⟨0, 0, 0o022⟩).host.look [[109], [97]] =
      some (.reg ⟨0o644, 0, 0⟩ (.mapped 1 (.v2Simple [⟨0, 10485760, 2097152⟩]))) := by decide +kernel
  have hclient : st.host.tree [[109], [97]] =
      some (.reg ⟨0o400, 0, 0⟩ (.mapped 1 (.v2Simple [⟨0, 10485760, 2097152⟩]))) := by
    rw [hst, hlen]
    decide +kernel
  rw [hmaster, hclient]
  intro hsame
  cases hsame with
  | file huid hgid hmode =>
    revert hmode
    decide +kernel

end Famfs

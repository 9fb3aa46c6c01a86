import Famfs.Sanity.MountSession

/-! Histories of the master. Every successful creation appends the entry of the object
it made, so that after any number of them the objects are those of the log, the log has
no path twice and names every directory before what is in it. -/

namespace Famfs

open Paths Machine Relation

section

variable {crc32 : Crc32} {kabi : ℕ} {logp : FamfsLog} {b : FamfsLogEntryBody}

theorem GoodLog.append (hg : GoodLog kabi logp) (hb : GoodEntry kabi b)
    (hfresh : ∀ j < logp.famfsLogNextIndex, (logp.body j).names ≠ b.names)
    (hparent : logp.HasParent logp.famfsLogNextIndex b.names) :
    GoodLog kabi (famfsAppendLog crc32 logp (newLogEntry b)) where
  entry := by
    intro i hi
    rcases Nat.lt_succ_iff_lt_or_eq.1 hi with hlt | rfl
    · rw [append_body_old hlt]
      exact hg.entry i hlt
    · rw [append_body_new]
      exact hb
  distinct := by
    intro i hi j hj heq
    rcases Nat.lt_succ_iff_lt_or_eq.1 hi with hil | rfl
    · rw [append_body_old hil] at heq
      rcases Nat.lt_succ_iff_lt_or_eq.1 hj with hjl | rfl
      · rw [append_body_old hjl] at heq
        exact hg.distinct i hil j hjl heq
      · rw [append_body_new] at heq
        exact absurd heq (hfresh i hil)
    · rw [append_body_new] at heq
      rcases Nat.lt_succ_iff_lt_or_eq.1 hj with hjl | rfl
      · rw [append_body_old hjl] at heq
        exact absurd heq.symm (hfresh j hjl)
      · rfl
  parent := by
    intro i hi
    have hold : ∀ k ≤ logp.famfsLogNextIndex, ∀ names, logp.HasParent k names →
        (famfsAppendLog crc32 logp (newLogEntry b)).HasParent k names := by
      intro k hk names hp
      rcases hp with h0 | ⟨j, hj, hmd, hnames⟩
      · exact Or.inl h0
      · have hjn : j < logp.famfsLogNextIndex := by omega
        exact Or.inr ⟨j, hj, by rwa [append_body_old hjn], by rwa [append_body_old hjn]⟩
    rcases Nat.lt_succ_iff_lt_or_eq.1 hi with hlt | rfl
    · rw [append_body_old hlt]
      exact hold i hlt.le _ (hg.parent i hlt)
    · rw [append_body_new]
      exact hold _ le_rfl _ hparent

theorem objects_append (crc32 : Crc32) (node : ℕ → Node) (n : Node) :
    objects (famfsAppendLog crc32 logp (newLogEntry b)) (Function.update node logp.famfsLogNextIndex n)
        (logp.famfsLogNextIndex + 1) =
      objects logp node logp.famfsLogNextIndex ++ [(b.names, n)] := by
  rw [objects_succ, append_body_new, Function.update_self]
  congr 1
  apply List.map_congr_left
  intro i hi
  have hlt : i < logp.famfsLogNextIndex := List.mem_range.1 hi
  rw [append_body_old hlt, Function.update_of_ne (by omega)]

end

section

variable {crc32 : Crc32} {kabi : ℕ} {shadow : Bool} {allowed : Cred → Prop} {mpt root cwd : Path} {m : Master}
  {names : List Name} {cred : Cred}

theorem MasterOk.place (hm : MasterOk crc32 kabi shadow allowed mpt root m) {b : FamfsLogEntryBody}
    (hcred : ∀ fm, b = .fm fm → allowed cred) (hb : GoodEntry kabi b)
    (hfresh : ∀ j < m.lp.logp.famfsLogNextIndex, (m.lp.logp.body j).names ≠ b.names)
    (hparent : m.lp.logp.HasParent m.lp.logp.famfsLogNextIndex b.names) (hroom : famfsLogFull m.lp.logp = false) :
    MasterOk crc32 kabi shadow allowed mpt root
      ⟨m.host.set (root ++ b.names) (some (playNode (masterConfig kabi shadow cred) b)), m.lp.logged crc32 b⟩ := by
  obtain ⟨node, hh, hnode⟩ := hm.made
  have hc := hm.creatable hnode hb.nonempty hb.plain hparent
  have hnone : (objects m.lp.logp node m.lp.logp.famfsLogNextIndex).lookup b.names = none := lookup_fresh node hfresh
  have hfree : m.host.tree (root ++ b.names) = none := by rw [hh.below _ hb.nonempty, hnone]
  refine ⟨logOk_append crc32 hm.log hroom _, hm.good.append hb hfresh hparent, hm.mptNe, hm.mptStr,
    hm.view.extends (extends_set _ hfree _), ?_,
    Function.update node m.lp.logp.famfsLogNextIndex (playNode (masterConfig kabi shadow cred) b), ?_, ?_⟩
  · cases hm.setting with
    | standalone hmount hroot hshadow htype => exact .standalone hmount hroot hshadow htype
    | fuse hmount hmpt hroot hshadow htype => exact .fuse hmount hmpt hroot hshadow htype
  · have := hh.place hc hnone (playNode (masterConfig kabi shadow cred) b)
    rw [← objects_append crc32] at this
    exact this
  · intro i hi
    rcases Nat.lt_succ_iff_lt_or_eq.1 hi with hlt | rfl
    · obtain ⟨cred', hcred', hn⟩ := hnode i hlt
      have hbody : (m.lp.logged crc32 b).logp.body i = m.lp.logp.body i := append_body_old hlt
      refine ⟨cred', by rwa [hbody], ?_⟩
      rw [Function.update_of_ne (by omega), hn, hbody]
    · have hbody : (m.lp.logged crc32 b).logp.body m.lp.logp.famfsLogNextIndex = b := append_body_new
      refine ⟨cred, by rwa [hbody], ?_⟩
      rw [Function.update_self, hbody]

theorem NormalPath.copy (hpath : NormalPath names) : copyRelpath (join names) = join names := by
  have := hpath.short
  exact List.take_of_length_le (by rw [FAMFS_MAX_PATHLEN]; omega)

theorem NormalPath.entry (hpath : NormalPath names) {b : FamfsLogEntryBody} (hb : Creates kabi b)
    (hrel : b.relpath = join names) : GoodEntry kabi b ∧ b.names = names := by
  have hnames : b.names = names := by rw [FamfsLogEntryBody.names, hrel, components_join hpath.plain]
  refine ⟨⟨hb, ?_, ?_, ?_, ?_⟩, hnames⟩
  · rw [hnames]
    exact hpath.nonempty
  · rw [hnames]
    exact hpath.plain
  · rw [hnames, hrel]
  · rw [hrel]
    exact hpath.noNul

theorem NormalPath.split (hpath : NormalPath names) (s : CStr) :
    pathIn s (join names) = (s ++ tail names.dropLast) ++ slash :: names.getLast hpath.nonempty := by
  rw [← pathIn_join_concat, List.dropLast_append_getLast]

theorem parent_walk (hview : Rooted m.host (render mpt) mpt) (hcwd : Rooted m.host (render cwd) cwd)
    (hpath : NormalPath names) {s : CStr}
    (htarget : targetFullpath (m.host.cd cwd) s = pathIn (render mpt) (join names)) {p : Path}
    (hp : (m.host.cd cwd).resolve (dirname s) = .found p) :
    walk Node.isDir m.host.look [] (mpt ++ names.dropLast) = .found p ∧
      basename s = names.getLast hpath.nonempty := by
  rw [hpath.split] at htarget
  have hpl : ∀ c ∈ names.dropLast, Plain c := fun c hc => hpath.plain c (List.mem_of_mem_dropLast hc)
  have := resolve_dirname hcwd (hpath.plain _ (List.getLast_mem hpath.nonempty)) rfl htarget hp
  rwa [components_append_tail _ hpl, components_render hview.plain] at this

theorem target_ne_nil (hpath : NormalPath names) {h : Host} {s t : CStr}
    (htarget : targetFullpath h s = pathIn t (join names)) : s ≠ [] := by
  rintro rfl
  refine join_getLast hpath.nonempty hpath.plain t ?_
  change (pathIn t (join names)).getLast? = some slash
  rw [← htarget]
  simp [targetFullpath, pathIn]

theorem MasterOk.mkdir (hm : MasterOk crc32 kabi shadow allowed mpt root m)
    (hcwd : Rooted m.host (render cwd) cwd)
    (hsame : (m.host.cd cwd).resolve m.lp.rootStr = m.host.resolve m.lp.rootStr) (hpath : NormalPath names)
    {a : MkdirArgs} (htarget : targetFullpath (m.host.cd cwd) a.dirpath = pathIn m.lp.mpt (join names))
    {h' : Host} {lp' : FamfsLockedLog}
    (hok : famfsMkdir crc32 cred Sys.healthy (m.host.cd cwd) m.lp a = .ok (0, h', lp')) :
    MasterOk crc32 kabi shadow allowed mpt root ⟨h', lp'⟩ := by
  have hm' := hm.cd hsame
  rw [hm.mptStr] at htarget
  rcases famfsMkdir_cases hok with hfail | ⟨-, -, p, -, hp, hdir, -, -⟩
  · cases hfail
  obtain ⟨hwalk, hbase⟩ := parent_walk hm.view hcwd hpath htarget hp
  obtain ⟨rfl, hparent⟩ := hm'.parent_logged hpath.plain hwalk (hdir rfl)
  have honly : ∀ q, (m.host.cd cwd).resolve (dirname a.dirpath) = .found q → q = mpt ++ names.dropLast := by
    intro q hq
    rw [hp] at hq
    cases hq
    rfl
  rcases hm'.atMount.mkdir_cases hpath.nonempty hpath.plain honly hbase hok with hfail | ⟨hfree, hmade⟩
  · cases hfail
  obtain ⟨hroom, hret⟩ := hmade rfl
  cases hret
  have hfresh : ∀ j < m.lp.logp.famfsLogNextIndex, (m.lp.logp.body j).names ≠ names := by
    rcases hm'.look_cases hpath.nonempty with ⟨-, hfresh⟩ | ⟨j, hj, hnames, n, hn, -⟩
    · exact hfresh
    · rw [hm'.setting.look_tree, hfree] at hn
      cases hn
  have hb : (a.body (join names)).relpath = join names := hpath.copy
  obtain ⟨hgood, hnames⟩ : GoodEntry kabi (a.body (join names)) ∧ _ := hpath.entry Creates.dir hb
  have hdirs : ∀ fm, a.body (join names) = .fm fm → allowed cred := by
    intro fm hfm
    cases hfm
  have hplaced := hm'.place hdirs hgood (by rwa [hnames]) (by rwa [hnames]) hroom
  rw [hnames] at hplaced
  exact hplaced

theorem mkfileShadow_ok {h h' : Host} {lp lp' : FamfsLockedLog} {a : MkfileArgs} {fmap : FamfsLogFmap}
    {s : CStr} {objs : Objects} {fd rc : ℤ} (hh : Holds h s root objs) (hc : Creatable objs names)
    (hnone : objs.lookup names = none)
    (hok : mkfileShadow crc32 cred { Sys.healthy with fd := fd } h lp a fmap (join names) s = .ok (rc, h', lp'))
    (hrc : 0 < rc) :
    famfsLogFull lp.logp = false ∧ lp' = lp.logged crc32 (a.body fmap (join names)) ∧
      h' = h.set (root ++ names) (some (playNode (masterConfig kabi true cred) (a.body fmap (join names)))) := by
  obtain ⟨-, rc1, d, h1, hmk, hcases⟩ := mkfileShadow_cases hok
  have hres : h.resolve (pathIn s (join names)) = .missing (root ++ names) [] := by
    rw [hh.resolve_join hc, hnone]
    rfl
  rw [shadow_missing hres (isLocal_below hh.apart names)] at hmk
  cases hmk
  rcases hcases with ⟨h0, -⟩ | ⟨-, hlog⟩
  · exact absurd rfl h0
  · rcases mkfileLog_cases hlog with ⟨-, hret⟩ | ⟨hroom, hret⟩
    · cases hret
      exact absurd hrc (by decide)
    · cases hret
      exact ⟨hroom, rfl, rfl⟩

theorem mkfileStub_ok {h h' : Host} {lp lp' : FamfsLockedLog} {a : MkfileArgs} {fmap : FamfsLogFmap}
    {relpath : CStr} {fd rc : ℤ} {p : Path} (hres : h.resolve a.filename = .missing p [])
    (hloc : h.isLocal p = true) (hv1 : h.isFamfsV1 p = true) (hone : fmap.fmapNextents = 1) {map : IocMap}
    (hmap : playedMap kabi (logFileMeta fmap relpath a.mode a.uid a.gid a.size) = some map)
    (hok : mkfileStub crc32 kabi cred { Sys.healthy with fd := fd } h lp a fmap relpath = .ok (rc, h', lp'))
    (hrc : 0 < rc) :
    famfsLogFull lp.logp = false ∧ lp' = lp.logged crc32 (a.body fmap relpath) ∧
      h' = h.set p (some (playNode (masterConfig kabi false cred) (a.body fmap relpath))) := by
  have hnode : playNode (masterConfig kabi false cred) (a.body fmap relpath) =
      .reg (ownedAttr cred a.mode a.uid a.gid) (.mapped a.size map) := by
    simp only [MkfileArgs.body, playNode, masterConfig, hmap]
    rfl
  have hset : ∀ {fd' : ℤ}, mkfileLog crc32 (h.set p (some (.reg (ownedAttr cred a.mode a.uid a.gid)
      (.mapped a.size map)))) lp a fmap relpath fd' = .ok (rc, h', lp') →
      famfsLogFull lp.logp = false ∧ lp' = lp.logged crc32 (a.body fmap relpath) ∧
        h' = h.set p (some (playNode (masterConfig kabi false cred) (a.body fmap relpath))) := by
    intro fd' hlog
    rcases mkfileLog_cases hlog with ⟨-, hret⟩ | ⟨hroom, hret⟩
    · cases hret
      exact absurd hrc (by decide)
    · cases hret
      exact ⟨hroom, rfl, by rw [hnode]⟩
  simp only [mkfileStub, stub_missing hres hloc hv1, Bool.false_eq_true, if_false] at hok
  split_ifs at hok with hfd hk
  · cases hok
    omega
  · have hv2 : v2Map fmap a.size = .ok (.ok map) := playedMap_v2 hk hmap
    simp only [famfsV2SetFileMap, if_neg hfd, hv2, mapIoctl, Sys.healthy, if_true, modify_set, Node.write,
      Runs.ok_bind] at hok
    exact hset hok
  · have hv1 : map = v1Map fmap fmap.fmapNextents := (playedMap_v1 hk hmap).2
    rw [hv1, hone] at hset
    simp only [famfsV1SetFileMap, if_neg hfd, if_neg (show ¬ FAMFS_MAX_EXTENTS < 1 by decide), mapIoctl, Sys.healthy, if_true,
      modify_set, Node.write, Runs.ok_bind, ne_eq, not_true_eq_false, if_false] at hok
    exact hset hok

theorem MasterOk.mkfile (hm : MasterOk crc32 kabi shadow allowed mpt root m) (hcred : allowed cred)
    (hcwd : Rooted m.host (render cwd) cwd)
    (hsame : (m.host.cd cwd).resolve m.lp.rootStr = m.host.resolve m.lp.rootStr) (hpath : NormalPath names)
    {a : MkfileArgs} (htarget : targetFullpath (m.host.cd cwd) a.filename = pathIn m.lp.mpt (join names))
    {fd rc : ℤ} {host : AllocHost} {param : FamfsInterleaveParam} {h' : Host} {lp' : FamfsLockedLog}
    (hok : famfsMkfile crc32 kabi cred { Sys.healthy with fd := fd } host (m.host.cd cwd)
      { m.lp with interleaveParam := param } a = .ok (rc, h', lp')) (hrc : 0 < rc) :
    MasterOk crc32 kabi shadow allowed mpt root ⟨h', lp'⟩ := by
  have hm1 : MasterOk crc32 kabi shadow allowed mpt root
      ⟨m.host.cd cwd, { m.lp with interleaveParam := param }⟩ := (hm.cd hsame).same ⟨rfl, rfl, rfl, rfl⟩
  rw [hm.mptStr] at htarget
  rcases famfsMkfile_cases hok with ⟨rc', heq, -⟩ | ⟨-, hstat, -, ⟨attr, hdir⟩, halloc⟩
  · cases heq
    exact hm1
  · rcases mkfileAlloc_cases halloc with ⟨lp1, -, heq⟩ | ⟨lp1, fmap, relpath, halloc, hrel, hcreate⟩
    · cases heq
      exact absurd hrc (by decide)
    · obtain ⟨hs, hmap⟩ := famfsFileAlloc_replayable halloc
      have hm2 := hm1.same hs
      rw [htarget, hm2.mptStr, relpath_pathIn] at hrel
      cases hrel
      obtain ⟨p, hp, hlook⟩ : ∃ p, (m.host.cd cwd).resolve (dirname (pathIn (render mpt) (join names))) = .found p ∧
          m.host.look p = some (.dir attr) := stat_eq_some (htarget ▸ hdir)
      have hself : targetFullpath (m.host.cd cwd) (pathIn (render mpt) (join names)) =
          pathIn (render mpt) (join names) := if_pos rfl
      obtain ⟨hwalk, -⟩ := parent_walk hm.view hcwd hpath hself hp
      obtain ⟨-, hparent⟩ := hm2.parent_logged hpath.plain hwalk (fun n hn => by
        have heq : m.host.look p = some n := hn
        rw [hlook] at heq
        cases heq
        rfl)
      have hfresh := hm2.fresh hpath.nonempty hpath.plain hparent (htarget ▸ hstat rfl)
      obtain ⟨node, hh, hnode⟩ := hm2.made
      have hc := hm2.creatable hnode hpath.nonempty hpath.plain hparent
      have hnone := lookup_fresh node hfresh
      have hr := hmap fmap rfl
      obtain ⟨map, hplayed⟩ : ∃ map, playedMap kabi (logFileMeta fmap (join names) a.mode a.uid a.gid a.size) =
          some map := playedMap_replayable hr fun hk => famfsFileAlloc_simple hk halloc fmap rfl
      have hcreates : Creates kabi (a.body fmap (join names)) :=
        .file hr.one hr.offset (by rw [hplayed]; rfl)
      have hb : (a.body fmap (join names)).relpath = join names := hpath.copy
      have hfinish : famfsLogFull lp1.logp = false →
          lp' = lp1.logged crc32 (a.body fmap (join names)) →
          h' = (m.host.cd cwd).set (root ++ names)
            (some (playNode (masterConfig kabi shadow cred) (a.body fmap (join names)))) →
          MasterOk crc32 kabi shadow allowed mpt root ⟨h', lp'⟩ := by
        intro hroom hlp hhost
        obtain ⟨hgood, hnames⟩ := hpath.entry hcreates hb
        have := hm2.place (fun _ _ => hcred) hgood (by rwa [hnames]) (by rwa [hnames]) hroom
        rw [hnames] at this
        rw [hlp, hhost]
        exact this
      have hsetting : Setting mpt root (m.host.cd cwd) lp1 shadow := hm2.setting
      rw [mkfileCreate] at hcreate
      cases hsetting with
      | standalone hmount hroot hshadow htype =>
        subst hroot
        simp only [hshadow] at hcreate
        have hres : (m.host.cd cwd).resolve a.filename = .missing (root ++ names) [] := by
          rw [resolve_target hcwd (target_ne_nil hpath htarget), htarget,
            hm2.resolve_mpt hpath.nonempty hpath.plain hparent, walkBelow, hh.look hpath.nonempty, hnone]
          rfl
        have hv1 : (m.host.cd cwd).isFamfsV1 (root ++ names) = true := by
          simp only [Host.isFamfsV1, hmount, decide_eq_true_eq]
          exact List.prefix_append root names
        obtain ⟨hroom, hlp, hhost⟩ := mkfileStub_ok hres (isLocal_below hh.apart names) hv1 hr.one hplayed
          hcreate hrc
        exact hfinish hroom hlp hhost
      | @fuse d s hmount hmpt hroot hshadow htype =>
        simp only [hshadow] at hcreate
        have hstr : lp1.rootStr = s := by rw [FamfsLockedLog.rootStr, hshadow, Option.getD_some]
        rw [hstr] at hh
        obtain ⟨hroom, hlp, hhost⟩ := mkfileShadow_ok hh hc hnone hcreate hrc
        exact hfinish hroom hlp hhost

theorem masterOk_step {sb : FamfsSuperblock} {m' : Master} (hm : MasterOk crc32 kabi shadow allowed mpt root m)
    (hstep : MasterStep crc32 kabi sb allowed m m') : MasterOk crc32 kabi shadow allowed mpt root m' := by
  cases hstep with
  | session cfg => exact hm.same ⟨rfl, rfl, rfl, rfl⟩
  | mkfile hcred hcwd hsame hpath htarget hok hrc => exact hm.mkfile hcred hcwd hsame hpath htarget hok hrc
  | mkdir hcwd hsame hpath htarget hok => exact hm.mkdir hcwd hsame hpath htarget hok

end

end Famfs

import Famfs.Sanity.CreateCases
import Famfs.Sanity.MasterSteps

/-! What a local creation does to the namespace, told by how the node looks before it:
the name is free, it is the name of a file that `stat` did not report, or `open` refuses
it. -/

namespace Famfs

open Paths

def Node.kind (n : Node) : Bool × Bool := (n.isDir, n.isReg)

structure SameShape (h h' : Host) : Prop where
  cwd : h'.cwd = h.cwd
  look : ∀ q, (h'.look q).map Node.kind = (h.look q).map Node.kind

/-- The files and directories that the node shows are the same. -/
def SameObjects (h h' : Host) : Prop := ∀ q, (h'.look q).isSome = (h.look q).isSome

theorem SameObjects.refl (h : Host) : SameObjects h h := fun _ => rfl

section

variable {h h' : Host}

theorem SameShape.isDir (hs : SameShape h h') (q : Path) :
    (h'.look q).any Node.isDir = (h.look q).any Node.isDir := by
  have hkind : ∀ o : Option Node, o.any Node.isDir = (o.map Node.kind).any Prod.fst := by
    intro o
    cases o <;> rfl
  rw [hkind, hkind, hs.look q]

theorem SameShape.isReg (hs : SameShape h h') (q : Path) :
    (h'.look q).any Node.isReg = (h.look q).any Node.isReg := by
  have hkind : ∀ o : Option Node, o.any Node.isReg = (o.map Node.kind).any Prod.snd := by
    intro o
    cases o <;> rfl
  rw [hkind, hkind, hs.look q]

theorem SameShape.objects (hs : SameShape h h') : SameObjects h h' := by
  intro q
  have := congrArg Option.isSome (hs.look q)
  rwa [Option.isSome_map, Option.isSome_map] at this

theorem SameShape.resolve (hs : SameShape h h') (s : CStr) : h'.resolve s = h.resolve s := by
  simp only [Host.resolve, hs.cwd, walk_congr hs.isDir hs.objects]

theorem SameShape.openRdwr (hs : SameShape h h') (s : CStr) : h'.openRdwr s = h.openRdwr s := by
  simp only [Host.openRdwr, hs.resolve, hs.isReg]

theorem SameShape.sameObjects_iff {h0 : Host} (hs : SameShape h h') :
    SameObjects h0 h' ↔ SameObjects h0 h :=
  ⟨fun hsame q => (hs.objects q).symm.trans (hsame q), fun hsame q => (hs.objects q).trans (hsame q)⟩

end

section

variable {h : Host} {p : Path}

theorem look_local (hloc : h.isLocal p = true) : h.look p = h.tree p := by
  cases hm : h.mount with
  | v1 mpt => simp only [Host.look, hm]
  | fuse d =>
    simp only [Host.isLocal, hm, decide_eq_true_eq] at hloc
    simp only [Host.look, hm, if_neg hloc]

theorem look_set_self (hloc : h.isLocal p = true) (n : Option Node) : (h.set p n).look p = n := by
  have hloc' : (h.set p n).isLocal p = true := hloc
  rw [look_local hloc']
  simp only [Host.set, Function.update_self]

theorem look_set_hidden (hloc : h.isLocal p = false) (n : Option Node) (q : Path) :
    (h.set p n).look q = h.look q := by
  cases hm : h.mount with
  | v1 mpt =>
    rw [Host.isLocal, hm] at hloc
    cases hloc
  | fuse d =>
    simp only [Host.isLocal, hm, decide_eq_false_iff_not, not_not] at hloc
    simp only [Host.look, hm, Host.set]
    split_ifs with hpre
    · have hne : d.root ++ q.drop d.mpt.length ≠ p := by
        rintro rfl
        rcases List.prefix_or_prefix_of_prefix hloc (List.prefix_append d.root _) with h1 | h1
        · exact d.apart.1 h1
        · exact d.apart.2 h1
      rw [Function.update_of_ne hne]
    · have hne : q ≠ p := by
        rintro rfl
        exact hpre hloc
      rw [Function.update_of_ne hne]

theorem isFamfsV1_mount (hv1 : h.isFamfsV1 p = true) : ∃ mpt, h.mount = .v1 mpt := by
  cases hm : h.mount with
  | v1 mpt => exact ⟨mpt, rfl⟩
  | fuse d =>
    rw [Host.isFamfsV1, hm] at hv1
    cases hv1

theorem isLocal_of_v1 (hv1 : h.isFamfsV1 p = true) (q : Path) : h.isLocal q = true := by
  obtain ⟨mpt, hm⟩ := isFamfsV1_mount hv1
  simp only [Host.isLocal, hm]

theorem resolve_missing {s : CStr} {rest : List Name} (hres : h.resolve s = .missing p rest) : h.look p = none := by
  rw [Host.resolve] at hres
  split_ifs at hres with h0
  all_goals exact walk_missing hres

theorem resolve_placed {s : CStr} (hres : h.resolve s = .missing p []) (hloc : h.isLocal p = true) (n : Node) :
    (h.set p (some n)).resolve s = .found p := by
  have hfree : h.tree p = none := by rw [← look_local hloc, resolve_missing hres]
  have hplaced : ((h.set p (some n)).look p).isSome = true := by rw [look_set_self hloc]; rfl
  have he := extends_set h hfree (some n)
  rw [Host.resolve] at hres ⊢
  split_ifs at hres ⊢ with h0
  all_goals exact walk_placed (fun _ => he.lookDir) (fun _ => he.lookSome) hres hplaced

theorem sameShape_set {a b : Node} (hkind : a.kind = b.kind)
    (hshown : (∃ mpt, h.mount = .v1 mpt) ∨ a.present.map Node.kind = b.present.map Node.kind) :
    SameShape (h.set p (some b)) (h.set p (some a)) := by
  refine ⟨rfl, fun q => ?_⟩
  have htree : ∀ q, ((h.set p (some a)).tree q).map Node.kind = ((h.set p (some b)).tree q).map Node.kind := by
    intro q
    by_cases hq : q = p
    · subst hq
      simp only [Host.set, Function.update_self, Option.map_some, hkind]
    · simp only [Host.set, Function.update_of_ne hq]
  cases hm : h.mount with
  | v1 mpt =>
    simp only [Host.look, set_mount, hm]
    exact htree q
  | fuse d =>
    have hpresent : a.present.map Node.kind = b.present.map Node.kind := by
      rcases hshown with ⟨mpt, hv1⟩ | hp
      · rw [hm] at hv1
        cases hv1
      · exact hp
    simp only [Host.look, set_mount, hm]
    split_ifs with hpre
    · by_cases hq : d.root ++ q.drop d.mpt.length = p
      · simp only [Host.set, hq, Function.update_self, Option.bind_some, hpresent]
      · simp only [Host.set, Function.update_of_ne hq]
    · exact htree q

theorem resolve_rewritten {s : CStr} {q : Path} {attr : Attr} {data : FileData}
    (hn : h.tree p = some (.reg attr data)) (hres : h.resolve s = .found q) (attr' : Attr) (fm : FamfsLogFileMeta) :
    (h.set p (some (.reg attr' (.shadow (some fm))))).resolve s = .found q := by
  have htree : ∀ r, r ≠ p → (h.set p (some (.reg attr' (.shadow (some fm))))).tree r = h.tree r :=
    fun r hr => Function.update_of_ne hr _ _
  have hself : (h.set p (some (.reg attr' (.shadow (some fm))))).tree p = some (.reg attr' (.shadow (some fm))) :=
    Function.update_self _ _ _
  have hplain : ∀ r, ((h.tree r).any Node.isDir = true →
      ((h.set p (some (.reg attr' (.shadow (some fm))))).tree r).any Node.isDir = true) ∧
      ((h.tree r).isSome = true → ((h.set p (some (.reg attr' (.shadow (some fm))))).tree r).isSome = true) := by
    intro r
    by_cases hr : r = p
    · rw [hr, hself, hn]
      exact ⟨fun hd => absurd hd Bool.false_ne_true, fun _ => rfl⟩
    · rw [htree r hr]
      exact ⟨id, id⟩
  have hgrow : ∀ r, ((h.look r).any Node.isDir = true →
      ((h.set p (some (.reg attr' (.shadow (some fm))))).look r).any Node.isDir = true) ∧
      ((h.look r).isSome = true → ((h.set p (some (.reg attr' (.shadow (some fm))))).look r).isSome = true) := by
    intro r
    cases hm : h.mount with
    | v1 mpt =>
      simp only [Host.look, set_mount, hm]
      exact hplain r
    | fuse d =>
      simp only [Host.look, set_mount, hm]
      split_ifs with hpre
      · by_cases hr : d.root ++ r.drop d.mpt.length = p
        · rw [hr, hself, hn]
          refine ⟨fun hd => ?_, fun _ => rfl⟩
          cases data with
          | shadow yaml => cases yaml <;> exact absurd hd Bool.false_ne_true
          | plain n => exact absurd hd Bool.false_ne_true
          | mapped n map => exact absurd hd Bool.false_ne_true
        · rw [htree _ hr]
          exact ⟨id, id⟩
      · exact hplain r
  rw [Host.resolve] at hres ⊢
  split_ifs at hres ⊢ with h0
  all_goals exact walk_mono (fun r => (hgrow r).1) (fun r => (hgrow r).2) hres

theorem not_sameObjects_set (hnone : h.look p = none) (hloc : h.isLocal p = true) (n : Node) :
    ¬ SameObjects h (h.set p (some n)) := by
  intro hsame
  have := hsame p
  rw [look_set_self hloc, hnone] at this
  cases this

theorem set_none_self (hnone : h.look p = none) (hloc : h.isLocal p = true) : h.set p none = h := by
  rw [look_local hloc] at hnone
  simp only [Host.set]
  rw [← hnone, Function.update_eq_self]

end

def Host.withFile (h : Host) (p : Path) : Host :=
  h.set p (some (.reg ⟨0, 0, 0⟩ (.shadow (some ⟨0, 0, 0, 0, 0, [], .zero⟩))))

def Host.withStub (h : Host) (p : Path) : Host := h.set p (some (.reg ⟨0, 0, 0⟩ (.shadow none)))

def Host.withDir (h : Host) (p : Path) : Host := h.set p (some (.dir ⟨0, 0, 0⟩))

section

variable (h : Host) (p : Path) (attr : Attr)

theorem withFile_shadow (fm : FamfsLogFileMeta) :
    SameShape (h.withFile p) (h.set p (some (.reg attr (.shadow (some fm))))) :=
  sameShape_set rfl (Or.inr rfl)

theorem withStub_shadow : SameShape (h.withStub p) (h.set p (some (.reg attr (.shadow none)))) :=
  sameShape_set rfl (Or.inr rfl)

theorem withDir_dir : SameShape (h.withDir p) (h.set p (some (.dir attr))) := sameShape_set rfl (Or.inr rfl)

variable {h p} in
theorem withFile_v1 (hv1 : h.isFamfsV1 p = true) (data : FileData) :
    SameShape (h.withFile p) (h.set p (some (.reg attr data))) :=
  sameShape_set rfl (Or.inl (isFamfsV1_mount hv1))

end

structure Fresh (sys : Sys) (h : Host) (path : CStr) (p : Path) : Prop where
  opens : sys.openCreat = true
  missing : h.resolve path = .missing p []
  isLocal : h.isLocal p = true

/-- `open` finds the file `p`, which `stat` did not report. -/
structure Hidden (sys : Sys) (h : Host) (path : CStr) (p : Path) : Prop where
  unseen : sys.stat = false
  opens : sys.openCreat = true
  found : h.resolve path = .found p
  reg : (h.look p).any Node.isReg = true

def SeenFile (sys : Sys) (h : Host) (path : CStr) : Prop := sys.stat = true ∧ (h.stat path).any Node.isReg = true

section

variable {sys : Sys} {h : Host} {path : CStr} {p : Path}

theorem Fresh.unseen (hf : Fresh sys h path p) : (if sys.stat then h.stat path else none) = none := by
  rw [stat_missing hf.missing]
  exact ite_self none

theorem Hidden.node (hh : Hidden sys h path p) (hloc : h.isLocal p = true) :
    ∃ attr data, h.tree p = some (.reg attr data) := by
  obtain ⟨n, hn, hreg⟩ := (Option.any_eq_true _ _).1 hh.reg
  rw [look_local hloc] at hn
  cases n with
  | reg attr data => exact ⟨attr, data, hn⟩
  | dir attr => cases hreg
  | special attr => cases hreg

theorem openCreat_fresh (hf : Fresh sys h path p) (cred : Cred) (mode : ℕ) (data : FileData) :
    (if sys.openCreat then h.openCreat cred path mode data else none) =
      some (p, h.set p (some (.reg (cred.attr mode) data))) := by
  rw [if_pos hf.opens, openCreat_missing hf.missing hf.isLocal]

theorem openCreat_hidden (hh : Hidden sys h path p) (cred : Cred) (mode : ℕ) (data : FileData) :
    (if sys.openCreat then h.openCreat cred path mode data else none) = some (p, h) := by
  rw [if_pos hh.opens]
  simp only [Host.openCreat, hh.found, if_pos hh.reg]

theorem openCreat_refused (hfresh : ∀ p, ¬ Fresh sys h path p) (hhidden : ∀ p, ¬ Hidden sys h path p)
    (hstat : (if sys.stat then h.stat path else none) = none) (cred : Cred) (mode : ℕ) (data : FileData) :
    (if sys.openCreat then h.openCreat cred path mode data else none) = none := by
  by_cases hopen : sys.openCreat = true
  · rw [if_pos hopen]
    cases hres : h.resolve path with
    | notDir => simp only [Host.openCreat, hres]
    | found q =>
      have hnot : ¬ (h.look q).any Node.isReg = true := by
        intro hreg
        have hunseen : sys.stat = false := by
          by_contra hs
          rw [Bool.not_eq_false] at hs
          rw [if_pos hs, stat_found hres] at hstat
          rw [hstat] at hreg
          cases hreg
        exact hhidden q ⟨hunseen, hopen, hres, hreg⟩
      simp only [Host.openCreat, hres, if_neg hnot]
    | missing q rest =>
      cases rest with
      | cons c cs => simp only [Host.openCreat, hres]
      | nil =>
        have hnot : ¬ h.isLocal q = true := fun hloc => hfresh q ⟨hopen, hres, hloc⟩
        simp only [Host.openCreat, hres, if_neg hnot]
  · rw [if_neg hopen]

section

variable (cred : Cred) (mode uid gid : ℕ)

theorem stub_fresh (hf : Fresh sys h path p) (hv1 : h.isFamfsV1 p = true) (hnop : sys.ioctlNop = true) :
    ∃ attr, famfsFileCreateStub cred sys h path mode uid gid false =
      (sys.fd, p, h.set p (some (.reg attr (.plain 0)))) := by
  have hunseen : ¬ (sys.stat = true ∧ (h.stat path).isSome = true) := by
    rw [stat_missing hf.missing]
    simp
  have hv1' : (h.set p (some (.reg (cred.attr mode) (.plain 0)))).isFamfsV1 p = true := hv1
  simp only [famfsFileCreateStub, if_neg hunseen, openCreat_fresh hf, Bool.false_eq_true, if_false, hv1', hnop,
    and_self, not_true_eq_false, modify_set]
  split_ifs
  · exact ⟨_, rfl⟩
  · exact ⟨_, rfl⟩

theorem stub_fresh_elsewhere (hf : Fresh sys h path p) (hnot : ¬ (h.isFamfsV1 p = true ∧ sys.ioctlNop = true)) :
    famfsFileCreateStub cred sys h path mode uid gid false = (-EBADF, [], h) := by
  have hunseen : ¬ (sys.stat = true ∧ (h.stat path).isSome = true) := by
    rw [stat_missing hf.missing]
    simp
  have hnot' : ¬ ((h.set p (some (.reg (cred.attr mode) (.plain 0)))).isFamfsV1 p = true ∧ sys.ioctlNop = true) :=
    hnot
  have hback : (h.set p (some (.reg (cred.attr mode) (.plain 0)))).set p none = h := by
    have hset := set_none_self (resolve_missing hf.missing) hf.isLocal
    simp only [Host.set, Function.update_idem] at hset ⊢
    exact hset
  simp only [famfsFileCreateStub, if_neg hunseen, openCreat_fresh hf, Bool.false_eq_true, if_false, if_pos hnot',
    hback]

theorem stub_hidden (hh : Hidden sys h path p) (hv1 : h.isFamfsV1 p = true) (hnop : sys.ioctlNop = true) :
    ∃ attr data, famfsFileCreateStub cred sys h path mode uid gid false =
      (sys.fd, p, h.set p (some (.reg attr data))) := by
  have hunseen : ¬ (sys.stat = true ∧ (h.stat path).isSome = true) := by simp [hh.unseen]
  obtain ⟨attr, data, hn⟩ := hh.node (isLocal_of_v1 hv1 p)
  have hself : h.set p (some (.reg attr data)) = h := by
    simp only [Host.set]
    rw [← hn, Function.update_eq_self]
  simp only [famfsFileCreateStub, if_neg hunseen, openCreat_hidden hh, hv1, hnop, and_self, not_true_eq_false,
    if_false]
  split_ifs
  · exact ⟨_, data, by rw [Host.modify, hn]; rfl⟩
  · exact ⟨attr, data, by rw [hself]⟩

theorem stub_hidden_elsewhere (hh : Hidden sys h path p)
    (hnot : ¬ (h.isFamfsV1 p = true ∧ sys.ioctlNop = true)) :
    famfsFileCreateStub cred sys h path mode uid gid false = (-EBADF, [], h.set p none) := by
  have hunseen : ¬ (sys.stat = true ∧ (h.stat path).isSome = true) := by simp [hh.unseen]
  simp only [famfsFileCreateStub, if_neg hunseen, openCreat_hidden hh, if_pos hnot]

theorem stub_refused (hfresh : ∀ p, ¬ Fresh sys h path p) (hhidden : ∀ p, ¬ Hidden sys h path p) :
    famfsFileCreateStub cred sys h path mode uid gid false = (-1, [], h) := by
  by_cases hseen : sys.stat = true ∧ (h.stat path).isSome = true
  · simp only [famfsFileCreateStub, if_pos hseen]
  · have hstat : (if sys.stat then h.stat path else none) = none := by
      split_ifs with hs
      · exact Option.not_isSome_iff_eq_none.1 fun hsome => hseen ⟨hs, hsome⟩
      · rfl
    simp only [famfsFileCreateStub, if_neg hseen, openCreat_refused hfresh hhidden hstat]

end

section

variable (cred : Cred) (fc : FamfsLogFileMeta)

theorem shadow_fresh (hf : Fresh sys h path p) (hopen : sys.fdopen = true) (hemit : sys.emitYaml = true) :
    ∃ attr d, famfsShadowFileCreate cred sys h path fc false =
      (0, d, h.set p (some (.reg attr (.shadow (some fc))))) := by
  refine ⟨cred.attr 0o644, ⟨0, 0, 1⟩, ?_⟩
  simp only [famfsShadowFileCreate, Bool.false_eq_true, if_false, hf.unseen, openCreat_fresh hf, hopen,
    Bool.true_eq_false, hemit, if_true, modify_set, Node.write]

theorem shadow_fresh_broken (hf : Fresh sys h path p) (hbad : ¬ (sys.fdopen = true ∧ sys.emitYaml = true)) :
    ∃ attr d, famfsShadowFileCreate cred sys h path fc false =
      (-1, d, h.set p (some (.reg attr (.shadow none)))) := by
  simp only [famfsShadowFileCreate, Bool.false_eq_true, if_false, hf.unseen, openCreat_fresh hf]
  split_ifs with hopen hemit
  · exact ⟨_, _, rfl⟩
  · rw [Bool.not_eq_false] at hopen
    exact absurd ⟨hopen, hemit⟩ hbad
  · exact ⟨_, _, by rw [modify_set]; rfl⟩

theorem shadow_seen (hs : SeenFile sys h path) :
    famfsShadowFileCreate cred sys h path fc false = (0, ⟨0, 1, 0⟩, h) := by
  obtain ⟨n, hn, hreg⟩ := (Option.any_eq_true _ _).1 hs.2
  cases n with
  | reg attr data => simp only [famfsShadowFileCreate, Bool.false_eq_true, if_false, hs.1, if_true, hn]
  | dir attr => cases hreg
  | special attr => cases hreg

theorem shadow_hidden (hh : Hidden sys h path p) :
    ∃ d, famfsShadowFileCreate cred sys h path fc false =
      if sys.fdopen = false then (-1, d, h)
      else if sys.emitYaml then (0, d, h.modify p (Node.write (.shadow (some fc))))
      else (-1, d, h.modify p (Node.write (.shadow none))) := by
  have hunseen : (if sys.stat then h.stat path else none) = none := by simp [hh.unseen]
  simp only [famfsShadowFileCreate, Bool.false_eq_true, if_false, hunseen, openCreat_hidden hh]
  split_ifs
  all_goals exact ⟨_, rfl⟩

theorem shadow_refused (hfresh : ∀ p, ¬ Fresh sys h path p) (hhidden : ∀ p, ¬ Hidden sys h path p)
    (hseen : ¬ SeenFile sys h path) :
    ∃ d, famfsShadowFileCreate cred sys h path fc false = (-1, d, h) := by
  cases hstat : (if sys.stat then h.stat path else none) with
  | none =>
    simp only [famfsShadowFileCreate, Bool.false_eq_true, if_false, hstat,
      openCreat_refused hfresh hhidden hstat]
    exact ⟨_, rfl⟩
  | some n =>
    cases n with
    | dir attr => exact ⟨⟨1, 0, 0⟩, by simp only [famfsShadowFileCreate, Bool.false_eq_true, if_false, hstat]⟩
    | special attr => exact ⟨⟨1, 0, 0⟩, by simp only [famfsShadowFileCreate, Bool.false_eq_true, if_false, hstat]⟩
    | reg attr data =>
      split_ifs at hstat with hs
      exact absurd ⟨hs, by rw [hstat]; rfl⟩ hseen

theorem hidden_rewritten (hh : Hidden sys h path p) (fm : FamfsLogFileMeta) :
    SameShape (h.withFile p) (h.modify p (Node.write (.shadow (some fm)))) := by
  by_cases hloc : h.isLocal p = true
  · obtain ⟨attr, data, hn⟩ := hh.node hloc
    rw [Host.modify, hn]
    exact withFile_shadow h p attr fm
  · rw [Bool.not_eq_true] at hloc
    exact ⟨rfl, fun q => by rw [Host.modify, Host.withFile, look_set_hidden hloc, look_set_hidden hloc]⟩

theorem hidden_emptied (hh : Hidden sys h path p) :
    SameShape (h.withStub p) (h.modify p (Node.write (.shadow none))) := by
  by_cases hloc : h.isLocal p = true
  · obtain ⟨attr, data, hn⟩ := hh.node hloc
    rw [Host.modify, hn]
    exact withStub_shadow h p attr
  · rw [Bool.not_eq_true] at hloc
    exact ⟨rfl, fun q => by rw [Host.modify, Host.withStub, look_set_hidden hloc, look_set_hidden hloc]⟩

end

end

structure FreshDir (sys : Sys) (h : Host) (path : CStr) (p : Path) : Prop where
  makes : sys.mkdir = true
  missing : h.resolve (stripSlashes path) = .missing p []
  isLocal : h.isLocal p = true

section

variable {sys : Sys} {h : Host} {root relpath : CStr} {p : Path} (cred : Cred) (mode uid gid : ℕ)

theorem dir_fresh (hf : FreshDir sys h (pathIn root relpath) p) :
    ∃ attr, famfsDirCreate cred sys h root relpath mode uid gid =
      (if uid ≠ 0 ∧ gid ≠ 0 ∧ sys.chown = false then -1 else 0, h.set p (some (.dir attr))) := by
  simp only [famfsDirCreate, hf.makes, if_true, Host.mkdir, hf.missing, hf.isLocal, modify_set]
  split_ifs with howned hchown hbad hbad hbad
  · exact absurd hchown (by rw [hbad.2.2]; exact Bool.false_ne_true)
  · exact ⟨_, rfl⟩
  · exact ⟨_, rfl⟩
  · exact absurd ⟨howned.1, howned.2, Bool.eq_false_iff.2 hchown⟩ hbad
  · exact absurd ⟨hbad.1, hbad.2.1⟩ howned
  · exact ⟨_, rfl⟩

theorem dir_refused (hfresh : ∀ p, ¬ FreshDir sys h (pathIn root relpath) p) :
    famfsDirCreate cred sys h root relpath mode uid gid = (-1, h) := by
  have hnone : (if sys.mkdir then h.mkdir cred (pathIn root relpath) mode else none) = none := by
    split_ifs with hmk
    · rw [Host.mkdir]
      split
      · next q hres =>
        have hnot : ¬ h.isLocal q = true := fun hloc => hfresh q ⟨hmk, hres, hloc⟩
        rw [if_neg hnot]
      · rfl
    · rfl
  simp only [famfsDirCreate, hnone]

end

end Famfs

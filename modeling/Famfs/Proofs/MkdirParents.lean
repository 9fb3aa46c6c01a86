import Famfs.Proofs.RelpathInside

/-! `mkdir -p`. The recursion goes up until `stat` finds something and makes the missing directories
on its way back, each through `__famfs_mkdir`, which makes a directory only where there was nothing.
So a call that returns 0 has found the deepest directory that existed and has made and logged those
below it, parents first. -/

namespace Famfs

open Paths

/-- The directories below `old` that `new` names, parents first. -/
def newDirs (old new : List Name) : List (List Name) := (List.range new.length).map fun i => old ++ new.take (i + 1)

/-- The directories that `new` names below `old` exist, and nothing else happened than that they were
made, where there was nothing behind the mount, and were logged in this order. -/
structure ParentsMade (crc32 : Crc32) (cred : Cred) (mode uid gid : ℕ) (mpt root : Path) (old new : List Name)
    (h : Host) (lp : FamfsLockedLog) (h' : Host) (lp' : FamfsLockedLog) : Prop where
  exist : ∀ q, q <+: new → (h'.stat (render (mpt ++ (old ++ q)))).any Node.isDir = true
  free : ∀ d ∈ newDirs old new, h.tree (root ++ d) = none
  host : h' = (newDirs old new).foldl (fun h d => h.set (root ++ d) (some (.dir (ownedAttr cred mode uid gid)))) h
  log : lp' = (newDirs old new).foldl (fun lp d => lp.logged crc32 (.md ⟨uid, gid, mode, join d⟩)) lp

theorem newDirs_length (old new : List Name) : (newDirs old new).length = new.length := by simp [newDirs]

theorem newDirs_concat (old new : List Name) (c : Name) : newDirs old (new ++ [c]) = newDirs old new ++ [old ++ (new ++ [c])] := by
  have htake : ∀ i ∈ List.range new.length, old ++ (new ++ [c]).take (i + 1) = old ++ new.take (i + 1) := by
    intro i hi
    rw [List.take_append_of_le_length (Nat.succ_le_of_lt (List.mem_range.1 hi))]
  rw [newDirs, newDirs, List.length_append, List.length_singleton, List.range_succ, List.map_append, List.map_congr_left htake]
  simp

section

variable {shadow : Bool} {mpt root : Path} {h h' : Host} {lp lp' : FamfsLockedLog} {names : List Name}

section

variable {crc32 : Crc32} {cred : Cred} {sys : Sys} {mode uid gid : ℕ} {r : ℤ × Host × FamfsLockedLog}

theorem AtMount.mkdir_below (hs : AtMount shadow mpt root h lp) (hne : names ≠ []) (hpl : ∀ c ∈ names, Plain c)
    (hok : famfsMkdir crc32 cred sys h lp ⟨render (mpt ++ names), mode, uid, gid⟩ = .ok r) :
    r = (-1, h, lp) ∨ (h.tree (root ++ names) = none ∧ (r.1 = 0 →
      r = (0, h.set (root ++ names) (some (.dir (ownedAttr cred mode uid gid))),
        lp.logged crc32 (.md ⟨uid, gid, mode, copyRelpath (join names)⟩)))) := by
  have hdrop : (mpt ++ names).dropLast = mpt ++ names.dropLast := List.dropLast_append_of_ne_nil hne
  have hlast : mpt ++ names = mpt ++ names.dropLast ++ [names.getLast hne] := by
    rw [List.append_assoc, List.dropLast_append_getLast]
  have hdir : ∀ p, h.resolve (dirname (render (mpt ++ names))) = .found p → p = mpt ++ names.dropLast := by
    intro p hp
    rw [dirname_render (hs.plain hpl), hdrop] at hp
    exact resolve_render_found (hs.plain fun d hd => hpl d (List.mem_of_mem_dropLast hd)) hp
  have hbase : basename (render (mpt ++ names)) = names.getLast hne := by
    rw [hlast]
    exact basename_render (hpl _ (List.getLast_mem hne)) _
  rcases hs.mkdir_cases hne hpl hdir hbase hok with hfail | ⟨hfree, hmade⟩
  · exact Or.inl hfail
  · exact Or.inr ⟨hfree, fun hzero => (hmade hzero).2⟩

theorem AtMount.mkdir_above (hs : AtMount shadow mpt root h lp) {p : Path} (hp : p <+: mpt)
    (hok : famfsMkdir crc32 cred sys h lp ⟨render p, mode, uid, gid⟩ = .ok r) : r = (-1, h, lp) := by
  rcases famfsMkdir_cases hok with hfail | ⟨-, -, q, rel, hq, -, hrel, -⟩
  · exact hfail
  exfalso
  dsimp only at hq hrel
  obtain ⟨s, rfl⟩ := hp
  have hpl : ∀ d ∈ p, Plain d := fun d hd => hs.view.plain d (List.mem_append_left _ hd)
  rw [dirname_render hpl] at hq
  obtain rfl := resolve_render_found (fun d hd => hpl d (List.dropLast_subset p hd)) hq
  rw [hs.mptStr] at hrel
  obtain ⟨hpre, hdiff⟩ := relpath_some hrel
  by_cases hup : p.dropLast = []
  · -- the parent is the root directory, whose path ends in a slash of its own
    rw [hup] at hpre
    exact not_render_doubled hs.mptNe hs.view.plain _ hpre
  · obtain ⟨init, c, rfl⟩ : ∃ init c, p = init ++ [c] :=
      ⟨_, _, (List.dropLast_append_getLast (fun h0 => hup (by rw [h0]; rfl))).symm⟩
    rw [List.dropLast_concat] at hup
    have hfull : pathIn (render (init ++ [c]).dropLast) (basename (render (init ++ [c]))) = render (init ++ [c]) := by
      rw [List.dropLast_concat, basename_render (hpl c (by simp)), render_concat, pathIn, render_eq_tail hup]
    rw [hfull] at hpre hdiff
    have happ : render (init ++ [c] ++ s) = render (init ++ [c]) ++ tail s := by
      rw [render_eq_tail (by simp), render_eq_tail (by simp), tail_append]
    rw [happ] at hpre hdiff
    exact hdiff ((List.prefix_append _ _).eq_of_length (le_antisymm (List.prefix_append _ _).length_le hpre.length_le))

theorem AtMount.mkdir_existing (hs : AtMount shadow mpt root h lp) (hpl : ∀ c ∈ names, Plain c) {p : Path}
    (hp : p <+: mpt ++ names) {n : Node} (hn : h.look p = some n)
    (hok : famfsMkdir crc32 cred sys h lp ⟨render p, mode, uid, gid⟩ = .ok r) : r = (-1, h, lp) := by
  rcases List.prefix_or_prefix_of_prefix hp (List.prefix_append mpt names) with hup | ⟨q, rfl⟩
  · exact hs.mkdir_above hup hok
  · by_cases hq : q = []
    · subst hq
      rw [List.append_nil] at hok
      exact hs.mkdir_above (List.prefix_refl mpt) hok
    · have hsub := List.prefix_append_right_inj mpt |>.1 hp
      rcases hs.mkdir_below hq (fun c hc => hpl c (hsub.subset hc)) hok with hfail | ⟨hfree, -⟩
      · exact hfail
      · rw [hs.setting.look_tree, hfree] at hn
        cases hn

end

section

variable {crc32 : Crc32} {cred : Cred} {sys : ℕ → Sys} {mode uid gid fuel depth : ℕ} {path : CStr}
  {r : ℤ × Host × FamfsLockedLog}

theorem famfsMakeParentDir_cases
    (hok : famfsMakeParentDir crc32 cred sys h lp mode uid gid (fuel + 1) depth path = some (.ok r)) :
    (∃ n, h.stat path = some n ∧ r = (if n.isDir then 0 else -1, h, lp)) ∨
      (((sys depth).statTarget = true → h.stat path = none) ∧ ∃ rc h1 lp1,
        famfsMakeParentDir crc32 cred sys h lp mode uid gid fuel (depth + 1) (dirname path) = some (.ok (rc, h1, lp1)) ∧
        ((rc ≠ 0 ∧ r = (-1, h1, lp1)) ∨
          (rc = 0 ∧ famfsMkdir crc32 cred (sys depth) h1 lp1 ⟨path, mode, uid, gid⟩ = .ok r))) := by
  rw [famfsMakeParentDir] at hok
  generalize hstat : (if (sys depth).statTarget then h.stat path else none) = st at hok
  cases st with
  | some n =>
    split_ifs at hstat
    refine Or.inl ⟨n, hstat, ?_⟩
    dsimp only at hok
    split_ifs at hok ⊢
    · cases hok
      rfl
    · cases hok
      rfl
  | none =>
    refine Or.inr ⟨fun hs => by rwa [if_pos hs] at hstat, ?_⟩
    dsimp only at hok
    split at hok
    · cases hok
    · cases hok
    · next rc h1 lp1 hup =>
      refine ⟨rc, h1, lp1, hup, ?_⟩
      split_ifs at hok with hrc
      · cases hok
        exact Or.inl ⟨hrc, rfl⟩
      · exact Or.inr ⟨not_not.1 hrc, Option.some.inj hok⟩

theorem AtMount.from_existing (hs : AtMount shadow mpt root h lp) (hpl : ∀ c ∈ names, Plain c) {p : Path}
    (hp : p <+: mpt ++ names) (hreach : Reachable Node.isDir h.look p) {n : Node} (hn : h.look p = some n)
    (hok : famfsMakeParentDir crc32 cred sys h lp mode uid gid fuel depth (render p) = some (.ok r)) :
    r.2 = (h, lp) ∧ (r.1 = 0 → n.isDir = true) := by
  induction fuel generalizing p depth n r with
  | zero => cases hok
  | succ fuel ih =>
    have hplain : ∀ d ∈ p, Plain d := fun d hd => hs.plain hpl d (hp.subset hd)
    rcases famfsMakeParentDir_cases hok with ⟨m, hm, rfl⟩ | ⟨-, rc, h1, lp1, hup, hcases⟩
    · obtain ⟨-, hlook⟩ := stat_render_some hplain hm
      rw [hn] at hlook
      cases hlook
      refine ⟨rfl, fun h0 => ?_⟩
      by_contra hdir
      rw [if_neg hdir] at h0
      cases h0
    · -- the call above starts from a directory, or from the root once more
      obtain ⟨m, hm⟩ : ∃ m, h.look p.dropLast = some m := by
        by_cases htop : p.dropLast = p
        · exact ⟨n, by rw [htop, hn]⟩
        · obtain ⟨m, hm, -⟩ := (Option.any_eq_true _ _).1 (hreach _ (List.dropLast_prefix p) htop)
          exact ⟨m, hm⟩
      rw [dirname_render hplain] at hup
      obtain ⟨hsame, -⟩ := ih ((List.dropLast_prefix p).trans hp) (hreach.ancestor (List.dropLast_prefix p)) hm hup
      cases hsame
      have hfail : r = (-1, h, lp) := by
        rcases hcases with ⟨-, hret⟩ | ⟨-, hmk⟩
        · exact hret
        · exact hs.mkdir_existing hpl hp hn hmk
      subst hfail
      exact ⟨rfl, fun h0 => by cases h0⟩

variable {old new : List Name}

theorem ParentsMade.concat {h1 : Host} {lp1 : FamfsLockedLog} {c : Name}
    (hmade : ParentsMade crc32 cred mode uid gid mpt root old new h lp h1 lp1) (he : Extends h h1)
    (hs : AtMount shadow mpt root h1 lp1) (hpl : ∀ d ∈ old ++ (new ++ [c]), Plain d)
    (hfree : h1.tree (root ++ (old ++ (new ++ [c]))) = none) :
    ParentsMade crc32 cred mode uid gid mpt root old (new ++ [c]) h lp
      (h1.set (root ++ (old ++ (new ++ [c]))) (some (.dir (ownedAttr cred mode uid gid))))
      (lp1.logged crc32 (.md ⟨uid, gid, mode, join (old ++ (new ++ [c]))⟩)) where
  exist := by
    intro q hq
    have hgrow := extends_set h1 hfree (some (.dir (ownedAttr cred mode uid gid)))
    rcases List.prefix_concat_iff.1 hq with rfl | hq
    · have hs' : AtMount shadow mpt root _ lp1 := hs.grown hgrow rfl rfl rfl
      have hplain := hs.plain (plain_init hpl)
      obtain ⟨n, hn, hdir⟩ := (Option.any_eq_true _ _).1 (hgrow.statDir (hmade.exist new (List.prefix_refl new)))
      obtain ⟨hreach, hlook⟩ := stat_render_some hplain hn
      have hplace := Placed.concat ⟨hplain, hreach⟩ (by rw [hlook]; exact hdir) (hpl c (by simp))
      have htree : (h1.set (root ++ (old ++ (new ++ [c]))) (some (.dir (ownedAttr cred mode uid gid)))).tree
          (root ++ (old ++ (new ++ [c]))) = some (.dir (ownedAttr cred mode uid gid)) := Function.update_self _ _ _
      have hself : shownNode shadow (.dir (ownedAttr cred mode uid gid)) = some (.dir (ownedAttr cred mode uid gid)) := by
        cases shadow <;> rfl
      have hshown := hs'.setting.look_tree (old ++ (new ++ [c]))
      rw [htree, Option.bind_some, hself] at hshown
      rw [List.append_assoc, List.append_assoc] at hplace
      rw [stat_render hplace.plain (by simp) hplace.reach hshown]
      rfl
    · exact hgrow.statDir (hmade.exist q hq)
  free := by
    intro d hd
    rw [newDirs_concat, List.mem_append, List.mem_singleton] at hd
    rcases hd with hd | rfl
    · exact hmade.free d hd
    · by_contra hsome
      obtain ⟨n, hn⟩ := Option.ne_none_iff_exists'.1 hsome
      rw [he.tree _ n hn] at hfree
      cases hfree
  host := by
    rw [newDirs_concat, List.foldl_append, ← hmade.host]
    rfl
  log := by
    rw [newDirs_concat, List.foldl_append, ← hmade.log]
    rfl

theorem AtMount.from_missing (hs : AtMount shadow mpt root h lp) (hpl : ∀ c ∈ old ++ new, Plain c)
    (hshort : (join (old ++ new)).length ≤ 78) (hold : (h.stat (render (mpt ++ old))).any Node.isDir = true)
    (hnew : ∀ q, q <+: new → q ≠ [] → h.stat (render (mpt ++ (old ++ q))) = none)
    (hok : famfsMakeParentDir crc32 cred sys h lp mode uid gid fuel depth (render (mpt ++ (old ++ new))) = some (.ok (0, h', lp'))) :
    ParentsMade crc32 cred mode uid gid mpt root old new h lp h' lp' ∧ Extends h h' ∧ AtMount shadow mpt root h' lp' := by
  induction new using List.reverseRecOn generalizing fuel depth h' lp' with
  | nil =>
    obtain ⟨n, hn, -⟩ := (Option.any_eq_true _ _).1 hold
    rw [List.append_nil] at hok hpl
    obtain ⟨hreach, hlook⟩ := stat_render_some (hs.plain hpl) hn
    obtain ⟨hsame, -⟩ := hs.from_existing hpl (List.prefix_refl _) hreach hlook hok
    cases hsame
    refine ⟨⟨fun q hq => ?_, fun d hd => absurd hd List.not_mem_nil, rfl, rfl⟩, Extends.refl h, hs⟩
    rw [List.prefix_nil.1 hq, List.append_nil]
    exact hold
  | append_singleton new c ih =>
    cases fuel with
    | zero => cases hok
    | succ fuel =>
      rcases famfsMakeParentDir_cases hok with ⟨n, hn, -⟩ | ⟨-, rc, h1, lp1, hup, hcases⟩
      · rw [hnew _ (List.prefix_refl _) (by simp)] at hn
        cases hn
      rw [parent_render (hs.plain hpl)] at hup
      rcases hcases with ⟨-, hret⟩ | ⟨rfl, hmk⟩
      · cases hret
      have hpre : old ++ new <+: old ++ (new ++ [c]) := (List.prefix_append_right_inj old).2 (List.prefix_append new [c])
      obtain ⟨hmade, he, hs1⟩ := ih (plain_init hpl) ((join_prefix_length hpre).trans hshort)
        (fun q hq => hnew q (hq.trans (List.prefix_append _ _))) hup
      rcases hs1.mkdir_below (by simp) hpl hmk with hfail | ⟨hfree, hret⟩
      · cases hfail
      have hcopy : copyRelpath (join (old ++ (new ++ [c]))) = join (old ++ (new ++ [c])) :=
        copyRelpath_short (by rw [FAMFS_MAX_PATHLEN]; omega)
      have heq := hret rfl
      rw [hcopy] at heq
      cases heq
      have hgrow := extends_set h1 hfree (some (.dir (ownedAttr cred mode uid gid)))
      exact ⟨hmade.concat he hs1 hpl hfree, he.trans hgrow, hs1.grown hgrow rfl rfl rfl⟩

theorem AtMount.stat_below (hs : AtMount shadow mpt root h lp) {q s : List Name} {n : Node} (hpl : ∀ d ∈ q ++ s, Plain d)
    (hne : s ≠ []) (hn : h.stat (render (mpt ++ q)) = some n) (hfile : n.isDir = false) :
    h.stat (render (mpt ++ (q ++ s))) = none := by
  have hall := hs.plain hpl
  rw [← List.append_assoc] at hall ⊢
  exact stat_below_file hall hne hn hfile

section

variable {q s : List Name} {n : Node} (hs : AtMount shadow mpt root h lp) (hpl : ∀ c ∈ q ++ s, Plain c)
  (hn : h.stat (render (mpt ++ q)) = some n) (hfile : n.isDir = false)

include hs hpl hn hfile

theorem AtMount.from_below_file
    (hok : famfsMakeParentDir crc32 cred sys h lp mode uid gid fuel depth (render (mpt ++ (q ++ s))) = some (.ok r)) :
    r.1 ≠ 0 ∧ r.2 = (h, lp) := by
  induction s using List.reverseRecOn generalizing fuel depth r with
  | nil =>
    rw [List.append_nil] at hok hpl
    obtain ⟨hreach, hlook⟩ := stat_render_some (hs.plain hpl) hn
    obtain ⟨hsame, hdir⟩ := hs.from_existing hpl (List.prefix_refl _) hreach hlook hok
    refine ⟨fun h0 => ?_, hsame⟩
    rw [hdir h0] at hfile
    cases hfile
  | append_singleton s c ih =>
    cases fuel with
    | zero => cases hok
    | succ fuel =>
      rcases famfsMakeParentDir_cases hok with ⟨m, hm, -⟩ | ⟨-, rc, h1, lp1, hup, hcases⟩
      · rw [hs.stat_below hpl (by simp) hn hfile] at hm
        cases hm
      rw [parent_render (hs.plain hpl)] at hup
      obtain ⟨hrc, hsame⟩ := ih (plain_init hpl) hup
      cases hsame
      rcases hcases with ⟨-, rfl⟩ | ⟨h0, -⟩
      · exact ⟨neg_ne_zero.2 one_ne_zero, rfl⟩
      · exact absurd h0 hrc

theorem AtMount.fails_below_file (hstat : ∀ d, (sys d).statTarget = true) (hfuel : s.length < fuel) :
    famfsMakeParentDir crc32 cred sys h lp mode uid gid fuel depth (render (mpt ++ (q ++ s))) = some (.ok (-1, h, lp)) := by
  induction s using List.reverseRecOn generalizing fuel depth with
  | nil =>
    obtain ⟨fuel, rfl⟩ := Nat.exists_eq_add_one_of_ne_zero (by omega : fuel ≠ 0)
    rw [List.append_nil]
    simp only [famfsMakeParentDir, hstat, if_true, hn, hfile, Bool.false_eq_true, if_false]
  | append_singleton s c ih =>
    rw [List.length_append, List.length_singleton] at hfuel
    obtain ⟨fuel, rfl⟩ := Nat.exists_eq_add_one_of_ne_zero (by omega : fuel ≠ 0)
    have hnone := hs.stat_below hpl (by simp) hn hfile
    have hfails : famfsMakeParentDir crc32 cred sys h lp mode uid gid fuel (depth + 1) (render (mpt ++ (q ++ s))) =
        some (.ok (-1, h, lp)) := ih (plain_init hpl) (by omega)
    rw [famfsMakeParentDir, if_pos (hstat depth), hnone, parent_render (hs.plain hpl), hfails]
    rfl

end

end

end

/-- `mkdir -p` of a path below the mount point. If it returns 0, the missing directories were made and
logged, parents first, and nothing else; if something on the path is not a directory, it fails and
changes nothing. -/
theorem make_parent_dir_logs_missing {shadow : Bool} {mpt root : Path} {h : Host} {lp : FamfsLockedLog}
    (hs : AtMount shadow mpt root h lp) (crc32 : Crc32) (cred : Cred) (sys : ℕ → Sys) (mode uid gid : ℕ) {rel : List Name}
    (hpl : ∀ c ∈ rel, Plain c) (hshort : (join rel).length ≤ 78) :
    (∀ old new, rel = old ++ new → (h.stat (render (mpt ++ old))).any Node.isDir = true →
        (∀ q, q <+: new → q ≠ [] → h.stat (render (mpt ++ (old ++ q))) = none) →
        ∀ fuel depth h' lp', famfsMakeParentDir crc32 cred sys h lp mode uid gid fuel depth (render (mpt ++ rel)) =
            some (.ok (0, h', lp')) →
          (newDirs old new).length = new.length ∧ ParentsMade crc32 cred mode uid gid mpt root old new h lp h' lp') ∧
      ∀ q n, q <+: rel → h.stat (render (mpt ++ q)) = some n → n.isDir = false →
        (∀ fuel depth r, famfsMakeParentDir crc32 cred sys h lp mode uid gid fuel depth (render (mpt ++ rel)) = some (.ok r) →
          r.1 ≠ 0 ∧ r.2 = (h, lp)) ∧
        ((∀ d, (sys d).statTarget = true) → ∀ fuel depth, rel.length < fuel →
          famfsMakeParentDir crc32 cred sys h lp mode uid gid fuel depth (render (mpt ++ rel)) = some (.ok (-1, h, lp))) := by
  refine ⟨?_, ?_⟩
  · rintro old new rfl hold hnew fuel depth h' lp' hok
    exact ⟨newDirs_length old new, (hs.from_missing hpl hshort hold hnew hok).1⟩
  · rintro q n ⟨s, rfl⟩ hn hfile
    refine ⟨fun fuel depth r hok => hs.from_below_file hpl hn hfile hok, fun hstat fuel depth hfuel => ?_⟩
    exact hs.fails_below_file hpl hn hfile hstat (by rw [List.length_append] at hfuel; omega)

def mountedSession : FamfsLockedLog := { freshSession with mpt := lit "/n/m" }

theorem mountedSession_atMount : AtMount false [[110], [109]] [[110], [109]] mountedHost mountedSession := by
  have hpl : ∀ c ∈ [[110], [109]], Plain c := by decide
  have hstat : mountedHost.stat (render [[110], [109]]) = some (.dir ⟨0o755, 0, 0⟩) := by decide +kernel
  have hview : Rooted mountedHost (render [[110], [109]]) [[110], [109]] :=
    ⟨by decide +kernel, hpl, (stat_render_some hpl hstat).1, by decide +kernel⟩
  exact ⟨by decide, by decide, hview, .standalone rfl rfl rfl rfl, hview, trivial⟩

/-- `mkdir -p /n/m/a/b` in the empty file system. -/
theorem make_parent_dir_logs_missing_two :
    ∃ h' lp', famfsMakeParentDir Crc32.update ⟨0, 0, 0o022⟩ (fun _ => Sys.healthy) mountedHost mountedSession 0o755 0 0 3 0
        (render ([[110], [109]] ++ [[97], [98]])) = some (.ok (0, h', lp')) ∧ lp'.logp.famfsLogNextIndex = 2 ∧
      ParentsMade Crc32.update ⟨0, 0, 0o022⟩ 0o755 0 0 [[110], [109]] [[110], [109]] [] [[97], [98]]
        mountedHost mountedSession h' lp' := by
  have hrun : ((famfsMakeParentDir Crc32.update ⟨0, 0, 0o022⟩ (fun _ => Sys.healthy) mountedHost mountedSession 0o755 0 0 3 0
      (render ([[110], [109]] ++ [[97], [98]]))).bind fun res => res.toOption.map fun r =>
        (r.1, r.2.2.logp.famfsLogNextIndex)) = some (0, 2) := by decide +kernel
  have hnew : ∀ q ∈ [[97], [98]].inits, q ≠ [] → mountedHost.stat (render ([[110], [109]] ++ ([] ++ q))) = none := by
    decide +kernel
  generalize hok : famfsMakeParentDir Crc32.update _ _ _ _ _ _ _ _ _ _ = res at hrun
  rcases res with - | t | ⟨rc, h', lp'⟩
  · cases hrun
  · cases hrun
  obtain ⟨rfl, hnext⟩ : rc = 0 ∧ lp'.logp.famfsLogNextIndex = 2 := Prod.mk.inj (Option.some.inj hrun)
  have hmade := (make_parent_dir_logs_missing mountedSession_atMount Crc32.update ⟨0, 0, 0o022⟩ (fun _ => Sys.healthy) 0o755 0 0
    (by decide) (by decide)).1 [] [[97], [98]] rfl (by decide +kernel) (fun q hq => hnew q ((List.mem_inits _ _).2 hq)) 3 0 h' lp' hok
  exact ⟨h', lp', rfl, hnext, hmade.2⟩

end Famfs

import Famfs.Spec.Logplay

/-! A tree that only grows, and the objects below one of its directories. What is below
the directory is an association list of relative paths and nodes; paths below it
resolve as that list says, and a creation appends to it. -/

namespace Famfs

open Paths

structure Extends (h h' : Host) : Prop where
  mount : h'.mount = h.mount
  cwd : h'.cwd = h.cwd
  tree : ∀ q n, h.tree q = some n → h'.tree q = some n

theorem Extends.refl (h : Host) : Extends h h := ⟨rfl, rfl, fun _ _ hn => hn⟩

theorem Extends.trans {a b c : Host} (h1 : Extends a b) (h2 : Extends b c) : Extends a c :=
  ⟨h2.mount.trans h1.mount, h2.cwd.trans h1.cwd, fun q n hn => h2.tree q n (h1.tree q n hn)⟩

theorem extends_set (h : Host) {p : Path} (hnone : h.tree p = none) (n : Option Node) :
    Extends h (h.set p n) := by
  refine ⟨rfl, rfl, fun q m hm => ?_⟩
  have hne : q ≠ p := by
    intro heq
    rw [heq, hnone] at hm
    cases hm
  simp only [Host.set, Function.update_of_ne hne]
  exact hm

theorem Extends.look {h h' : Host} (he : Extends h h') {q : Path} {n : Node} (hn : h.look q = some n) :
    h'.look q = some n := by
  cases hm : h.mount with
  | v1 mpt =>
    simp only [Host.look, he.mount, hm] at hn ⊢
    exact he.tree q n hn
  | fuse d =>
    simp only [Host.look, he.mount, hm] at hn ⊢
    split_ifs at hn ⊢ with hpre
    · obtain ⟨m, hm, hp⟩ := Option.bind_eq_some_iff.1 hn
      exact Option.bind_eq_some_iff.2 ⟨m, he.tree _ m hm, hp⟩
    · exact he.tree q n hn

theorem Extends.lookDir {h h' : Host} (he : Extends h h') {q : Path}
    (hd : (h.look q).any Node.isDir = true) : (h'.look q).any Node.isDir = true := by
  obtain ⟨n, hn, hdir⟩ := (Option.any_eq_true _ _).1 hd
  exact (Option.any_eq_true _ _).2 ⟨n, he.look hn, hdir⟩

theorem Extends.lookSome {h h' : Host} (he : Extends h h') {q : Path} (hs : (h.look q).isSome = true) :
    (h'.look q).isSome = true := by
  obtain ⟨n, hn⟩ := Option.isSome_iff_exists.1 hs
  exact Option.isSome_iff_exists.2 ⟨n, he.look hn⟩

theorem Extends.resolve {h h' : Host} (he : Extends h h') {s : CStr} {p : Path}
    (hr : h.resolve s = .found p) : h'.resolve s = .found p := by
  simp only [Host.resolve, he.cwd] at hr ⊢
  split_ifs at hr ⊢ with h0
  all_goals exact walk_mono (fun _ => he.lookDir) (fun _ => he.lookSome) hr

theorem Extends.statDir {h h' : Host} (he : Extends h h') {s : CStr}
    (hd : (h.stat s).any Node.isDir = true) : (h'.stat s).any Node.isDir = true := by
  simp only [Host.stat] at hd ⊢
  cases hr : h.resolve s with
  | found p =>
    rw [he.resolve hr]
    rw [hr] at hd
    exact he.lookDir hd
  | missing p rest => rw [hr] at hd; cases hd
  | notDir => rw [hr] at hd; cases hd

structure Rooted (h : Host) (s : CStr) (root : Path) : Prop where
  resolves : h.resolve s = .found root
  plain : ∀ c ∈ root, Plain c
  reach : Reachable Node.isDir h.look root
  dir : (h.look root).any Node.isDir = true

theorem Rooted.extends {h h' : Host} {s : CStr} {root : Path} (hr : Rooted h s root) (he : Extends h h') :
    Rooted h' s root :=
  ⟨he.resolve hr.resolves, hr.plain, fun q hq hne => he.lookDir (hr.reach q hq hne), he.lookDir hr.dir⟩

theorem Rooted.walk_root {h : Host} {s : CStr} {root : Path} (hr : Rooted h s root) :
    walk Node.isDir h.look [] root = .found root := by
  rw [walk_reachable hr.plain hr.reach, if_pos]
  obtain ⟨n, hn, -⟩ := (Option.any_eq_true _ _).1 hr.dir
  exact Or.inr (Option.isSome_iff_exists.2 ⟨n, hn⟩)

/-- The walk from `root` down `names`, when only the last may be missing. -/
def walkBelow (h : Host) (root : Path) (names : List Name) : Walk :=
  if (h.look (root ++ names)).isSome then .found (root ++ names) else .missing (root ++ names) []

theorem join_getLast {names : List Name} (hne : names ≠ []) (hpl : ∀ c ∈ names, Plain c) (a : List UInt8) :
    (a ++ slash :: join names).getLast? ≠ some slash := by
  obtain ⟨init, c, rfl⟩ : ∃ init c, names = init ++ [c] := ⟨_, _, (List.dropLast_append_getLast hne).symm⟩
  have hc := hpl c (by simp)
  rw [slash_join hne, tail_concat, ← List.append_assoc]
  intro h
  rw [List.getLast?_append_of_ne_nil _ (List.cons_ne_nil _ _)] at h
  obtain ⟨x, xs, rfl⟩ := List.exists_cons_of_ne_nil hc.nonempty
  have hmem : slash ∈ x :: xs := by
    rw [List.getLast?_cons_cons] at h
    exact List.mem_of_getLast? h
  exact hc.noSlash hmem

theorem Rooted.walk_down {h : Host} {s : CStr} {root : Path} (hr : Rooted h s root) {names : List Name}
    (hne : names ≠ []) (hpl : ∀ c ∈ names, Plain c)
    (hdirs : ∀ q, q <+: names → q ≠ [] → q ≠ names → (h.look (root ++ q)).any Node.isDir = true) :
    walk Node.isDir h.look root names = walkBelow h root names := by
  rw [walk_plain hpl, walkBelow]
  · simp only [hne, false_or]
  · intro q hq hqn
    by_cases h0 : q = []
    · subst h0
      simpa using hr.dir
    · exact hdirs q hq h0 hqn

theorem Rooted.ne_nil {h : Host} {s : CStr} {root : Path} (hr : Rooted h s root) : s ≠ [] := by
  rintro rfl
  have hres := hr.resolves
  simp only [Host.resolve, if_true] at hres
  cases hres

theorem Rooted.arrives {h : Host} {s : CStr} {root : Path} (hr : Rooted h s root) :
    walk Node.isDir h.look (if s.head? = some slash then [] else h.cwd) (components s) = .found root := by
  have hres := hr.resolves
  rw [Host.resolve, if_neg hr.ne_nil] at hres
  split_ifs at hres ⊢ with hslash htrail
  all_goals first
    | exact walk_concat_dot hres
    | (rw [List.append_nil] at hres; exact hres)

theorem pathIn_head {s : CStr} (hs : s ≠ []) (rel : CStr) : (pathIn s rel).head? = s.head? := by
  obtain ⟨x, xs, rfl⟩ := List.exists_cons_of_ne_nil hs
  rfl

theorem Rooted.resolve_in {h : Host} {s : CStr} {root : Path} (hr : Rooted h s root) (rel : CStr) :
    h.resolve (pathIn s rel) =
      walk Node.isDir h.look root (components rel ++ if (pathIn s rel).getLast? = some slash then [dot] else []) := by
  have hnil : pathIn s rel ≠ [] := by simp [pathIn]
  have hcomp : components (pathIn s rel) = components s ++ components rel := components_append_slash s rel
  rw [Host.resolve, if_neg hnil, pathIn_head hr.ne_nil rel, hcomp, List.append_assoc, walk_append hr.arrives]

theorem Rooted.resolve_pathIn {h : Host} {s : CStr} {root : Path} (hr : Rooted h s root) {rel : CStr} (hne : rel ≠ []) :
    h.resolve (pathIn s rel) =
      walk Node.isDir h.look root (components rel ++ if rel.getLast? = some slash then [dot] else []) := by
  have hlast : (pathIn s rel).getLast? = rel.getLast? := by
    rw [pathIn, List.getLast?_append_of_ne_nil _ (List.cons_ne_nil _ _), List.getLast?_cons_of_ne_nil hne]
  rw [hr.resolve_in, hlast]

theorem Rooted.resolve_names {h : Host} {s : CStr} {root : Path} (hr : Rooted h s root) {names : List Name}
    (hne : names ≠ []) (hpl : ∀ c ∈ names, Plain c) :
    h.resolve (pathIn s (join names)) = walk Node.isDir h.look root names := by
  have hcomp := components_join hpl
  have hjoin : join names ≠ [] := by
    intro hnil
    rw [hnil] at hcomp
    exact hne hcomp.symm
  have hlast : (join names).getLast? ≠ some slash := by
    rw [← List.getLast?_cons_of_ne_nil (x := slash) hjoin]
    exact join_getLast hne hpl []
  rw [hr.resolve_pathIn hjoin, hcomp, if_neg hlast, List.append_nil]

theorem Rooted.resolve_join {h : Host} {s : CStr} {root : Path} (hr : Rooted h s root) {names : List Name}
    (hne : names ≠ []) (hpl : ∀ c ∈ names, Plain c)
    (hdirs : ∀ q, q <+: names → q ≠ [] → q ≠ names → (h.look (root ++ q)).any Node.isDir = true) :
    h.resolve (pathIn s (join names)) = walkBelow h root names := by
  rw [hr.resolve_names hne hpl]
  exact hr.walk_down hne hpl hdirs

theorem resolve_render {h : Host} {p : Path} (hpl : ∀ c ∈ p, Plain c) (hne : p ≠ []) :
    h.resolve (render p) = walk Node.isDir h.look [] p := by
  have hlast : (render p).getLast? ≠ some slash := join_getLast hne hpl []
  have hhead : (render p).head? = some slash := rfl
  have hnil : render p ≠ [] := List.cons_ne_nil _ _
  rw [Host.resolve, if_neg hnil, if_pos hhead, if_neg hlast, List.append_nil, components_render hpl]

theorem Rooted.resolve_render {h : Host} {s : CStr} {root : Path} (hr : Rooted h s root)
    {names : List Name} (hne : names ≠ []) (hpl : ∀ c ∈ names, Plain c)
    (hdirs : ∀ q, q <+: names → q ≠ [] → q ≠ names → (h.look (root ++ q)).any Node.isDir = true) :
    h.resolve (render (root ++ names)) = walkBelow h root names := by
  rw [Famfs.resolve_render (List.forall_mem_append.2 ⟨hr.plain, hpl⟩) (by simp [hne]), walk_append hr.walk_root]
  exact hr.walk_down hne hpl hdirs

/-- Local calls work below the directory; the FUSE mount is elsewhere. -/
def Mount.Apart (root : Path) : Mount → Prop
  | .v1 _ => True
  | .fuse d => ¬ d.mpt <+: root ∧ ¬ root <+: d.mpt

theorem look_below {h : Host} {root : Path} (ha : h.mount.Apart root) (rel : List Name) :
    h.look (root ++ rel) = h.tree (root ++ rel) := by
  cases hm : h.mount with
  | v1 mpt => simp only [Host.look, hm]
  | fuse d =>
    rw [hm] at ha
    have hnot : ¬ d.mpt <+: root ++ rel := by
      intro hpre
      rcases List.prefix_or_prefix_of_prefix hpre (List.prefix_append root rel) with h1 | h1
      · exact ha.1 h1
      · exact ha.2 h1
    simp only [Host.look, hm, if_neg hnot]

theorem isLocal_below {h : Host} {root : Path} (ha : h.mount.Apart root) (rel : List Name) :
    h.isLocal (root ++ rel) = true := by
  cases hm : h.mount with
  | v1 mpt => simp only [Host.isLocal, hm]
  | fuse d =>
    rw [hm] at ha
    simp only [Host.isLocal, hm, decide_eq_true_eq]
    intro hpre
    rcases List.prefix_or_prefix_of_prefix hpre (List.prefix_append root rel) with h1 | h1
    · exact ha.1 h1
    · exact ha.2 h1

abbrev Objects := List (Path × Node)

/-- A relative path that may be created: its parent is there. -/
structure Creatable (objs : Objects) (names : List Name) : Prop where
  nonempty : names ≠ []
  plain : ∀ c ∈ names, Plain c
  parent : names.dropLast = [] ∨ ∃ a, objs.lookup names.dropLast = some (.dir a)

/-- `objs` is what there is below the directory that `s` names. -/
structure Holds (h : Host) (s : CStr) (root : Path) (objs : Objects) : Prop where
  rooted : Rooted h s root
  apart : h.mount.Apart root
  below : ∀ rel, rel ≠ [] → h.tree (root ++ rel) = objs.lookup rel
  closed : ∀ rel n, objs.lookup rel = some n → ∀ q, q <+: rel → q ≠ [] → q ≠ rel →
    ∃ a, objs.lookup q = some (.dir a)

theorem Holds.look {h : Host} {s : CStr} {root : Path} {objs : Objects} (hh : Holds h s root objs)
    {rel : List Name} (hne : rel ≠ []) : h.look (root ++ rel) = objs.lookup rel := by
  rw [look_below hh.apart, hh.below rel hne]

theorem Creatable.ancestor {h : Host} {s : CStr} {root : Path} {objs : Objects} (hh : Holds h s root objs)
    {names : List Name} (hc : Creatable objs names) {q : List Name} (hq : q <+: names) (h0 : q ≠ [])
    (hqn : q ≠ names) : ∃ a, objs.lookup q = some (.dir a) := by
  rw [← List.dropLast_append_getLast hc.nonempty] at hq
  rcases List.prefix_concat_iff.1 hq with heq | hq
  · rw [List.dropLast_append_getLast hc.nonempty] at heq
    exact absurd heq hqn
  · rcases hc.parent with hp | ⟨a, hp⟩
    · rw [hp] at hq
      exact absurd (List.prefix_nil.1 hq) h0
    · by_cases heq : q = names.dropLast
      · exact ⟨a, heq ▸ hp⟩
      · exact hh.closed _ _ hp q hq h0 heq

section

variable {h : Host} {s : CStr} {root : Path} {objs : Objects} {names : List Name}

theorem Holds.dirs (hh : Holds h s root objs) (hc : Creatable objs names) (q : List Name) (hq : q <+: names)
    (h0 : q ≠ []) (hqn : q ≠ names) : (h.look (root ++ q)).any Node.isDir = true := by
  obtain ⟨a, ha⟩ := hc.ancestor hh hq h0 hqn
  rw [hh.look h0, ha]
  rfl

theorem Holds.resolve_join (hh : Holds h s root objs) (hc : Creatable objs names) :
    h.resolve (pathIn s (join names)) =
      if (objs.lookup names).isSome then .found (root ++ names) else .missing (root ++ names) [] := by
  rw [hh.rooted.resolve_join hc.nonempty hc.plain (hh.dirs hc), walkBelow, hh.look hc.nonempty]

theorem Holds.resolve_render (hh : Holds h s root objs) (hc : Creatable objs names) :
    h.resolve (render (root ++ names)) =
      if (objs.lookup names).isSome then .found (root ++ names) else .missing (root ++ names) [] := by
  rw [hh.rooted.resolve_render hc.nonempty hc.plain (hh.dirs hc), walkBelow, hh.look hc.nonempty]

theorem Holds.realpath (hh : Holds h s root objs) (hc : Creatable objs names) :
    (h.realpath (pathIn s (join names))).2 = some (render (root ++ names)) := by
  simp only [Host.realpath, hh.resolve_join hc]
  cases objs.lookup names with
  | none => rfl
  | some n => rfl

theorem Holds.stat_render (hh : Holds h s root objs) (hc : Creatable objs names) :
    h.stat (render (root ++ names)) = objs.lookup names := by
  simp only [Host.stat, hh.resolve_render hc]
  cases hl : objs.lookup names with
  | none => rfl
  | some n =>
    simp only [Option.isSome_some, if_true]
    rw [hh.look hc.nonempty, hl]

theorem Holds.place (hh : Holds h s root objs) (hc : Creatable objs names) (hnone : objs.lookup names = none)
    (n : Node) : Holds (h.set (root ++ names) (some n)) s root (objs ++ [(names, n)]) := by
  have hfree : h.tree (root ++ names) = none := by rw [hh.below names hc.nonempty, hnone]
  have hlook : ∀ rel, (objs ++ [(names, n)]).lookup rel =
      if rel = names then some n else objs.lookup rel := by
    intro rel
    rw [List.lookup_append]
    by_cases heq : rel = names
    · subst heq
      rw [hnone, List.lookup_cons_self]
      simp
    · have hbeq : (rel == names) = false := beq_false_of_ne heq
      rw [List.lookup_cons, hbeq]
      simp [heq]
  refine ⟨hh.rooted.extends (extends_set h hfree _), hh.apart, ?_, ?_⟩
  · intro rel hne
    rw [hlook]
    by_cases heq : rel = names
    · subst heq
      simp only [Host.set, Function.update_self, if_true]
    · have hne' : root ++ rel ≠ root ++ names := fun h => heq (List.append_cancel_left h)
      simp only [Host.set, Function.update_of_ne hne', if_neg heq]
      exact hh.below rel hne
  · intro rel m hm q hq h0 hqr
    rw [hlook] at hm ⊢
    have hdir : ∃ a, objs.lookup q = some (.dir a) := by
      split_ifs at hm with heq
      · subst heq
        exact hc.ancestor hh hq h0 hqr
      · exact hh.closed rel m hm q hq h0 hqr
    obtain ⟨a, ha⟩ := hdir
    have hqn : q ≠ names := by
      rintro rfl
      rw [hnone] at ha
      cases ha
    exact ⟨a, by rw [if_neg hqn, ha]⟩

end

end Famfs

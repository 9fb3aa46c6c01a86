import Famfs.Sanity.CreateCases
import Famfs.Sanity.Tree

/-! The path arguments of a creation, absolute or relative to the working directory.
When the absolute form is a normalised path below a directory, the argument, its
`dirname` and its `basename` resolve as that path does. -/

namespace Famfs

open Paths

theorem pathIn_join_concat (s : CStr) (init : List Name) (c : Name) :
    pathIn s (join (init ++ [c])) = (s ++ tail init) ++ slash :: c := by
  rw [pathIn, slash_join (by simp), tail_concat, List.append_assoc]

theorem pathIn_render {mpt : Path} (h : mpt ≠ []) (init : List Name) (c : Name) :
    pathIn (render (mpt ++ init)) c = pathIn (render mpt) (join (init ++ [c])) := by
  rw [pathIn_join_concat, pathIn, render_eq_tail (by simp [h]), render_eq_tail h, tail_append]

theorem relative_cases {base y s : List UInt8} {c : Name} (hc : Plain c)
    (h : base ++ slash :: s = y ++ slash :: c) :
    (s = c ∧ base = y) ∨ ∃ a, s = a ++ slash :: c ∧ y = base ++ slash :: a := by
  rcases List.append_eq_append_iff.1 h with ⟨as, hy, hs⟩ | ⟨bs, hb, hs⟩
  · cases as with
    | nil =>
      rw [List.nil_append, List.cons.injEq] at hs
      exact Or.inl ⟨hs.2, by rw [hy, List.append_nil]⟩
    | cons x a =>
      rw [List.cons_append, List.cons.injEq] at hs
      obtain ⟨rfl, hs⟩ := hs
      exact Or.inr ⟨a, hs, hy⟩
  · cases bs with
    | nil =>
      rw [List.nil_append, List.cons.injEq] at hs
      exact Or.inl ⟨hs.2.symm, by rw [hb, List.append_nil]⟩
    | cons x b =>
      rw [List.cons_append, List.cons.injEq] at hs
      exact absurd (hs.2 ▸ List.mem_append_right b List.mem_cons_self) hc.noSlash

def Host.cd (h : Host) (cwd : Path) : Host := { h with cwd := cwd }

theorem cd_look_fun (h : Host) (cwd : Path) : (h.cd cwd).look = h.look := rfl

section

variable {h : Host} {cwd : Path}

theorem resolve_target (hcwd : Rooted h (render cwd) cwd) {s : CStr} (hs : s ≠ []) :
    (h.cd cwd).resolve s = (h.cd cwd).resolve (targetFullpath (h.cd cwd) s) := by
  by_cases habs : s.head? = some slash
  · rw [targetFullpath, if_pos habs]
  · rw [targetFullpath, if_neg habs]
    have hne : pathIn (render cwd) s ≠ [] := by simp [pathIn]
    have hhead : (pathIn (render cwd) s).head? = some slash := rfl
    have hcomp : components (pathIn (render cwd) s) = cwd ++ components s := by
      rw [pathIn, components_append_slash, components_render hcwd.plain]
    have hlast : (pathIn (render cwd) s).getLast? = s.getLast? := by
      obtain ⟨x, xs, rfl⟩ := List.exists_cons_of_ne_nil hs
      rw [pathIn, List.getLast?_append_of_ne_nil _ (List.cons_ne_nil _ _), List.getLast?_cons_cons]
    change _ = (h.cd cwd).resolve (pathIn (render cwd) s)
    rw [Host.resolve, Host.resolve, if_neg hs, if_neg hne, if_neg habs, if_pos hhead, hcomp, hlast,
      List.append_assoc, cd_look_fun, walk_append hcwd.walk_root]
    rfl

theorem resolve_dirname (hcwd : Rooted h (render cwd) cwd) {s : CStr} {y : List UInt8} {c : Name} (hc : Plain c)
    (hy : y.head? = some slash) (htarget : targetFullpath (h.cd cwd) s = y ++ slash :: c) {p : Path}
    (hp : (h.cd cwd).resolve (dirname s) = .found p) :
    walk Node.isDir h.look [] (components y) = .found p ∧ basename s = c := by
  have hfound : ∀ {t : CStr} {start : Path}, walk Node.isDir h.look start
      (components t ++ if t.getLast? = some slash then [dot] else []) = .found p →
      walk Node.isDir h.look start (components t) = .found p := by
    intro t start ht
    split_ifs at ht with hlast
    · exact walk_concat_dot ht
    · rwa [List.append_nil] at ht
  by_cases habs : s.head? = some slash
  · rw [targetFullpath, if_pos habs] at htarget
    subst htarget
    have hhead := dirname_absolute hc hy
    have hne : dirname (y ++ slash :: c) ≠ [] := by
      intro h0
      rw [h0] at hhead
      cases hhead
    rw [Host.resolve, if_neg hne, if_pos hhead] at hp
    have := hfound hp
    rw [components_dirname hc] at this
    exact ⟨this, basename_last hc y⟩
  · rw [targetFullpath, if_neg habs] at htarget
    rcases relative_cases hc htarget with ⟨rfl, hbase⟩ | ⟨a, rfl, rfl⟩
    · change render cwd = y at hbase
      subst hbase
      rw [dirname_name hc] at hp
      have hdot : (h.cd cwd).resolve dot = walk Node.isDir h.look cwd [dot] := rfl
      rw [hdot] at hp
      have hw : walk Node.isDir h.look cwd [] = .found p := walk_concat_dot hp
      cases hw
      refine ⟨?_, basename_name hc⟩
      rw [components_render hcwd.plain]
      exact hcwd.walk_root
    · have ha : a ≠ [] := by
        rintro rfl
        exact habs rfl
      have hahead : a.head? ≠ some slash := by
        obtain ⟨x, xs, rfl⟩ := List.exists_cons_of_ne_nil ha
        exact habs
      obtain ⟨hrel, hne⟩ := dirname_relative hc ha hahead
      rw [Host.resolve, if_neg hne, if_neg hrel] at hp
      have := hfound hp
      rw [components_dirname hc] at this
      refine ⟨?_, basename_last hc a⟩
      change walk Node.isDir h.look [] (components (render cwd ++ slash :: a)) = .found p
      rw [components_append_slash, components_render hcwd.plain, walk_append hcwd.walk_root]
      exact this

end

section

variable {h : Host} {p : Path} {n : Node}

theorem resolve_render_found {q : Path} (hpl : ∀ d ∈ p, Plain d) (hres : h.resolve (render p) = .found q) : q = p := by
  by_cases hne : p = []
  · subst hne
    have hw : walk Node.isDir h.look [] [dot] = .found q := hres
    have hnil : walk Node.isDir h.look [] [] = .found q := walk_concat_dot hw
    cases hnil
    rfl
  · rw [resolve_render hpl hne] at hres
    exact walk_found_plain hpl hres

theorem stat_render (hpl : ∀ d ∈ p, Plain d) (hne : p ≠ []) (hreach : Reachable Node.isDir h.look p)
    (hn : h.look p = some n) : h.stat (render p) = some n := by
  have hres : h.resolve (render p) = .found p := by
    rw [resolve_render hpl hne, walk_reachable hpl hreach, if_pos (Or.inr (by rw [hn]; rfl))]
  rw [stat_found hres, hn]

theorem stat_render_some (hpl : ∀ d ∈ p, Plain d) (hs : h.stat (render p) = some n) :
    Reachable Node.isDir h.look p ∧ h.look p = some n := by
  obtain ⟨q, hres, hn⟩ := stat_eq_some hs
  obtain rfl := resolve_render_found hpl hres
  refine ⟨?_, hn⟩
  by_cases hne : q = []
  · rw [hne]
    exact placed_nil.reach
  · rw [resolve_render hpl hne] at hres
    exact (walk_found_placed placed_nil (fun c hc => ⟨(hpl c hc).nonempty, (hpl c hc).noSlash⟩) hres).reach

theorem stat_below_file {s : Path} (hpl : ∀ d ∈ p ++ s, Plain d) (hne : s ≠ []) (hn : h.stat (render p) = some n)
    (hfile : n.isDir = false) : h.stat (render (p ++ s)) = none := by
  by_contra hsome
  obtain ⟨m, hm⟩ := Option.ne_none_iff_exists'.1 hsome
  obtain ⟨-, hlook⟩ := stat_render_some (List.forall_mem_append.1 hpl).1 hn
  obtain ⟨hreach, -⟩ := stat_render_some hpl hm
  have hdir := hreach p (List.prefix_append p s) (by simpa using hne.symm)
  rw [hlook] at hdir
  exact absurd hdir (by simp [hfile])

end

end Famfs

import Famfs.Sanity.CreateOutcomes

/-! What replaying one entry does, whatever the path of the entry and whichever calls
fail. A file whose directory is missing goes to the place of the first component that is
missing, since that is what `realpath` leaves in its buffer. -/

namespace Famfs

open Paths Machine

/-- The root directory and the working directory of a process exist. -/
structure HostOk (h : Host) : Prop where
  root : (h.look []).any Node.isDir = true
  cwd : Placed Node.isDir h.look h.cwd
  cwdDir : (h.look h.cwd).any Node.isDir = true

section

variable {h : Host} {s : CStr} {p : Path} {rest : List Name}

theorem resolve_components (s : CStr) :
    ∀ c ∈ components s ++ (if s.getLast? = some slash then [dot] else []), c ≠ [] ∧ slash ∉ c := by
  intro c hc
  rcases List.mem_append.1 hc with hc | hc
  · exact components_mem hc
  · split_ifs at hc with hlast
    · rw [List.mem_singleton.1 hc]
      decide
    · cases hc

theorem HostOk.start (hh : HostOk h) (s : CStr) :
    Placed Node.isDir h.look (if s.head? = some slash then [] else h.cwd) ∧
      (h.look (if s.head? = some slash then [] else h.cwd)).isSome = true := by
  have hsome : ∀ q, (h.look q).any Node.isDir = true → (h.look q).isSome = true := by
    intro q hq
    obtain ⟨n, hn, -⟩ := (Option.any_eq_true _ _).1 hq
    rw [hn]
    rfl
  split_ifs with hslash
  · refine ⟨⟨by simp, ?_⟩, hsome _ hh.root⟩
    intro q hq hne
    exact absurd (List.prefix_nil.1 hq) hne
  · exact ⟨hh.cwd, hsome _ hh.cwdDir⟩

theorem HostOk.found (hh : HostOk h) (hres : h.resolve s = .found p) :
    Placed Node.isDir h.look p ∧ (h.look p).isSome = true := by
  obtain ⟨hstart, hsome⟩ := hh.start s
  by_cases h0 : s = []
  · rw [Host.resolve, if_pos h0] at hres
    cases hres
  · rw [Host.resolve, if_neg h0] at hres
    exact ⟨walk_found_placed hstart (resolve_components s) hres,
      walk_found_exists hstart (resolve_components s) hsome hres⟩

theorem HostOk.missing (hh : HostOk h) (hres : h.resolve s = .missing p rest) :
    Placed Node.isDir h.look p ∧ p ≠ [] ∧ h.look p = none := by
  obtain ⟨hstart, -⟩ := hh.start s
  by_cases h0 : s = []
  · rw [Host.resolve, if_pos h0] at hres
    cases hres
  · rw [Host.resolve, if_neg h0] at hres
    obtain ⟨hplaced, hne⟩ := walk_missing_placed hstart (resolve_components s) hres
    exact ⟨hplaced, hne, walk_missing hres⟩

theorem HostOk.resolve_render (hh : HostOk h) (hp : Placed Node.isDir h.look p) :
    h.resolve (render p) = if p = [] ∨ (h.look p).isSome then .found p else .missing p [] := by
  have hnil : render p ≠ [] := List.cons_ne_nil _ _
  have hhead : (render p).head? = some slash := rfl
  rw [Host.resolve, if_neg hnil, if_pos hhead, components_render hp.plain]
  by_cases h0 : p = []
  · subst h0
    have hlast : (render []).getLast? = some slash := rfl
    rw [if_pos hlast, if_pos (.inl rfl), List.nil_append, walk, if_pos hh.root, if_pos rfl, walk]
  · have hlast : (render p).getLast? ≠ some slash := join_getLast h0 hp.plain []
    rw [if_neg hlast, List.append_nil, walk_reachable hp.plain hp.reach]

end

/-- The same kind of object, and the same content of a file. -/
inductive SameContent : Node → Node → Prop
  | dir (a b : Attr) : SameContent (.dir a) (.dir b)
  | reg (a b : Attr) (d : FileData) : SameContent (.reg a d) (.reg b d)
  | special (a b : Attr) : SameContent (.special a) (.special b)

theorem SameContent.refl (n : Node) : SameContent n n := by
  cases n with
  | dir a => exact .dir a a
  | reg a d => exact .reg a a d
  | special a => exact .special a a

theorem SameContent.trans {l m n : Node} (h1 : SameContent l m) (h2 : SameContent m n) : SameContent l n := by
  cases h1 with
  | dir a b => cases h2 with | dir b c => exact .dir a c
  | reg a b d => cases h2 with | reg b c d => exact .reg a c d
  | special a b => cases h2 with | special b c => exact .special a c

/-- Nothing was removed and no file changed its content. -/
structure Keeps (h h' : Host) : Prop where
  mount : h'.mount = h.mount
  cwd : h'.cwd = h.cwd
  tree : ∀ q n, h.tree q = some n → ∃ n', h'.tree q = some n' ∧ SameContent n n'

theorem Keeps.refl (h : Host) : Keeps h h := ⟨rfl, rfl, fun _ n hn => ⟨n, hn, .refl n⟩⟩

theorem Keeps.trans {a b c : Host} (h1 : Keeps a b) (h2 : Keeps b c) : Keeps a c := by
  refine ⟨h2.mount.trans h1.mount, h2.cwd.trans h1.cwd, ?_⟩
  intro q n hn
  obtain ⟨m, hm, hnm⟩ := h1.tree q n hn
  obtain ⟨l, hl, hml⟩ := h2.tree q m hm
  exact ⟨l, hl, hnm.trans hml⟩

theorem Extends.keeps {h h' : Host} (he : Extends h h') : Keeps h h' :=
  ⟨he.mount, he.cwd, fun q n hn => ⟨n, he.tree q n hn, .refl n⟩⟩

section

variable {h h' : Host} {s : CStr} {p : Path}

theorem SameContent.present {m n m' : Node} (hs : SameContent m n) (hp : m.present = some m') :
    ∃ n', n.present = some n' ∧ SameContent m' n' := by
  cases hs with
  | dir a b =>
    cases hp
    exact ⟨_, rfl, .dir a b⟩
  | special a b =>
    cases hp
    exact ⟨_, rfl, .special a b⟩
  | reg a b d =>
    cases d with
    | shadow yaml =>
      cases yaml with
      | some fm =>
        cases hp
        exact ⟨_, rfl, .refl _⟩
      | none => cases hp
    | plain n => cases hp
    | mapped n map => cases hp

theorem Keeps.look (hk : Keeps h h') {n : Node} (hn : h.look p = some n) :
    ∃ n', h'.look p = some n' ∧ SameContent n n' := by
  cases hm : h.mount with
  | v1 mpt =>
    simp only [Host.look, hk.mount, hm] at hn ⊢
    exact hk.tree p n hn
  | fuse d =>
    simp only [Host.look, hk.mount, hm] at hn ⊢
    split_ifs at hn ⊢ with hpre
    · obtain ⟨m, hm, hpres⟩ := Option.bind_eq_some_iff.1 hn
      obtain ⟨m', hm', hsame⟩ := hk.tree _ m hm
      obtain ⟨n', hn', hsame'⟩ := hsame.present hpres
      exact ⟨n', Option.bind_eq_some_iff.2 ⟨m', hm', hn'⟩, hsame'⟩
    · exact hk.tree p n hn

theorem Keeps.lookDir (hk : Keeps h h') {q : Path} (hd : (h.look q).any Node.isDir = true) :
    (h'.look q).any Node.isDir = true := by
  obtain ⟨n, hn, hdir⟩ := (Option.any_eq_true _ _).1 hd
  obtain ⟨n', hn', hsame⟩ := hk.look hn
  rw [hn']
  cases hsame with
  | dir a b => rfl
  | reg a b d => cases hdir
  | special a b => cases hdir

theorem Keeps.stat (hk : Keeps h h') {n : Node} (hn : h.stat s = some n) :
    ∃ n', h'.stat s = some n' ∧ SameContent n n' := by
  rw [Host.stat] at hn
  cases hres : h.resolve s with
  | missing p rest => rw [hres] at hn; cases hn
  | notDir => rw [hres] at hn; cases hn
  | found p =>
    rw [hres] at hn
    obtain ⟨n', hn', hsame⟩ := hk.look hn
    have hsome : (h'.look p).isSome = true := by rw [hn']; rfl
    have hres' : h'.resolve s = .found p := by
      simp only [Host.resolve, hk.cwd] at hres ⊢
      split_ifs at hres ⊢ with h0
      all_goals exact walk_kept (fun _ => hk.lookDir) hsome hres
    refine ⟨n', ?_, hsame⟩
    rw [Host.stat, hres']
    exact hn'

end

def created (cfg : PlayConfig) : FileData := if cfg.shadow then .shadow none else .plain 0

def seen (cfg : PlayConfig) (sys : Sys) : Bool := if cfg.shadow then sys.stat else sys.statPlay

def unseen (cfg : PlayConfig) (sys : Sys) : Bool := !sys.stat && (cfg.shadow || !sys.statPlay)

def PlayStats.errors (ls : PlayStats) : ℕ := ls.fErrs + ls.dErrs

section

variable {cfg : PlayConfig} {sys : Sys} {st st' : PlayState} {h h' : Host} {fm : FamfsLogFileMeta} {p : Path} {s : CStr}

def writeBack (h : Host) (p : Path) : Option FileData → Host
  | some data => h.modify p (Node.write data)
  | none => h

theorem modify_modify (h : Host) (p : Path) (f g : Node → Node) : (h.modify p f).modify p g = h.modify p (g ∘ f) := by
  simp [Host.modify, Host.set]

theorem modify_id (h : Host) (p : Path) : h.modify p id = h := by
  simp [Host.modify, Host.set]

def Node.overwrite (n : Node) : Option FileData → Node
  | some data => n.write data
  | none => n

/-- Changes that leave a file a file with this content. -/
def Writes (f : Node → Node) (data : Option FileData) : Prop := ∀ n : Node, SameContent (n.overwrite data) (f n)

theorem SameContent.write {m n : Node} (hs : SameContent m n) (data : FileData) : SameContent (m.write data) (n.write data) := by
  cases hs with
  | dir a b => exact .dir a b
  | reg a b d => exact .reg a b data
  | special a b => exact .special a b

theorem writeBack_modify {f : Node → Node} (hf : Writes f none) (h : Host) (p : Path) (data : Option FileData) :
    ∃ g, writeBack (h.modify p f) p data = h.modify p g ∧ Writes g data := by
  cases data with
  | none => exact ⟨f, rfl, hf⟩
  | some w => exact ⟨Node.write w ∘ f, modify_modify h p f _, fun n => (hf n).write w⟩

theorem writes_id : Writes id none := .refl

theorem writes_chown (uid gid : ℕ) : Writes (Node.chown uid gid) none := by
  intro n
  cases n with
  | dir a => exact .dir a _
  | reg a d => exact .reg a _ d
  | special a => exact .special a _

theorem Keeps.set {rest : List Name} (hres : h.resolve s = .missing p rest) (hlocal : h.isLocal p = true) (n : Option Node) :
    Keeps h (h.set p n) := by
  have hfree : h.tree p = none := by rw [← look_local hlocal, resolve_missing hres]
  exact (extends_set h hfree n).keeps

end

end Famfs

import Famfs.Sanity.PlayOutcomes

/-! Where replaying an entry makes an object. Apart from that place nothing comes into
being, and every directory stays one, also when calls fail. -/

namespace Famfs

open Paths Machine

/-- The place at which `open` with `O_CREAT`, or `mkdir`, makes an object. -/
def Host.creates (h : Host) (path : CStr) : Option Path :=
  match h.resolve path with
  | .missing p [] => if h.isLocal p then some p else none
  | _ => none

theorem creates_eq_some {h : Host} {s : CStr} {p : Path} (hc : h.creates s = some p) :
    h.resolve s = .missing p [] ∧ h.isLocal p = true := by
  rw [Host.creates] at hc
  split at hc
  · next q hres =>
    split_ifs at hc with hlocal
    cases hc
    exact ⟨hres, hlocal⟩
  · cases hc

theorem Rooted.resolve_strip {h : Host} {s : CStr} {root : Path} (hr : Rooted h s root) {rel : CStr}
    (hnil : stripSlashes (pathIn s rel) ≠ []) :
    h.resolve (stripSlashes (pathIn s rel)) = walk Node.isDir h.look root (components rel) := by
  rw [Host.resolve, if_neg hnil, if_neg (stripSlashes_getLast hnil), List.append_nil, components_stripSlashes,
    stripSlashes_head hnil, pathIn_head hr.ne_nil, pathIn, components_append_slash, walk_append hr.arrives]

/-- An object may have come into being at the place `o`, and at no other. -/
structure Adds (h h' : Host) (o : Option Path) : Prop where
  mount : h'.mount = h.mount
  cwd : h'.cwd = h.cwd
  tree : ∀ q, h.tree q = none → h'.tree q ≠ none → o = some q
  dirs : ∀ q, (h.look q).any Node.isDir = true → (h'.look q).any Node.isDir = true

theorem Adds.refl (h : Host) (o : Option Path) : Adds h h o :=
  ⟨rfl, rfl, fun _ hnone hsome => absurd hnone hsome, fun _ hd => hd⟩

section

variable {a b c h h' : Host} {o : Option Path} {p : Path} {s : CStr} {cfg : PlayConfig} {sys : Sys}
  {st st' : PlayState} {fm : FamfsLogFileMeta}

theorem Adds.trans (h1 : Adds a b o) (h2 : Adds b c none) : Adds a c o := by
  refine ⟨h2.mount.trans h1.mount, h2.cwd.trans h1.cwd, fun q hnone hsome => ?_, fun q hd => h2.dirs q (h1.dirs q hd)⟩
  by_cases hb : b.tree q = none
  · cases h2.tree q hb hsome
  · exact h1.tree q hnone hb

theorem adds_set (hlook : h.look p = none) (hlocal : h.isLocal p = true) (n : Node) : Adds h (h.set p (some n)) (some p) := by
  have hfree : h.tree p = none := by rw [← look_local hlocal, hlook]
  refine ⟨rfl, rfl, fun q hnone hsome => ?_, fun q => (extends_set h hfree (some n)).lookDir⟩
  by_contra hne
  have hq : q ≠ p := fun heq => hne (congrArg some heq.symm)
  exact hsome (by simpa [Host.set, hq] using hnone)

theorem adds_change {n : Option Node} (hnone : h.tree p = none → n = none)
    (hdir : (h.tree p).any Node.isDir = true → n.any Node.isDir = true) : Adds h (h.set p n) none := by
  have htree : ∀ q, (h.tree q).any Node.isDir = true → ((h.set p n).tree q).any Node.isDir = true := by
    intro q hq
    by_cases hqp : q = p
    · subst hqp
      simpa [Host.set] using hdir hq
    · simpa [Host.set, hqp] using hq
  have hpresent : ∀ o : Option Node, (o.bind Node.present).any Node.isDir = o.any Node.isDir := by
    intro o
    cases o with
    | none => rfl
    | some m =>
      cases m with
      | dir attr => rfl
      | special attr => rfl
      | reg attr data =>
        cases data with
        | plain n => rfl
        | mapped n map => rfl
        | shadow yaml => cases yaml <;> rfl
  refine ⟨rfl, rfl, fun q hq hsome => ?_, fun q hq => ?_⟩
  · by_cases hqp : q = p
    · subst hqp
      exact absurd (by simpa [Host.set] using hnone hq) hsome
    · exact absurd (by simpa [Host.set, hqp] using hq) hsome
  · cases hm : h.mount with
    | v1 mpt =>
      simp only [Host.look, set_mount, hm] at hq ⊢
      exact htree q hq
    | fuse d =>
      simp only [Host.look, set_mount, hm] at hq ⊢
      split_ifs at hq ⊢ with hpre
      · rw [hpresent] at hq ⊢
        exact htree _ hq
      · exact htree q hq

theorem adds_modify {f : Node → Node} {data : Option FileData} (hf : Writes f data) : Adds h (h.modify p f) none := by
  refine adds_change (fun hnone => by rw [hnone]; rfl) fun hd => ?_
  obtain ⟨n, hn, hdir⟩ := (Option.any_eq_true _ _).1 hd
  rw [hn, Option.map_some, Option.any_some]
  have hsame := hf n
  cases n with
  | reg attr d => cases hdir
  | special attr => cases hdir
  | dir attr =>
    have hover : (Node.dir attr).overwrite data = .dir attr := by cases data <;> rfl
    rw [hover] at hsame
    generalize f (.dir attr) = m at hsame
    cases hsame with
    | dir a b => rfl

theorem adds_writeBack (data : Option FileData) : Adds h (writeBack h p data) none := by
  cases data with
  | none => exact .refl h none
  | some w =>
    obtain ⟨g, hg, hwrites⟩ := writeBack_modify writes_id h p (some w)
    rw [modify_id] at hg
    rw [hg]
    exact adds_modify hwrites

theorem adds_remove (hdir : (h.look p).any Node.isDir = false) : Adds h (h.set p none) none := by
  cases hlocal : h.isLocal p with
  | true =>
    rw [look_local hlocal] at hdir
    exact adds_change (fun _ => rfl) (by simp [hdir])
  | false =>
    refine ⟨rfl, rfl, fun q hq hsome => ?_, fun q hq => by rwa [look_set_hidden hlocal]⟩
    by_cases hqp : q = p
    · subst hqp
      exact absurd (by simp [Host.set]) hsome
    · exact absurd (by simpa [Host.set, hqp] using hq) hsome

theorem adds_openCreat {cred : Cred} {mode : ℕ} {data : FileData} (hopen : h.openCreat cred s mode data = some (p, h')) :
    Adds h h' (h.creates s) ∧ (h'.look p).any Node.isDir = false := by
  cases hres : h.resolve s with
  | notDir =>
    simp only [Host.openCreat, hres] at hopen
    cases hopen
  | found q =>
    simp only [Host.openCreat, hres] at hopen
    split_ifs at hopen with hreg
    cases hopen
    refine ⟨.refl _ _, ?_⟩
    obtain ⟨n, hn, hr⟩ := (Option.any_eq_true _ _).1 hreg
    rw [hn]
    cases n with
    | reg attr d => rfl
    | dir attr => cases hr
    | special attr => cases hr
  | missing q rest =>
    cases rest with
    | cons c cs =>
      simp only [Host.openCreat, hres] at hopen
      cases hopen
    | nil =>
      simp only [Host.openCreat, hres] at hopen
      split_ifs at hopen with hlocal
      cases hopen
      simp only [Host.creates, hres, hlocal, if_true]
      refine ⟨adds_set (resolve_missing hres) hlocal _, ?_⟩
      rw [look_set_self hlocal]
      rfl

theorem adds_stub (cred : Cred) (sys : Sys) (h : Host) (s : CStr) (mode uid gid : ℕ) (disableWrite : Bool) :
    Adds h (famfsFileCreateStub cred sys h s mode uid gid disableWrite).2.2 (if sys.openCreat then h.creates s else none) := by
  simp only [famfsFileCreateStub]
  generalize (if disableWrite then mode.ldiff S_IWALL else mode) = mode'
  by_cases hstat : sys.stat = true ∧ (h.stat s).isSome = true
  · rw [if_pos hstat]
    exact .refl _ _
  rw [if_neg hstat]
  cases hopen : sys.openCreat with
  | false => exact .refl _ _
  | true =>
    rw [if_pos rfl, if_pos rfl]
    cases hcreat : h.openCreat cred s mode' (.plain 0) with
    | none => exact .refl _ _
    | some res =>
      obtain ⟨p, h'⟩ := res
      obtain ⟨hadds, hdir⟩ := adds_openCreat hcreat
      by_cases hfamfs : h'.isFamfsV1 p = true ∧ sys.ioctlNop = true
      · simp only [not_not.2 hfamfs, if_false]
        split_ifs
        · exact hadds.trans (adds_modify (writes_chown uid gid))
        · exact hadds
      · simp only [hfamfs, not_false_eq_true, if_true]
        exact hadds.trans (adds_remove hdir)

theorem adds_shadow (cred : Cred) (sys : Sys) (h : Host) (s : CStr) (fm : FamfsLogFileMeta) :
    Adds h (famfsShadowFileCreate cred sys h s fm false).2.2 (if sys.openCreat then h.creates s else none) := by
  simp only [famfsShadowFileCreate, Bool.false_eq_true, if_false]
  split
  · exact .refl _ _
  · exact .refl _ _
  · exact .refl _ _
  · cases hopen : sys.openCreat with
    | false => exact .refl _ _
    | true =>
      rw [if_pos rfl, if_pos rfl]
      cases hcreat : h.openCreat cred s 0o644 (.shadow none) with
      | none => exact .refl _ _
      | some res =>
        obtain ⟨p, h'⟩ := res
        have hadds := (adds_openCreat hcreat).1
        cases hfdopen : sys.fdopen with
        | false => exact hadds
        | true =>
          cases hemit : sys.emitYaml with
          | false => exact hadds.trans (adds_writeBack (some (.shadow none)))
          | true => exact hadds.trans (adds_writeBack (some (.shadow (some fm))))

theorem adds_dirCreate (cred : Cred) (sys : Sys) (h : Host) (dir relpath : CStr) (mode uid gid : ℕ) :
    Adds h (famfsDirCreate cred sys h dir relpath mode uid gid).2
      (if sys.mkdir then h.creates (stripSlashes (pathIn dir relpath)) else none) := by
  cases hmk : sys.mkdir with
  | false =>
    simp only [famfsDirCreate, hmk, Bool.false_eq_true, if_false]
    exact .refl _ _
  | true =>
    simp only [famfsDirCreate, hmk, if_true, Host.mkdir]
    cases hres : h.resolve (stripSlashes (pathIn dir relpath)) with
    | found p => exact .refl _ _
    | notDir => exact .refl _ _
    | missing p rest =>
      cases rest with
      | cons c cs => exact .refl _ _
      | nil =>
        cases hlocal : h.isLocal p with
        | false =>
          simp only [hlocal, Bool.false_eq_true, if_false]
          exact .refl _ _
        | true =>
          have hadds := adds_set (resolve_missing hres) hlocal (.dir (cred.attr mode))
          simp only [Host.creates, hres, hlocal, if_true]
          split_ifs
          · exact hadds.trans (adds_modify (writes_chown uid gid))
          · exact hadds
          · exact hadds

theorem Adds.rooted {root : Path} (ha : Adds h h' o) (hr : Rooted h s root) : Rooted h' s root := by
  have hdir := ha.dirs _ hr.dir
  have hsome : (h'.look root).isSome = true := by
    obtain ⟨n, hn, -⟩ := (Option.any_eq_true _ _).1 hdir
    rw [hn]
    rfl
  refine ⟨?_, hr.plain, fun q hq hne => ha.dirs q (hr.reach q hq hne), hdir⟩
  have hres := hr.resolves
  rw [Host.resolve, if_neg hr.ne_nil] at hres
  rw [Host.resolve, if_neg hr.ne_nil, ha.cwd]
  exact walk_kept ha.dirs hsome hres

end

end Famfs

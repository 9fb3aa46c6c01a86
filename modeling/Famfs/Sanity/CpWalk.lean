import Famfs.Sanity.CopyReads

/-! A copy as it is meant: the items of the source trees are taken in their order, each with
what its calls answer on the node and the session that the items before it leave, up to the
first abort code. -/

namespace Famfs

open Paths

variable {tr : List CpTried}

structure CpNode where
  host : Host
  lp : FamfsLockedLog

def CpState.node (st : CpState) : CpNode := ⟨st.host, st.lp⟩

/-- An item that is still to be copied. `dest` is the directory it goes into, or the one that
it becomes; `depth` counts the calls of `famfs_cp_dir` that it is in. -/
structure CpTodo where
  depth : ℕ
  path : CStr
  dest : CStr
  mode : ℕ
  src : Src

def entryTodo (path dest : CStr) (mode depth : ℕ) : Src → CpTodo
  | .dir name io entries =>
    ⟨depth + 1, pathIn path name, pathIn dest (basename (pathIn path name)), io.mode, .dir name io entries⟩
  | .file name io => ⟨depth, pathIn path name, dest, mode, .file name io⟩
  | .special name => ⟨depth, pathIn path name, dest, mode, .special name⟩
  | .gone name => ⟨depth, pathIn path name, dest, mode, .gone name⟩

def argTodo (cfg : CpConfig) (dest : CStr) : Src → CpTodo
  | .dir name io entries => ⟨if cfg.recursive then 1 else 0, name, dest, io.mode, .dir name io entries⟩
  | .file name io => ⟨0, name, dest, cfg.mode, .file name io⟩
  | .special name => ⟨0, name, dest, cfg.mode, .special name⟩
  | .gone name => ⟨0, name, dest, cfg.mode, .gone name⟩

/-- What is at the destination, as `famfs_cp` sees it. -/
def CpNode.seen (n : CpNode) (dest : CStr) (io : FileIo) : Option Node :=
  if io.statDest then n.host.stat dest else none

/-- Where the file is created: in the directory that is there, or as the destination itself. -/
def CpNode.place (n : CpNode) (path dest : CStr) (io : FileIo) : Option CStr :=
  match n.seen dest io with
  | some (.dir _) =>
    (if io.realDest then (n.host.realpath dest).1 else none).map fun real => pathIn real (basename path)
  | _ => some dest

def FileIo.Opens (io : FileIo) : Prop := io.statSrc = true ∧ io.size ≠ 0 ∧ 0 ≤ io.srcfd

instance (io : FileIo) : Decidable io.Opens := inferInstanceAs (Decidable (_ ∧ _ ∧ _))

instance (io : FileIo) (threaded : Bool) : Decidable (io.Readable threaded) :=
  inferInstanceAs (Decidable (∀ offset < io.size, chunksize ∣ offset → 0 ≤ io.fd threaded ∧ io.readOk offset = true))

/-- The code of a file, from what `__famfs_mkfile` answers. It is not called for `none`, and a
read that fails is only reported without a pool. -/
def FileIo.code (io : FileIo) (threaded : Bool) : Option ℤ → ℤ
  | none => 1
  | some fd =>
    if fd ≤ 0 then fd
    else if threaded = false ∧ 0 ≤ io.fd false ∧ ¬ io.Readable false then -1
    else 0

section

variable (crc32 : Crc32) (cfg : CpConfig)

def CpNode.mkfile (n : CpNode) (path dest : CStr) (mode : ℕ) (io : FileIo) : Except Trap (Option ℤ × CpNode) :=
  match n.place path dest io with
  | none => .ok (none, n)
  | some destfile =>
    if io.Opens then do
      let (fd, h, lp) ← famfsMkfile crc32 cfg.kabi cfg.cred io.sys io.alloc n.host n.lp
        ⟨destfile, if mode = 0 then io.mode else mode, cfg.uid, cfg.gid, io.size, true⟩
      .ok (some fd, ⟨h, lp⟩)
    else .ok (none, n)

/-- The directory is there already, or `__famfs_mkdir` makes it. -/
def CpNode.mkdir (n : CpNode) (dest : CStr) (io : DirIo) : Except Trap (ℤ × CpNode) :=
  if io.statDest = true ∧ n.host.stat dest ≠ none then .ok (0, n)
  else do
    let (rc, h, lp) ← famfsMkdir crc32 cfg.cred io.sys n.host n.lp ⟨dest, io.mode, cfg.uid, cfg.gid⟩
    .ok (rc, ⟨h, lp⟩)

/-- The code of an item, and what its calls leave. A directory at depth 0 is left out. -/
def CpTodo.answer (n : CpNode) (t : CpTodo) : Except Trap (ℤ × CpNode) :=
  match t.src with
  | .file _ io => do
    let (made, n) ← n.mkfile crc32 cfg t.path t.dest t.mode io
    .ok (io.code cfg.threaded made, n)
  | .dir _ io _ =>
    if t.depth = 0 then .ok (1, n)
    else do
      let (rc, n) ← n.mkdir crc32 cfg t.dest io
      .ok (if rc ≠ 0 then rc else if io.opendir then 0 else 1, n)
  | .special _ => .ok (-EINVAL, n)
  | .gone _ => .ok (1, n)

/-- What is to be copied after an item: first what is in it. An argument that is gone is the last. -/
def CpTodo.next (t : CpTodo) (rc : ℤ) (ts : List CpTodo) : List CpTodo :=
  match t.src with
  | .dir _ io entries => if rc = 0 then entries.map (entryTodo t.path t.dest io.mode t.depth) ++ ts else ts
  | .gone _ => if t.depth = 0 then [] else ts
  | _ => ts

theorem CpTodo.next_refused {t : CpTodo} {name : CStr} {io : DirIo} {entries : List Src} {rc : ℤ}
    (hsrc : t.src = .dir name io entries) (hrc : rc ≠ 0) (ts : List CpTodo) : t.next rc ts = ts := by
  rw [CpTodo.next, hsrc]
  exact if_neg hrc

/-- An item with the node it was tried on and its code. -/
structure CpTried where
  todo : CpTodo
  node : CpNode
  rc : ℤ

inductive CpWalk : CpNode → List CpTodo → List CpTried → Prop
  | done {n : CpNode} : CpWalk n [] []
  | abort {n n' : CpNode} {t : CpTodo} {ts : List CpTodo} {rc : ℤ} (hanswer : t.answer crc32 cfg n = .ok (rc, n'))
      (hneg : rc < 0) : CpWalk n (t :: ts) [⟨t, n, rc⟩]
  | next {n n' : CpNode} {t : CpTodo} {ts : List CpTodo} {rc : ℤ} {tr : List CpTried}
      (hanswer : t.answer crc32 cfg n = .ok (rc, n')) (hrc : 0 ≤ rc) (hrest : CpWalk n' (t.next rc ts) tr) :
      CpWalk n (t :: ts) (⟨t, n, rc⟩ :: tr)

end

variable {crc32 : Crc32} {cfg : CpConfig}

theorem CpWalk.unique {n : CpNode} {ts : List CpTodo} {tr tr' : List CpTried} (h : CpWalk crc32 cfg n ts tr)
    (h' : CpWalk crc32 cfg n ts tr') : tr = tr' := by
  induction h generalizing tr' with
  | done =>
    cases h'
    rfl
  | abort hanswer hneg =>
    cases h' with
    | abort hanswer' hneg' =>
      cases hanswer.symm.trans hanswer'
      rfl
    | next hanswer' hrc' hrest' =>
      cases hanswer.symm.trans hanswer'
      exact absurd hneg (not_lt.2 hrc')
  | next hanswer hrc hrest ih =>
    cases h' with
    | abort hanswer' hneg' =>
      cases hanswer.symm.trans hanswer'
      exact absurd hneg' (not_lt.2 hrc)
    | next hanswer' hrc' hrest' =>
      cases hanswer.symm.trans hanswer'
      rw [ih hrest']

def upToAbort : List CpTried → List CpTried
  | [] => []
  | x :: tr => if x.rc < 0 then [x] else x :: upToAbort tr

theorem upToAbort_append (tr tr' : List CpTried) : upToAbort (tr ++ upToAbort tr') = upToAbort (tr ++ tr') := by
  induction tr with
  | nil =>
    induction tr' with
    | nil => rfl
    | cons x tr' ih =>
      simp only [List.nil_append, upToAbort] at ih ⊢
      split_ifs with hneg
      · rw [upToAbort, if_pos hneg]
      · rw [upToAbort, if_neg hneg, ih]
  | cons x tr ih => simp only [List.cons_append, upToAbort, ih]

theorem upToAbort_aborted {x : CpTried} (hx : x ∈ tr) (hneg : x.rc < 0) (tr' : List CpTried) :
    upToAbort (tr ++ tr') = upToAbort tr := by
  induction tr with
  | nil => cases hx
  | cons y tr ih =>
    simp only [List.cons_append, upToAbort]
    split_ifs with hy
    · rfl
    · rcases List.mem_cons.1 hx with rfl | hx
      · exact absurd hneg hy
      · rw [ih hx]

theorem CpWalk.upToAbort_eq {n : CpNode} {ts : List CpTodo} (h : CpWalk crc32 cfg n ts tr) :
    upToAbort tr = tr := by
  induction h with
  | done => rfl
  | abort hanswer hneg => rw [upToAbort, if_pos hneg]
  | next hanswer hrc hrest ih => rw [upToAbort, if_neg (not_lt.2 hrc), ih]

/-- The first two levels are those whose codes the loops look at. -/
def StopsAbove (tr : List CpTried) : Prop :=
  ∀ front x back, tr = front ++ x :: back → x.todo.depth ≤ 1 → x.rc < 0 → back = []

theorem StopsAbove.tail {x : CpTried} (h : StopsAbove (x :: tr)) : StopsAbove tr :=
  fun front y back htr => h (x :: front) y back (by rw [htr, List.cons_append])

theorem StopsAbove.deep_iff (h : StopsAbove tr) :
    (∀ x ∈ upToAbort tr, 2 ≤ x.todo.depth → 0 ≤ x.rc) ↔ ∀ x ∈ tr, 2 ≤ x.todo.depth → 0 ≤ x.rc := by
  induction tr with
  | nil => rfl
  | cons x tr ih =>
    rw [upToAbort]
    split_ifs with hneg
    · by_cases hdeep : 2 ≤ x.todo.depth
      · exact iff_of_false (fun hall => not_lt.2 (hall x (List.mem_singleton_self x) hdeep) hneg)
          fun hall => not_lt.2 (hall x List.mem_cons_self hdeep) hneg
      · rw [h [] x tr rfl (by omega) hneg]
    · rw [List.forall_mem_cons, List.forall_mem_cons, ih h.tail]

theorem StopsAbove.upToAbort_eq (h : StopsAbove tr)
    (hdeep : ∀ x ∈ tr, 2 ≤ x.todo.depth → 0 ≤ x.rc) : upToAbort tr = tr := by
  induction tr with
  | nil => rfl
  | cons x tr ih =>
    rw [List.forall_mem_cons] at hdeep
    rw [upToAbort]
    split_ifs with hneg
    · have hlast : tr = [] := h [] x tr rfl (by by_contra hmore; exact not_lt.2 (hdeep.1 (by omega)) hneg) hneg
      rw [hlast]
    · rw [ih h.tail hdeep.2]

end Famfs

import Famfs.Proofs.CreateAtomic
import Famfs.Sanity.CpWalk

/-! The status of `famfs cp`. `famfs_cp_dir` drops what it returns for a directory inside the
one it copies: what fails there is not reported, and does not stop the copy. The tasks of a
thread pool have no way to report at all. -/

namespace Famfs

open Paths

variable {rc : ℤ} {t : CpTodo}

/-- A file that has to be copied; `io` is none for a path that `stat` failed on. `alone` if
the destination may be the file itself. -/
structure SourceFile where
  path : CStr
  dest : CStr
  alone : Bool
  io : Option FileIo

def fileToCopy (path dest : CStr) (alone : Bool) (io : FileIo) : List SourceFile :=
  if io.size = 0 then [] else [⟨path, dest, alone, some io⟩]

mutual

def Src.files (src dest : CStr) : Src → List SourceFile
  | .file name io => fileToCopy (pathIn src name) dest false io
  | .dir name _ entries => filesIn (pathIn src name) (pathIn dest (basename (pathIn src name))) entries
  | .gone name => [⟨pathIn src name, dest, false, none⟩]
  | .special _ => []

def filesIn (src dest : CStr) : List Src → List SourceFile
  | [] => []
  | e :: es => e.files src dest ++ filesIn src dest es

end

def Src.argFiles (alone : Bool) (dest : CStr) : Src → List SourceFile
  | .file name io => fileToCopy name dest alone io
  | .dir name _ entries => filesIn name dest entries
  | .gone name => [⟨name, dest, alone, none⟩]
  | .special _ => []

/-- The job is the copy of the file: created where it belongs, and all bytes read. -/
structure CopiedAs (j : CopyJob) (f : SourceFile) : Prop where
  io : f.io = some j.io
  name : j.srcname = f.path
  place : j.into = some f.dest ∨ f.alone = true ∧ j.into = none ∧ j.destfile = f.dest
  created : 0 < j.destfd
  whole : j.Whole

/-- A negative result ends the copy and is returned. -/
def Aborts (items : List ℤ) (rc : ℤ) : Prop :=
  ∀ front it back, items = front ++ it :: back → it < 0 → back = [] ∧ rc < 0

/-- `famfs_cp` finds a directory to put the file in. -/
def DirThere (n : CpNode) (dest : CStr) (io : FileIo) : Prop := ∃ attr, n.seen dest io = some (.dir attr)

/-- The file got a descriptor that counts as one, at its place, and all its reads succeed. -/
def FileCopied (crc32 : Crc32) (cfg : CpConfig) (alone : Bool) (n : CpNode) (path dest : CStr) (mode : ℕ) (io : FileIo) :
    Prop :=
  (∃ fd n', n.mkfile crc32 cfg path dest mode io = .ok (some fd, n') ∧ 0 < fd) ∧
    (alone = true ∨ DirThere n dest io) ∧ io.Readable cfg.threaded

/-- Nothing that has to be copied is left out by the item. -/
def CpTodo.Done (crc32 : Crc32) (cfg : CpConfig) (one : Bool) (n : CpNode) (t : CpTodo) : Prop :=
  match t.src with
  | .file _ io => io.size = 0 ∨ FileCopied crc32 cfg (one && t.depth == 0) n t.path t.dest t.mode io
  | .dir _ _ entries => (∃ n', t.answer crc32 cfg n = .ok (0, n')) ∨ filesIn t.path t.dest entries = []
  | .special _ => True
  | .gone _ => False

section

variable {crc32 : Crc32} {cfg : CpConfig} {st st' : CpState} {path dest destfile : CStr} {into : Option CStr}
  {io : FileIo} {mode : ℕ} {rc : ℤ}

/-- What a call for one file adds to the jobs, and when that is a copy of the file. -/
structure FileRun (crc32 : Crc32) (cfg : CpConfig) (st : CpState) (path dest : CStr) (mode : ℕ) (io : FileIo) (rc : ℤ)
    (st' : CpState) (js : List CopyJob) : Prop where
  items : st'.items = st.items
  jobs : st'.jobs = st.jobs ++ js
  few : ∀ alone, js.length ≤ (fileToCopy path dest alone io).length
  answer : (∀ j ∈ js, j.Ends) → ∃ made, st.node.mkfile crc32 cfg path dest mode io = .ok (made, st'.node) ∧
    io.code cfg.threaded made = rc
  copied : (∀ j ∈ js, j.Ends) → ∀ alone, List.Forall₂ CopiedAs js (fileToCopy path dest alone io) ↔
    io.size = 0 ∨ FileCopied crc32 cfg alone st.node path dest mode io

theorem FileRun.idle (made : Option ℤ) (hitems : st'.items = st.items) (hjobs : st'.jobs = st.jobs)
    (hmade : st.node.mkfile crc32 cfg path dest mode io = .ok (made, st'.node)) (hcode : io.code cfg.threaded made = rc)
    (hfd : ∀ fd, made = some fd → fd ≤ 0) : FileRun crc32 cfg st path dest mode io rc st' [] := by
  refine ⟨hitems, by rw [hjobs, List.append_nil], fun _ => Nat.zero_le _, fun _ => ⟨made, hmade, hcode⟩, ?_⟩
  intro _ alone
  unfold fileToCopy
  by_cases h0 : io.size = 0
  · simp [h0]
  · rw [if_neg h0]
    constructor
    · intro h
      cases h
    · rintro (h | ⟨⟨fd, n', hmade', hpos⟩, -⟩)
      · exact absurd h h0
      · cases hmade.symm.trans hmade'
        exact absurd (hfd fd rfl) (not_le.2 hpos)

theorem copied_code {j : CopyJob} (hends : j.Ends) (hsrc : 0 ≤ j.io.srcfd) (hfd : 0 < j.destfd) :
    j.io.code j.threaded (some j.destfd) = j.status := by
  rw [FileIo.code, if_neg (not_le.2 hfd)]
  cases hth : j.threaded with
  | true => rw [if_neg (by simp), CopyJob.status, hth, if_pos rfl]
  | false =>
    rcases hends.status_eq hth hsrc with ⟨hstatus, hreads⟩ | ⟨hstatus, hreads⟩
    · rw [if_neg fun h => hreads h.2, hstatus]
    · rw [if_pos ⟨rfl, hreads⟩, hstatus]

/-- The place of a new file, as `famfs_cp` finds it. -/
structure PutWhere (st : CpState) (path dest : CStr) (io : FileIo) (destfile : CStr) (into : Option CStr) : Prop where
  place : st.node.place path dest io = some destfile
  dir : (into = some dest ∧ DirThere st.node dest io) ∨ (into = none ∧ destfile = dest ∧ ¬ DirThere st.node dest io)

theorem PutWhere.place_iff (hput : PutWhere st path dest io destfile into) (alone : Bool) :
    (into = some dest ∨ alone = true ∧ into = none ∧ destfile = dest) ↔ (alone = true ∨ DirThere st.node dest io) := by
  rcases hput.dir with ⟨rfl, hdir⟩ | ⟨rfl, rfl, hdir⟩
  · simp [hdir]
  · simp [hdir]

theorem famfsCpInner_run (hput : PutWhere st path dest io destfile into)
    (hok : famfsCpInner crc32 cfg st path io destfile into mode = .ok (rc, st')) :
    ∃ js, FileRun crc32 cfg st path dest mode io rc st' js := by
  rw [famfsCpInner] at hok
  by_cases hopens : io.Opens
  · obtain ⟨hstat, h0, hsrc⟩ := id hopens
    rw [if_neg (by rw [hstat]; simp), if_neg h0, if_neg (not_lt.2 hsrc), Runs.bind_eq_ok] at hok
    obtain ⟨⟨destfd, h, lp⟩, hmk, hok⟩ := hok
    have hmade : st.node.mkfile crc32 cfg path dest mode io = .ok (some destfd, ⟨h, lp⟩) := by
      rw [CpNode.mkfile, hput.place]
      simp only [if_pos hopens, CpState.node]
      rw [hmk]
      rfl
    simp only at hok
    by_cases hfd : destfd ≤ 0
    · rw [if_pos hfd] at hok
      cases hok
      refine ⟨[], FileRun.idle _ rfl rfl hmade ?_ ?_⟩
      · rw [FileIo.code, if_pos hfd]
      · rintro fd ⟨⟩
        exact hfd
    · rw [if_neg hfd] at hok
      cases hok
      refine ⟨_, rfl, rfl, ?_, fun hends => ⟨_, hmade, ?_⟩, fun hends alone => ?_⟩
      · intro alone
        simp [fileToCopy, h0]
      · exact copied_code (hends _ (List.mem_singleton_self _)) hsrc (not_le.1 hfd)
      · have hwhole := (hends _ (List.mem_singleton_self _)).whole_iff
        have hplace := hput.place_iff alone
        rw [fileToCopy, if_neg h0, List.forall₂_cons, List.forall₂_nil_left_iff, eq_self_iff_true, and_true,
          or_iff_right h0]
        constructor
        · intro hc
          exact ⟨⟨destfd, _, hmade, not_le.1 hfd⟩, hplace.1 hc.place, hwhole.1 hc.whole⟩
        · rintro ⟨-, hdir, hreads⟩
          exact ⟨rfl, rfl, hplace.2 hdir, not_le.1 hfd, hwhole.2 hreads⟩
  · have hone : (1, st) = (rc, st') := by
      unfold FileIo.Opens at hopens
      generalize (if mode = 0 then io.mode else mode) = mode at hok
      split_ifs at hok with hstat h0 hsrc
      · exact Except.ok.inj hok
      · exact Except.ok.inj hok
      · exact Except.ok.inj hok
      · exact absurd ⟨by simpa using hstat, h0, not_lt.1 hsrc⟩ hopens
    cases hone
    refine ⟨[], FileRun.idle none rfl rfl ?_ rfl (by simp)⟩
    rw [CpNode.mkfile, hput.place]
    simp only [if_neg hopens]

theorem famfsCp_run (hok : famfsCp crc32 cfg st path io dest mode = .ok (rc, st')) :
    ∃ js, FileRun crc32 cfg st path dest mode io rc st' js := by
  have hseen : (if io.statDest then st.host.stat dest else none) = st.node.seen dest io := rfl
  rw [famfsCp, hseen] at hok
  split at hok
  · next attr hdir =>
    have hplace : st.node.place path dest io =
        (if io.realDest then (st.host.realpath dest).1 else none).map fun real => pathIn real (basename path) := by
      rw [CpNode.place, hdir]
      rfl
    generalize (if io.realDest then (st.host.realpath dest).1 else none) = real at hok hplace
    cases real with
    | none =>
      cases hok
      refine ⟨[], FileRun.idle none rfl rfl ?_ rfl (by simp)⟩
      rw [CpNode.mkfile, hplace]
      rfl
    | some realdest => exact famfsCpInner_run ⟨hplace, Or.inl ⟨rfl, attr, hdir⟩⟩ hok
  · next hother =>
    have hnot : ¬ DirThere st.node dest io := fun ⟨attr, hdir⟩ => hother attr hdir
    refine famfsCpInner_run ⟨?_, Or.inr ⟨rfl, rfl, hnot⟩⟩ hok
    unfold CpNode.place
    split
    · next attr hdir => exact absurd ⟨attr, hdir⟩ hnot
    · rfl

end

theorem forall₂_append_iff {α β : Type} {R : α → β → Prop} {as as' : List α} {bs bs' : List β}
    (h : as.length ≤ bs.length) (h' : as'.length ≤ bs'.length) :
    List.Forall₂ R (as ++ as') (bs ++ bs') ↔ List.Forall₂ R as bs ∧ List.Forall₂ R as' bs' := by
  constructor
  · intro hall
    have hlen := hall.length_eq
    rw [List.length_append, List.length_append] at hlen
    have hsame : bs.length = as.length := by omega
    have htake := List.forall₂_take_append _ _ _ hall
    have hdrop := List.forall₂_drop_append _ _ _ hall
    rw [hsame, List.take_left] at htake
    rw [hsame, List.drop_left] at hdrop
    exact ⟨htake, hdrop⟩
  · rintro ⟨h1, h2⟩
    exact List.rel_append h1 h2

/-- Rounds of a loop that looks at the codes of the items at depth `d` or less: what they try
and add, and what they make of `err`. -/
structure LoopRun (crc32 : Crc32) (cfg : CpConfig) (one : Bool) (d : ℕ) (todos : List CpTodo) (fs : List SourceFile)
    (err : ℤ) (st : CpState) (stop : Bool) (err' : ℤ) (st' : CpState) (tr : List CpTried) (js : List CopyJob) :
    Prop where
  items : st'.items = st.items ++ tr.map CpTried.rc
  jobs : st'.jobs = st.jobs ++ js
  ok : err' = 0 ↔ err = 0 ∧ ∀ x ∈ tr, x.todo.depth ≤ d → x.rc = 0
  stopped : stop = true → ∃ front x, tr = front ++ [x] ∧ x.todo.depth ≤ d ∧ x.rc = err' ∧ err' ≠ 0 ∧
    ∀ y ∈ front, y.todo.depth ≤ d → 0 ≤ y.rc
  went : stop = false → (∀ x ∈ tr, x.todo.depth ≤ d → 0 ≤ x.rc) ∧ (0 ≤ err → 0 ≤ err')
  few : js.length ≤ fs.length
  copied : stop = false → (∀ j ∈ js, j.Ends) → (∀ x ∈ tr, 0 ≤ x.rc) →
    (List.Forall₂ CopiedAs js fs ↔ ∀ x ∈ tr, x.todo.Done crc32 cfg one x.node)
  walk : (∀ j ∈ js, j.Ends) → ∀ ts tr', (stop = false → CpWalk crc32 cfg st'.node ts tr') → (stop = true → tr' = []) →
    CpWalk crc32 cfg st.node (todos ++ ts) (upToAbort (tr ++ tr'))

section

variable {crc32 : Crc32} {cfg : CpConfig} {one : Bool} {d : ℕ} {todos todos' : List CpTodo} {fs fs' : List SourceFile}
  {err err' err'' : ℤ} {st st' st'' : CpState} {stop : Bool} {tr tr' : List CpTried} {js js' : List CopyJob}

theorem LoopRun.nil : LoopRun crc32 cfg one d [] [] err st false err st [] [] := by
  refine ⟨(List.append_nil _).symm, (List.append_nil _).symm, by simp, by simp, by simp, le_rfl, ?_, ?_⟩
  · intro _ _ _
    simp
  · intro _ ts tr' hrest _
    rw [List.nil_append, List.nil_append, (hrest rfl).upToAbort_eq]
    exact hrest rfl

theorem LoopRun.cons (h : LoopRun crc32 cfg one d todos fs err st false err' st' tr js)
    (h' : LoopRun crc32 cfg one d todos' fs' err' st' stop err'' st'' tr' js') :
    LoopRun crc32 cfg one d (todos ++ todos') (fs ++ fs') err st stop err'' st'' (tr ++ tr') (js ++ js') := by
  have hwent := h.went rfl
  refine ⟨?_, ?_, ?_, ?_, ?_, ?_, ?_, ?_⟩
  · rw [h'.items, h.items, List.append_assoc, List.map_append]
  · rw [h'.jobs, h.jobs, List.append_assoc]
  · rw [h'.ok, h.ok, List.forall_mem_append, and_assoc]
  · intro hstop
    obtain ⟨front, x, rfl, hdepth, hrc, hne, hfront⟩ := h'.stopped hstop
    refine ⟨tr ++ front, x, (List.append_assoc _ _ _).symm, hdepth, hrc, hne, ?_⟩
    rw [List.forall_mem_append]
    exact ⟨hwent.1, hfront⟩
  · intro hgo
    have hwent' := h'.went hgo
    rw [List.forall_mem_append]
    exact ⟨⟨hwent.1, hwent'.1⟩, fun h0 => hwent'.2 (hwent.2 h0)⟩
  · rw [List.length_append, List.length_append]
    exact Nat.add_le_add h.few h'.few
  · intro hgo hends hpos
    rw [List.forall_mem_append] at hends hpos ⊢
    rw [forall₂_append_iff h.few h'.few, h.copied rfl hends.1 hpos.1, h'.copied hgo hends.2 hpos.2]
  · intro hends ts rest hgo hstop
    rw [List.forall_mem_append] at hends
    have hthen := h'.walk hends.2 ts rest hgo hstop
    have hall := h.walk hends.1 (todos' ++ ts) _ (fun _ => hthen) (by simp)
    rwa [upToAbort_append, ← List.append_assoc, ← List.append_assoc] at hall

theorem LoopRun.halted (h : LoopRun crc32 cfg one d todos fs err st true err' st' tr js) (todos' : List CpTodo)
    (fs' : List SourceFile) : LoopRun crc32 cfg one d (todos ++ todos') (fs ++ fs') err st true err' st' tr js := by
  refine ⟨h.items, h.jobs, h.ok, h.stopped, by simp, ?_, by simp, ?_⟩
  · rw [List.length_append]
    exact h.few.trans (Nat.le_add_right _ _)
  · intro hends ts rest _ hstop
    rw [List.append_assoc]
    exact h.walk hends _ rest (by simp) hstop

def nextErr (rc err : ℤ) : ℤ := if rc < 0 then rc else if rc ≠ 0 then 1 else err

theorem looked_eq (rc err : ℤ) (st : CpState) :
    (if rc < 0 then Except.ok (true, rc, st) else Except.ok (false, if rc ≠ 0 then 1 else err, st)) =
      (Except.ok (decide (rc < 0), nextErr rc err, st) : Except Trap (Bool × ℤ × CpState)) := by
  unfold nextErr
  by_cases hneg : rc < 0
  · simp only [hneg, if_true, decide_true]
  · simp only [hneg, if_false, decide_false]

theorem LoopRun.item (hitems : st'.items = st.items ++ [rc])
    (hjobs : st'.jobs = st.jobs ++ js) (hdepth : t.depth ≤ d) (hfew : js.length ≤ fs.length)
    (hcopied : (∀ j ∈ js, j.Ends) → (List.Forall₂ CopiedAs js fs ↔ t.Done crc32 cfg one st.node))
    (hanswer : (∀ j ∈ js, j.Ends) → t.answer crc32 cfg st.node = .ok (rc, st'.node)) (hnext : ∀ ts, t.next rc ts = ts)
    (err : ℤ) :
    LoopRun crc32 cfg one d [t] fs err st (decide (rc < 0)) (nextErr rc err) st' [⟨t, st.node, rc⟩] js := by
  unfold nextErr
  refine ⟨hitems, hjobs, ?_, ?_, ?_, hfew, ?_, ?_⟩
  · simp only [List.mem_singleton, forall_eq, hdepth, true_imp_iff]
    split_ifs <;> omega
  · intro hneg
    have hneg := of_decide_eq_true hneg
    rw [if_pos hneg]
    exact ⟨[], _, rfl, hdepth, rfl, hneg.ne, by simp⟩
  · intro hpos
    have hpos := of_decide_eq_false hpos
    simp only [List.mem_singleton, forall_eq, hdepth, true_imp_iff, if_neg hpos]
    split_ifs <;> omega
  · intro _ hends _
    rw [hcopied hends]
    simp
  · intro hends ts rest hgo _
    simp only [List.singleton_append, upToAbort]
    by_cases hneg : rc < 0
    · rw [if_pos hneg]
      exact .abort (hanswer hends) hneg
    · have hrest := hgo (decide_eq_false hneg)
      rw [if_neg hneg, hrest.upToAbort_eq]
      exact .next (hanswer hends) (not_lt.1 hneg) (by rwa [hnext])

theorem LoopRun.idle (hitems : st'.items = st.items ++ [rc]) (hjobs : st'.jobs = st.jobs)
    (hdepth : t.depth ≤ d) (hdone : fs = [] ↔ t.Done crc32 cfg one st.node)
    (hanswer : t.answer crc32 cfg st.node = .ok (rc, st'.node)) (hnext : ∀ ts, t.next rc ts = ts) (err : ℤ) :
    LoopRun crc32 cfg one d [t] fs err st (decide (rc < 0)) (nextErr rc err) st' [⟨t, st.node, rc⟩] [] := by
  refine LoopRun.item hitems (by rw [hjobs, List.append_nil]) hdepth (Nat.zero_le _) (fun _ => ?_) (fun _ => hanswer)
    hnext err
  rw [List.forall₂_nil_left_iff, hdone]

theorem FileRun.item {path dest : CStr} {mode k : ℕ} {io : FileIo}
    (h : FileRun crc32 cfg st path dest mode io rc st' js) (name : CStr) (one : Bool) (hdepth : k ≤ d) (err : ℤ) :
    LoopRun crc32 cfg one d [⟨k, path, dest, mode, .file name io⟩] (fileToCopy path dest (one && k == 0) io) err st
      (decide (rc < 0)) (nextErr rc err) (st'.record rc) [⟨⟨k, path, dest, mode, .file name io⟩, st.node, rc⟩] js := by
  refine LoopRun.item ?_ ?_ hdepth (h.few _) (fun hends => h.copied hends _) (fun hends => ?_) (fun _ => rfl) err
  · rw [CpState.record, h.items]
  · exact h.jobs
  · obtain ⟨made, hmade, hcode⟩ := h.answer hends
    simp only [CpTodo.answer]
    rw [hmade, Runs.ok_bind, hcode]
    rfl

structure EntryRun (crc32 : Crc32) (cfg : CpConfig) (one : Bool) (d : ℕ) (todos : List CpTodo) (fs : List SourceFile)
    (err : ℤ) (st : CpState) (stop : Bool) (err' : ℤ) (st' : CpState) (tr : List CpTried) (js : List CopyJob) : Prop
    extends LoopRun crc32 cfg one d todos fs err st stop err' st' tr js where
  deep : ∀ x ∈ tr, d ≤ x.todo.depth
  neg : stop = true → err' < 0

theorem EntryRun.opened (h : EntryRun crc32 cfg one d todos fs 0 st' stop err' st'' tr js)
    (hanswer : t.answer crc32 cfg st.node = .ok (0, st'.node)) (hnext : ∀ ts, t.next 0 ts = todos ++ ts)
    (hends : ∀ j ∈ js, j.Ends) (ts : List CpTodo) (rest : List CpTried) (hgo : stop = false → CpWalk crc32 cfg st''.node ts rest) :
    CpWalk crc32 cfg st.node ([t] ++ ts) (upToAbort (⟨t, st.node, 0⟩ :: tr ++ rest)) := by
  simp only [List.cons_append, upToAbort, lt_irrefl, if_false]
  refine .next hanswer le_rfl ?_
  rw [hnext]
  cases hstop : stop with
  | false => exact h.walk hends ts rest hgo (by simp [hstop])
  | true =>
    obtain ⟨front, x, htr, -, hrc, -⟩ := h.stopped hstop
    have hx : x ∈ tr := by rw [htr]; simp
    have hneg : x.rc < 0 := hrc ▸ h.neg hstop
    rw [upToAbort_aborted hx hneg, ← upToAbort_aborted hx hneg []]
    exact h.walk hends ts [] (by simp [hstop]) fun _ => rfl

theorem EntryRun.inside (h : EntryRun crc32 cfg one (d + 1) todos fs 0 st' stop err' st'' tr js)
    (hitems : st'.items = st.items ++ [0]) (hjobs : st'.jobs = st.jobs) (hdepth : t.depth = d + 1)
    (hanswer : t.answer crc32 cfg st.node = .ok (0, st'.node)) (hnext : ∀ ts, t.next 0 ts = todos ++ ts)
    (hdone : t.Done crc32 cfg one st.node) (err : ℤ) :
    EntryRun crc32 cfg one d [t] fs err st false err st'' (⟨t, st.node, 0⟩ :: tr) js := by
  have hdeep : ∀ x ∈ ⟨t, st.node, 0⟩ :: tr, d + 1 ≤ x.todo.depth := by
    rw [List.forall_mem_cons]
    exact ⟨hdepth.ge, h.deep⟩
  have hnone : ∀ {P : CpTried → Prop}, ∀ x ∈ ⟨t, st.node, 0⟩ :: tr, x.todo.depth ≤ d → P x :=
    fun x hx hle => absurd (hdeep x hx) (by omega)
  refine ⟨⟨?_, ?_, ?_, by simp, fun _ => ⟨hnone, id⟩, h.few, ?_, ?_⟩, fun x hx => by have := hdeep x hx; omega, by simp⟩
  · rw [h.items, hitems, List.append_assoc, List.singleton_append, List.map_cons]
  · rw [h.jobs, hjobs]
  · exact ⟨fun h0 => ⟨h0, hnone⟩, fun h0 => h0.1⟩
  · intro _ hends hpos
    rw [List.forall_mem_cons] at hpos ⊢
    cases hstop : stop with
    | false => rw [h.copied hstop hends hpos.2, and_iff_right hdone]
    | true =>
      obtain ⟨front, x, rfl, -, hrc, -⟩ := h.stopped hstop
      have := hpos.2 x (by simp)
      have := h.neg hstop
      omega
  · intro hends ts rest hgo _
    exact h.opened hanswer hnext hends ts rest fun _ => hgo rfl

theorem EntryRun.unopened (hitems : st'.items = st.items ++ [rc]) (hjobs : st'.jobs = st.jobs)
    (hdepth : t.depth = d + 1) (hanswer : t.answer crc32 cfg st.node = .ok (rc, st'.node))
    (hnext : ∀ ts, t.next rc ts = ts) (hdone : fs = [] ↔ t.Done crc32 cfg one st.node) (err : ℤ) :
    EntryRun crc32 cfg one d [t] fs err st false err st' [⟨t, st.node, rc⟩] [] := by
  have hitem := LoopRun.idle (d := d + 1) hitems hjobs hdepth.le hdone hanswer hnext 0
  have hnone : ∀ {P : CpTried → Prop}, ∀ x ∈ [(⟨t, st.node, rc⟩ : CpTried)], x.todo.depth ≤ d → P x := by
    intro P x hx hle
    rw [List.mem_singleton.1 hx] at hle
    have hle : t.depth ≤ d := hle
    omega
  refine ⟨⟨hitems, by rw [hjobs, List.append_nil], ?_, by simp, fun _ => ⟨hnone, id⟩, Nat.zero_le _, ?_, ?_⟩, ?_, by simp⟩
  · exact ⟨fun h0 => ⟨h0, hnone⟩, fun h0 => h0.1⟩
  · intro _ _ _
    rw [List.forall₂_nil_left_iff, hdone]
    simp
  · intro hends ts rest hgo _
    by_cases hneg : rc < 0
    · have hall := hitem.walk hends ts [] (by simp [hneg]) fun _ => rfl
      rwa [upToAbort_aborted (List.mem_singleton_self _) hneg, ← upToAbort_aborted (List.mem_singleton_self _) hneg rest] at hall
    · exact hitem.walk hends ts rest (fun _ => hgo rfl) (by simp [hneg])
  · simp [hdepth]

theorem EntryRun.cons (h : EntryRun crc32 cfg one d todos fs err st false err' st' tr js)
    (h' : EntryRun crc32 cfg one d todos' fs' err' st' stop err'' st'' tr' js') :
    EntryRun crc32 cfg one d (todos ++ todos') (fs ++ fs') err st stop err'' st'' (tr ++ tr') (js ++ js') :=
  ⟨h.toLoopRun.cons h'.toLoopRun, by rw [List.forall_mem_append]; exact ⟨h.deep, h'.deep⟩, h'.neg⟩

theorem cpDirOpen_run {name : CStr} {io : DirIo} {entries : List Src} (hsrc : t.src = .dir name io entries)
    (hdepth : 0 < t.depth) (hok : cpDirOpen crc32 cfg st t.dest io = .ok (rc, st')) :
    (st'.record rc).items = st.items ++ [rc] ∧ st'.jobs = st.jobs ∧ t.answer crc32 cfg st.node = .ok (rc, st'.node) := by
  rw [cpDirOpen] at hok
  split at hok
  · next seen hseen =>
    have hthere : io.statDest = true ∧ st.node.host.stat t.dest ≠ none := by
      split_ifs at hseen with hstat
      exact ⟨hstat, by rw [CpState.node, hseen]; simp⟩
    cases hok
    refine ⟨rfl, rfl, ?_⟩
    rw [CpTodo.answer, hsrc]
    simp only [if_neg hdepth.ne', CpNode.mkdir, if_pos hthere, Runs.ok_bind]
    rfl
  · next hseen =>
    have hthere : ¬ (io.statDest = true ∧ st.node.host.stat t.dest ≠ none) := by
      rintro ⟨hstat, hne⟩
      rw [if_pos hstat] at hseen
      exact hne hseen
    rw [Runs.bind_eq_ok] at hok
    obtain ⟨⟨rc', h, lp⟩, hmk, hok⟩ := hok
    cases hok
    refine ⟨rfl, rfl, ?_⟩
    rw [CpTodo.answer, hsrc]
    simp only [if_neg hdepth.ne', CpNode.mkdir, if_neg hthere]
    simp only [CpState.node]
    rw [hmk]
    rfl

theorem LoopRun.entry {n : CpNode} (hdepth : t.depth = d)
    (h : LoopRun crc32 cfg one d todos fs err st (decide (rc < 0)) (nextErr rc err) st' [⟨t, n, rc⟩] js) :
    EntryRun crc32 cfg one d todos fs err st (decide (rc < 0)) (nextErr rc err) st' [⟨t, n, rc⟩] js := by
  refine ⟨h, by simp [hdepth], fun hneg => ?_⟩
  have hneg := of_decide_eq_true hneg
  rwa [nextErr, if_pos hneg]

theorem unopened_done {n n' : CpNode} {name : CStr} {io : DirIo} {entries : List Src}
    (hsrc : t.src = .dir name io entries) (hanswer : t.answer crc32 cfg n = .ok (rc, n')) (hrc : rc ≠ 0) :
    t.Done crc32 cfg one n ↔ filesIn t.path t.dest entries = [] := by
  rw [CpTodo.Done, hsrc]
  refine or_iff_right ?_
  rintro ⟨n'', hzero⟩
  cases hanswer.symm.trans hzero
  exact hrc rfl

mutual

theorem cpEntry_run {src dest : CStr} {mode d : ℕ} (hd : 0 < d) {err err' : ℤ} {st st' : CpState} {stop : Bool}
    (one : Bool) (e : Src) (hok : cpEntry crc32 cfg src dest mode e err st = .ok (stop, err', st')) :
    ∃ tr js, EntryRun crc32 cfg one d [entryTodo src dest mode d e] (e.files src dest) err st stop err' st' tr js := by
  cases e with
  | file name io =>
    rw [cpEntry, Runs.bind_eq_ok] at hok
    obtain ⟨⟨rc, st1⟩, hcp, hok⟩ := hok
    obtain ⟨js, hrun⟩ := famfsCp_run hcp
    simp only [looked_eq] at hok
    cases hok
    have hitem := hrun.item name one (le_refl d) err
    have hnot : (one && d == 0) = false := by
      rw [Bool.and_eq_false_iff, beq_eq_false_iff_ne]
      exact Or.inr (by omega)
    rw [hnot] at hitem
    exact ⟨_, js, hitem.entry rfl⟩
  | dir name io entries =>
    rw [cpEntry, Runs.bind_eq_ok] at hok
    obtain ⟨⟨rc, st1⟩, hopen, hok⟩ := hok
    let t := entryTodo src dest mode d (.dir name io entries)
    have hdir : t.src = .dir name io entries := rfl
    obtain ⟨hitems, hjobs, hanswer⟩ := cpDirOpen_run hdir (Nat.succ_pos d) hopen
    simp only at hok
    by_cases hrc : rc = 0
    · subst hrc
      rw [if_neg (by simp), Runs.bind_eq_ok] at hok
      obtain ⟨⟨stop1, err1, st2⟩, hentries, hok⟩ := hok
      cases hok
      obtain ⟨tr, js, hrun⟩ := cpEntries_run (Nat.succ_pos d) one entries hentries
      exact ⟨_, js, hrun.inside hitems hjobs rfl hanswer (fun _ => rfl) (Or.inl ⟨_, hanswer⟩) err⟩
    · rw [if_pos hrc] at hok
      cases hok
      refine ⟨_, [], EntryRun.unopened hitems hjobs rfl hanswer (CpTodo.next_refused hdir hrc) ?_ err⟩
      exact (unopened_done hdir hanswer hrc).symm
  | special name =>
    rw [cpEntry] at hok
    cases hok
    let t := entryTodo src dest mode d (.special name)
    have hdepth : t.depth = d := rfl
    have hitem : LoopRun crc32 cfg one d [t] [] err st (decide (-EINVAL < 0)) (nextErr (-EINVAL) err)
        (st.record (-EINVAL)) [⟨t, st.node, -EINVAL⟩] [] := by
      refine LoopRun.idle ?_ ?_ hdepth.le ?_ ?_ ?_ err
      · rfl
      · rfl
      · exact iff_of_true rfl trivial
      · rfl
      · exact fun _ => rfl
    have hentry := hitem.entry hdepth
    exact ⟨_, [], hentry⟩
  | gone name =>
    rw [cpEntry] at hok
    cases hok
    let t := entryTodo src dest mode d (.gone name)
    have hdepth : t.depth = d := rfl
    have hitem : LoopRun crc32 cfg one d [t] [⟨pathIn src name, dest, false, none⟩] err st (decide ((1 : ℤ) < 0))
        (nextErr 1 err) (st.record 1) [⟨t, st.node, 1⟩] [] := by
      refine LoopRun.idle ?_ ?_ hdepth.le ?_ ?_ ?_ err
      · rfl
      · rfl
      · exact iff_of_false (List.cons_ne_nil _ _) id
      · rfl
      · exact fun _ => if_neg hd.ne'
    have hentry := hitem.entry hdepth
    exact ⟨_, [], hentry⟩

theorem cpEntries_run {src dest : CStr} {mode d : ℕ} (hd : 0 < d) {err err' : ℤ} {st st' : CpState} {stop : Bool}
    (one : Bool) (es : List Src) (hok : cpEntries crc32 cfg src dest mode es err st = .ok (stop, err', st')) :
    ∃ tr js, EntryRun crc32 cfg one d (es.map (entryTodo src dest mode d)) (filesIn src dest es) err st stop err' st' tr
      js := by
  cases es with
  | nil =>
    rw [cpEntries] at hok
    cases hok
    exact ⟨[], [], LoopRun.nil, by simp, by simp⟩
  | cons e es =>
    rw [cpEntries, Runs.bind_eq_ok] at hok
    obtain ⟨⟨stop1, err1, st1⟩, hentry, hok⟩ := hok
    obtain ⟨tr, js, hrun⟩ := cpEntry_run hd one e hentry
    rw [filesIn, List.map_cons, ← List.singleton_append]
    simp only at hok
    cases stop1 with
    | true =>
      cases hok
      exact ⟨tr, js, hrun.toLoopRun.halted _ _, hrun.deep, hrun.neg⟩
    | false =>
      obtain ⟨tr', js', hrun'⟩ := cpEntries_run hd one es hok
      exact ⟨_, _, hrun.cons hrun'⟩

end

theorem EntryRun.argument (h : EntryRun crc32 cfg one 1 todos fs 0 st' stop err' st'' tr js)
    (hitems : st'.items = st.items ++ [0]) (hjobs : st'.jobs = st.jobs) (hdepth : t.depth = 1)
    (hanswer : t.answer crc32 cfg st.node = .ok (0, st'.node)) (hnext : ∀ ts, t.next 0 ts = todos ++ ts)
    (hdone : t.Done crc32 cfg one st.node) (err : ℤ) :
    LoopRun crc32 cfg one 1 [t] fs err st (decide (err' < 0)) (nextErr err' err) st'' (⟨t, st.node, 0⟩ :: tr) js := by
  have hstop : decide (err' < 0) = stop := by
    cases stop with
    | true => exact decide_eq_true (h.neg rfl)
    | false => exact decide_eq_false (not_lt.2 ((h.went rfl).2 le_rfl))
  have hok : err' = 0 ↔ ∀ x ∈ tr, x.todo.depth ≤ 1 → x.rc = 0 := by
    rw [h.ok, eq_self_iff_true, true_and]
  rw [hstop]
  refine ⟨?_, ?_, ?_, ?_, ?_, h.few, ?_, ?_⟩
  · rw [h.items, hitems, List.append_assoc, List.singleton_append, List.map_cons]
  · rw [h.jobs, hjobs]
  · rw [List.forall_mem_cons, ← hok, nextErr]
    simp only [hdepth, le_refl, true_imp_iff, true_and]
    split_ifs <;> omega
  · intro htrue
    have hneg := h.neg htrue
    obtain ⟨front, x, rfl, hx, hrc, hne, hfront⟩ := h.stopped htrue
    refine ⟨⟨t, st.node, 0⟩ :: front, x, rfl, hx, ?_, ?_, ?_⟩
    · rwa [nextErr, if_pos hneg]
    · rwa [nextErr, if_pos hneg]
    · rw [List.forall_mem_cons]
      exact ⟨fun _ => le_rfl, hfront⟩
  · intro hfalse
    obtain ⟨hits, hpos⟩ := h.went hfalse
    have hpos := hpos le_rfl
    refine ⟨?_, ?_⟩
    · rw [List.forall_mem_cons]
      exact ⟨fun _ => le_rfl, hits⟩
    · intro h0
      unfold nextErr
      split_ifs <;> omega
  · intro hfalse hends hpos
    rw [List.forall_mem_cons] at hpos ⊢
    rw [h.copied hfalse hends hpos.2, and_iff_right hdone]
  · intro hends ts rest hgo _
    exact h.opened hanswer hnext hends ts rest hgo

theorem famfsCpDir_run {src dest : CStr} {io : DirIo} {entries : List Src} {name : CStr}
    (hok : famfsCpDir crc32 cfg st src dest io entries = .ok (rc, st')) (one : Bool) (err : ℤ) :
    ∃ tr js, LoopRun crc32 cfg one 1 [⟨1, src, dest, io.mode, .dir name io entries⟩] (filesIn src dest entries) err st
      (decide (rc < 0)) (nextErr rc err) st' tr js := by
  rw [famfsCpDir, Runs.bind_eq_ok] at hok
  obtain ⟨⟨rc1, st1⟩, hopen, hok⟩ := hok
  let t : CpTodo := ⟨1, src, dest, io.mode, .dir name io entries⟩
  have hdir : t.src = .dir name io entries := rfl
  obtain ⟨hitems, hjobs, hanswer⟩ := cpDirOpen_run hdir Nat.one_pos hopen
  simp only at hok
  by_cases hrc : rc1 = 0
  · subst hrc
    rw [if_neg (by simp), Runs.bind_eq_ok] at hok
    obtain ⟨⟨stop1, err1, st2⟩, hentries, hok⟩ := hok
    cases hok
    obtain ⟨tr, js, hrun⟩ := cpEntries_run Nat.one_pos one entries hentries
    exact ⟨_, js, hrun.argument hitems hjobs rfl hanswer (fun _ => rfl) (Or.inl ⟨_, hanswer⟩) err⟩
  · rw [if_pos hrc] at hok
    cases hok
    refine ⟨_, [], LoopRun.idle hitems hjobs le_rfl (unopened_done hdir hanswer hrc).symm hanswer (CpTodo.next_refused hdir hrc) err⟩

theorem cpArg_run {dest : CStr} {a : Src} (one : Bool) (hok : cpArg crc32 cfg dest err st a = .ok (stop, err', st')) :
    ∃ tr js, LoopRun crc32 cfg one 1 [argTodo cfg dest a] (a.argFiles one dest) err st stop err' st' tr js := by
  cases a with
  | file name io =>
    rw [cpArg, Runs.bind_eq_ok] at hok
    obtain ⟨⟨rc, st1⟩, hcp, hok⟩ := hok
    obtain ⟨js, hrun⟩ := famfsCp_run hcp
    simp only [looked_eq] at hok
    cases hok
    have hitem := hrun.item name one (Nat.zero_le 1) err
    rw [beq_self_eq_true, Bool.and_true] at hitem
    exact ⟨_, js, hitem⟩
  | dir name io entries =>
    rw [cpArg] at hok
    split_ifs at hok with hrec
    · have htodo : argTodo cfg dest (.dir name io entries) = ⟨1, name, dest, io.mode, .dir name io entries⟩ := by
        rw [argTodo, if_pos hrec]
      rw [htodo]
      rw [Runs.bind_eq_ok] at hok
      obtain ⟨⟨rc, st1⟩, hdir, hok⟩ := hok
      simp only [looked_eq] at hok
      cases hok
      exact famfsCpDir_run hdir one err
    · have htodo : argTodo cfg dest (.dir name io entries) = ⟨0, name, dest, io.mode, .dir name io entries⟩ := by
        rw [argTodo, if_neg hrec]
      rw [htodo]
      cases hok
      let t : CpTodo := ⟨0, name, dest, io.mode, .dir name io entries⟩
      have hdir : t.src = .dir name io entries := rfl
      have hanswer : t.answer crc32 cfg st.node = .ok (1, st.node) := rfl
      have hitem : LoopRun crc32 cfg one 1 [t] (filesIn name dest entries) err st (decide ((1 : ℤ) < 0)) (nextErr 1 err)
          (st.record 1) [⟨t, st.node, 1⟩] [] := by
        refine LoopRun.idle ?_ ?_ (Nat.zero_le 1) ?_ ?_ ?_ err
        · rfl
        · rfl
        · exact (unopened_done hdir hanswer one_ne_zero).symm
        · exact hanswer
        · exact CpTodo.next_refused hdir one_ne_zero
      exact ⟨_, [], hitem⟩
  | special name =>
    rw [cpArg] at hok
    cases hok
    let t := argTodo cfg dest (.special name)
    have hitem : LoopRun crc32 cfg one 1 [t] [] err st (decide (-EINVAL < 0)) (nextErr (-EINVAL) err)
        (st.record (-EINVAL)) [⟨t, st.node, -EINVAL⟩] [] := by
      refine LoopRun.idle ?_ ?_ (Nat.zero_le 1) ?_ ?_ ?_ err
      · rfl
      · rfl
      · exact iff_of_true rfl trivial
      · rfl
      · exact fun _ => rfl
    exact ⟨_, [], hitem⟩
  | gone name =>
    rw [cpArg] at hok
    cases hok
    refine ⟨[⟨argTodo cfg dest (.gone name), st.node, 1⟩], [], rfl, (List.append_nil _).symm, ?_, ?_, by simp,
      Nat.zero_le _, by simp, ?_⟩
    · simp [argTodo]
    · exact fun _ => ⟨[], _, rfl, Nat.zero_le 1, rfl, one_ne_zero, by simp⟩
    · intro _ ts rest _ hlast
      rw [hlast rfl]
      exact .next rfl zero_le_one .done

theorem cpArgs_run {dest : CStr} {as : List Src} (one : Bool) (hok : cpArgs crc32 cfg dest as err st = .ok (err', st')) :
    ∃ stop tr js, LoopRun crc32 cfg one 1 (as.map (argTodo cfg dest)) (as.flatMap (Src.argFiles one dest)) err st stop err'
      st' tr js := by
  induction as generalizing err st with
  | nil =>
    cases hok
    exact ⟨false, [], [], LoopRun.nil⟩
  | cons a as ih =>
    rw [cpArgs, Runs.bind_eq_ok] at hok
    obtain ⟨⟨stop1, err1, st1⟩, harg, hok⟩ := hok
    obtain ⟨tr, js, hrun⟩ := cpArg_run one harg
    rw [List.flatMap_cons, List.map_cons, ← List.singleton_append]
    simp only at hok
    cases stop1 with
    | true =>
      cases hok
      exact ⟨true, tr, js, hrun.halted _ _⟩
    | false =>
      obtain ⟨stop, tr', js', hrun'⟩ := ih hok
      exact ⟨stop, _, _, hrun.cons hrun'⟩

end

theorem cpMultiCheck_ne_zero {cfg : CpConfig} {io : MultiIo} {h : Host} {dest : CStr} {n : ℕ}
    (hcheck : cpMultiCheck cfg io h dest n = some rc) : rc ≠ 0 := by
  rintro rfl
  unfold cpMultiCheck at hcheck
  extract_lets parent start again at hcheck
  clear_value parent
  have hstart : start ≠ some 0 := by
    unfold start
    split_ifs with h0
    · exact fun h => h0 (Option.some.inj h)
    · simp
  have hagain : again ≠ some 0 := by
    unfold again
    split
    · split
      · exact hstart
      · simp
      · exact hstart
    · exact hstart
  split at hcheck
  · exact hagain hcheck
  · split at hcheck
    · exact hagain hcheck
    · cases hcheck
  · split at hcheck
    · cases hcheck
    · split at hcheck
      · exact hagain hcheck
      · cases hcheck
      · exact hagain hcheck

theorem LoopRun.stopsAbove {todos : List CpTodo} {crc32 : Crc32} {cfg : CpConfig} {one : Bool} {fs : List SourceFile}
    {st st' : CpState} {stop : Bool} {tr : List CpTried} {js : List CopyJob}
    (h : LoopRun crc32 cfg one 1 todos fs 0 st stop rc st' tr js) : StopsAbove tr := by
  rintro front x back rfl hdepth hneg
  have hx : x ∈ front ++ x :: back := by simp
  cases stop with
  | false => exact absurd ((h.went rfl).1 x hx hdepth) (not_le.2 hneg)
  | true =>
    obtain ⟨front', y, hlast, -, -, -, hfront⟩ := h.stopped rfl
    rcases List.eq_nil_or_concat back with rfl | ⟨back', b, rfl⟩
    · rfl
    · have hsplit : front ++ x :: back' = front' := by
        rw [List.concat_eq_append, ← List.cons_append, ← List.append_assoc] at hlast
        exact (List.append_inj' hlast rfl).1
      exact absurd (hfront x (by rw [← hsplit]; simp) hdepth) (not_le.2 hneg)

theorem LoopRun.aborts_iff {todos : List CpTodo} {crc32 : Crc32} {cfg : CpConfig} {one : Bool} {fs : List SourceFile}
    {st st' : CpState} {stop : Bool} {tr : List CpTried} {js : List CopyJob}
    (h : LoopRun crc32 cfg one 1 todos fs 0 st stop rc st' tr js) :
    Aborts (tr.map CpTried.rc) rc ↔ ∀ x ∈ tr, 2 ≤ x.todo.depth → 0 ≤ x.rc := by
  constructor
  · intro habort x hx hdeep
    by_contra hneg
    obtain ⟨front, back, rfl⟩ := List.append_of_mem hx
    obtain ⟨hback, hrc⟩ := habort (front.map CpTried.rc) x.rc (back.map CpTried.rc) (by simp) (not_le.1 hneg)
    obtain rfl := List.map_eq_nil_iff.1 hback
    cases stop with
    | false => exact absurd ((h.went rfl).2 le_rfl) (not_le.2 hrc)
    | true =>
      obtain ⟨front', y, hlast, hdepth, -⟩ := h.stopped rfl
      have hsame : x = y := by simpa using (List.append_inj' hlast rfl).2
      rw [← hsame] at hdepth
      omega
  · rintro hdeep front it back hsplit hneg
    obtain ⟨front, rest, rfl, rfl, hrest⟩ := List.map_eq_append_iff.1 hsplit
    obtain ⟨x, back, rfl, rfl, rfl⟩ := List.map_eq_cons_iff.1 hrest
    have hx : x ∈ front ++ x :: back := by simp
    have hdepth : x.todo.depth ≤ 1 := by
      by_contra hmore
      exact absurd (hdeep x hx (by omega)) (not_le.2 hneg)
    obtain rfl := h.stopsAbove front x back rfl hdepth hneg
    refine ⟨rfl, ?_⟩
    cases stop with
    | false => exact absurd ((h.went rfl).1 x hx hdepth) (not_le.2 hneg)
    | true =>
      obtain ⟨front', y, hlast, -, hrc, -⟩ := h.stopped rfl
      have hsame : x = y := by simpa using (List.append_inj' hlast rfl).2
      rw [← hrc, ← hsame]
      exact hneg

/-- No item in a directory below a copied one has an abort code, and, where no item above
fails, every item does what it has to. -/
def ReportsAll (crc32 : Crc32) (cfg : CpConfig) (one : Bool) (tr : List CpTried) : Prop :=
  (∀ x ∈ tr, 2 ≤ x.todo.depth → 0 ≤ x.rc) ∧
    ((∀ x ∈ tr, x.todo.depth ≤ 1 → x.rc = 0) → ∀ x ∈ tr, x.todo.Done crc32 cfg one x.node)

theorem StopsAbove.reports_iff {crc32 : Crc32} {cfg : CpConfig} {one : Bool} {tr : List CpTried} (h : StopsAbove tr) :
    ReportsAll crc32 cfg one (upToAbort tr) ↔ ReportsAll crc32 cfg one tr := by
  unfold ReportsAll
  rw [h.deep_iff, and_congr_right_iff]
  intro hdeep
  rw [h.upToAbort_eq hdeep]

/-- `famfs_cp_multi` returns 0 only if every file was copied, and an abort anywhere stops it
and is returned, if and only if one of its checks fails, or all that the copy should come to
is reported. -/
theorem cp_status_truthful_iff (crc32 : Crc32) (cfg : CpConfig) (io : MultiIo) (host : Host) (lp : FamfsLockedLog)
    (srcs : List Src) (dest : CStr) {st : CpState}
    (hrun : famfsCpMulti crc32 cfg io ⟨host, lp, [], []⟩ srcs dest = .ok (rc, st)) (hends : ∀ j ∈ st.jobs, j.Ends) :
    ((rc = 0 → List.Forall₂ CopiedAs st.jobs (srcs.flatMap (Src.argFiles (srcs.length == 1) dest))) ∧
        Aborts st.items rc) ↔
      cpMultiCheck cfg io host dest srcs.length ≠ none ∨
        ∃ tr, CpWalk crc32 cfg ⟨host, lp⟩ (srcs.map (argTodo cfg dest)) tr ∧
          ReportsAll crc32 cfg (srcs.length == 1) tr := by
  rw [famfsCpMulti] at hrun
  cases hcheck : cpMultiCheck cfg io host dest srcs.length with
  | some rc' =>
    simp only [hcheck] at hrun
    cases hrun
    refine iff_of_true ⟨fun h0 => absurd h0 (cpMultiCheck_ne_zero hcheck), ?_⟩ (Or.inl (by simp))
    intro front it back hnil
    simp at hnil
  | none =>
    simp only [hcheck] at hrun
    obtain ⟨stop, tr, js, hloop⟩ := cpArgs_run (srcs.length == 1) hrun
    have hitems : st.items = tr.map CpTried.rc := hloop.items
    have hjobs : st.jobs = js := hloop.jobs
    rw [hjobs] at hends ⊢
    have hwalk : CpWalk crc32 cfg ⟨host, lp⟩ (srcs.map (argTodo cfg dest)) (upToAbort tr) := by
      have hall := hloop.walk hends [] [] (fun _ => .done) fun _ => rfl
      rwa [List.append_nil, List.append_nil] at hall
    have hcond : (none ≠ (none : Option ℤ) ∨ ∃ tr, CpWalk crc32 cfg ⟨host, lp⟩ (srcs.map (argTodo cfg dest)) tr ∧
        ReportsAll crc32 cfg (srcs.length == 1) tr) ↔ ReportsAll crc32 cfg (srcs.length == 1) tr := by
      rw [← hloop.stopsAbove.reports_iff]
      constructor
      · rintro (hne | ⟨tr', hwalk', hreports⟩)
        · exact absurd rfl hne
        · rwa [hwalk.unique hwalk']
      · exact fun hreports => Or.inr ⟨_, hwalk, hreports⟩
    rw [hcond, ReportsAll, hitems, hloop.aborts_iff, and_comm, and_congr_right_iff]
    intro hdeep
    have hzero : rc = 0 ↔ ∀ x ∈ tr, x.todo.depth ≤ 1 → x.rc = 0 := by
      rw [hloop.ok, eq_self_iff_true, true_and]
    rw [← hzero]
    refine imp_congr_right fun h0 => ?_
    have hgo : stop = false := by
      cases stop with
      | false => rfl
      | true =>
        obtain ⟨-, -, -, -, -, hne, -⟩ := hloop.stopped rfl
        exact absurd h0 hne
    refine hloop.copied hgo hends fun x hx => ?_
    by_cases hdepth : x.todo.depth ≤ 1
    · exact (hzero.1 h0 x hx hdepth).ge
    · exact hdeep x hx (by omega)

def readAnswer (reopen : ℤ) (readOk : ℕ → Bool) (s : CopyState) (k : ℕ) : CopyIo :=
  match s.tasks[k]? with
  | some ⟨_, .copy offset remainder⟩ =>
    ⟨reopen, if 0 ≤ s.cf.srcfd ∧ readOk offset then ((min chunksize remainder : ℕ) : ℤ) else -1, false⟩
  | _ => ⟨reopen, 0, false⟩

theorem readAnswer_answers (io : FileIo) (s : CopyState) (k : ℕ) :
    io.Answers s k (readAnswer io.reopen io.readOk s k) := by
  constructor
  · unfold readAnswer
    split <;> rfl
  · intro t offset remainder ht hpc
    obtain ⟨cp, pc⟩ := t
    simp only at hpc
    subst hpc
    simp only [readAnswer, ht]

def oneByte : FileIo where
  size := 1
  sizeLt := by decide
  mode := 0o644
  statSrc := true
  srcfd := 4
  statDest := true
  realDest := true
  sys := Sys.healthy
  alloc := ⟨true, true, id⟩
  reopen := 4
  readOk := fun _ => true
  fin := (runTasks (readAnswer 4 fun _ => true) (List.replicate 8 (some 0))
    (famfsCopyFileData false false 4 3 1)).getD (famfsCopyFileData false false 4 3 1)

theorem oneByte_ends {srcname destfile : CStr} {into : Option CStr} :
    CopyJob.Ends ⟨srcname, destfile, into, false, 3, oneByte⟩ := by
  have hsome : (runTasks (readAnswer 4 fun _ => true) (List.replicate 8 (some 0))
      (famfsCopyFileData false false 4 3 1)).isSome = true := by decide +kernel
  obtain ⟨s, hs⟩ := Option.isSome_iff_exists.1 hsome
  have hfin : oneByte.fin = s := by
    simp only [oneByte, hs, Option.getD_some]
  refine ⟨?_, ?_⟩
  · simp only [hfin]
    exact runTasks_run (readAnswer_answers oneByte) hs
  · exact of_decide_eq_true (by decide +kernel : decide oneByte.fin.Complete = true)

def readableDir : DirIo := ⟨0o755, true, Sys.healthy, true⟩

def recursiveCp : CpConfig := ⟨43, ⟨0, 0, 0o022⟩, false, true, 0, 0, 0⟩

theorem call_of_seen {call : Except Trap (ℤ × Host × FamfsLockedLog)} (p : Path)
    (hseen : (callSeen p call).map Prod.fst = some rc) : ∃ h lp, call = .ok (rc, h, lp) := by
  cases call with
  | error t => cases hseen
  | ok r =>
    obtain ⟨rc', h, lp⟩ := r
    exact ⟨h, lp, by rw [← Option.some.inj hseen]⟩

theorem smallHost_stat : smallHost.stat [47, 109] = some (.dir ⟨0o755, 0, 0⟩) := by decide +kernel

theorem smallHost_realpath : (smallHost.realpath [47, 109]).1 = some [47, 109] := by decide +kernel

def byteJob : CopyJob := ⟨[115, 47, 102], [47, 109, 47, 102], some [47, 109], false, 3, oneByte⟩

theorem byte_made : ∃ h lp, famfsMkfile Crc32.update recursiveCp.kabi recursiveCp.cred oneByte.sys oneByte.alloc
    smallHost freshSession ⟨[47, 109, 47, 102], 0o755, 0, 0, 1, true⟩ = .ok (3, h, lp) :=
  call_of_seen [[109], [102]] (by decide +kernel)

/-- `s` holds the file `f`. -/
theorem cp_status_truthful_iff_one_file :
    ∃ st, famfsCpMulti Crc32.update recursiveCp ⟨true, true, true, true, 0⟩ ⟨smallHost, freshSession, [], []⟩
        [.dir [115] readableDir [.file [102] oneByte]] [47, 109] = .ok (0, st) ∧ (∀ j ∈ st.jobs, j.Ends) ∧
      List.Forall₂ CopiedAs st.jobs [⟨[115, 47, 102], [47, 109], false, some oneByte⟩] ∧ Aborts st.items 0 := by
  have hcheck : cpMultiCheck recursiveCp ⟨true, true, true, true, 0⟩ smallHost [47, 109] 1 = none := by decide +kernel
  obtain ⟨h, lp, hmk⟩ := byte_made
  have hstatus : byteJob.status = 0 := by decide +kernel
  have hcp : ∀ its, famfsCp Crc32.update recursiveCp ⟨smallHost, freshSession, its, []⟩ (pathIn [115] [102]) oneByte
      [47, 109] readableDir.mode = .ok (0, ⟨h, lp, its, [byteJob]⟩) := by
    intro its
    have hinner : famfsCpInner Crc32.update recursiveCp ⟨smallHost, freshSession, its, []⟩ [115, 47, 102] oneByte
        [47, 109, 47, 102] (some [47, 109]) 0o755 = .ok (0, ⟨h, lp, its, [byteJob]⟩) := by
      rw [famfsCpInner, if_neg (by decide), if_neg (by decide), if_neg (by decide), Runs.bind_eq_ok]
      refine ⟨(3, h, lp), hmk, ?_⟩
      rw [← hstatus]
      rfl
    unfold famfsCp
    simp only [oneByte, if_true, smallHost_stat, smallHost_realpath]
    exact hinner
  have hopen : cpDirOpen Crc32.update recursiveCp ⟨smallHost, freshSession, [], []⟩ [47, 109] readableDir =
      .ok (0, ⟨smallHost, freshSession, [], []⟩) := by
    simp only [cpDirOpen, readableDir, if_true, smallHost_stat]
  have hrec : recursiveCp.recursive = true := rfl
  have hrun : famfsCpMulti Crc32.update recursiveCp ⟨true, true, true, true, 0⟩ ⟨smallHost, freshSession, [], []⟩
      [.dir [115] readableDir [.file [102] oneByte]] [47, 109] = .ok (0, ⟨h, lp, [0, 0], [byteJob]⟩) := by
    simp only [famfsCpMulti, List.length_cons, List.length_nil, hcheck, cpArgs, cpArg, famfsCpDir, hopen, Runs.ok_bind,
      cpEntries, cpEntry, CpState.record, List.nil_append, hrec, if_true, ne_eq, not_true_eq_false, if_false, hcp]
    rfl
  have hends : ∀ j ∈ [byteJob], j.Ends := by
    intro j hj
    rw [List.mem_singleton.1 hj]
    exact oneByte_ends
  let f : CpTodo := ⟨1, [115, 47, 102], [47, 109], 0o755, .file [102] oneByte⟩
  let s : CpTodo := ⟨1, [115], [47, 109], 0o755, .dir [115] readableDir [.file [102] oneByte]⟩
  have hs : s.answer Crc32.update recursiveCp ⟨smallHost, freshSession⟩ = .ok (0, ⟨smallHost, freshSession⟩) :=
    (cpDirOpen_run (t := s) rfl Nat.one_pos hopen).2.2
  have hmade : CpNode.mkfile Crc32.update recursiveCp ⟨smallHost, freshSession⟩ [115, 47, 102] [47, 109] 0o755 oneByte =
      .ok (some 3, ⟨h, lp⟩) := by
    have hplace : CpNode.place ⟨smallHost, freshSession⟩ [115, 47, 102] [47, 109] oneByte = some [47, 109, 47, 102] := by
      decide +kernel
    rw [CpNode.mkfile, hplace]
    simp only [if_pos (show oneByte.Opens by decide)]
    exact Runs.bind_eq_ok.2 ⟨_, hmk, rfl⟩
  have hread : ∀ threaded, oneByte.Readable threaded := fun threaded offset _ _ => by
    cases threaded <;> exact ⟨by decide, rfl⟩
  have hf : f.answer Crc32.update recursiveCp ⟨smallHost, freshSession⟩ = .ok (0, ⟨h, lp⟩) := by
    have hcode : oneByte.code recursiveCp.threaded (some 3) = 0 := by
      rw [FileIo.code, if_neg (by decide), if_neg fun hbad => hbad.2.2 (hread false)]
    refine Runs.bind_eq_ok.2 ⟨_, hmade, ?_⟩
    simp only [hcode]
  have hcond : ∃ tr, CpWalk Crc32.update recursiveCp ⟨smallHost, freshSession⟩
      ([.dir [115] readableDir [.file [102] oneByte]].map (argTodo recursiveCp [47, 109])) tr ∧
      ReportsAll Crc32.update recursiveCp true tr := by
    refine ⟨[⟨s, _, 0⟩, ⟨f, _, 0⟩], .next hs le_rfl (.next hf le_rfl .done), by simp, fun _ => ?_⟩
    rw [List.forall_mem_cons, List.forall_mem_singleton]
    refine ⟨Or.inl ⟨_, hs⟩, Or.inr ⟨⟨3, _, hmade, by decide⟩, Or.inr ⟨_, smallHost_stat⟩, hread _⟩⟩
  obtain ⟨hcopied, habort⟩ := (cp_status_truthful_iff _ _ _ _ _ _ _ hrun hends).2 (Or.inr hcond)
  exact ⟨_, hrun, hends, hcopied rfl, habort⟩

/-- `s` holds the directory `d` with the file `f`, and the log is full: neither is copied, and
the call returns 0. -/
theorem full_log_not_reported :
    ∃ st, famfsCpMulti Crc32.update recursiveCp ⟨true, true, true, true, 0⟩ ⟨smallHost, fullSession, [], []⟩
        [.dir [115] readableDir [.dir [100] readableDir [.file [102] oneByte]]] [47, 109] = .ok (0, st) ∧
      (∀ j ∈ st.jobs, j.Ends) ∧
      ¬ List.Forall₂ CopiedAs st.jobs [⟨[115, 47, 100, 47, 102], [47, 109, 47, 100], false, some oneByte⟩] ∧
      ¬ Aborts st.items 0 := by
  have hcheck : cpMultiCheck recursiveCp ⟨true, true, true, true, 0⟩ smallHost [47, 109] 1 = none := by decide +kernel
  have hrec : recursiveCp.recursive = true := rfl
  have hopen : cpDirOpen Crc32.update recursiveCp ⟨smallHost, fullSession, [], []⟩ [47, 109] readableDir =
      .ok (0, ⟨smallHost, fullSession, [], []⟩) := by
    simp only [cpDirOpen, readableDir, if_true, smallHost_stat]
  have hfree : smallHost.stat [47, 109, 47, 100] = none := by decide +kernel
  obtain ⟨h, lp, hmk⟩ : ∃ h lp, famfsMkdir Crc32.update recursiveCp.cred Sys.healthy smallHost fullSession
      ⟨[47, 109, 47, 100], 0o755, 0, 0⟩ = .ok (-12, h, lp) := call_of_seen [[109], [100]] (by decide +kernel)
  have hinner : ∀ its, cpDirOpen Crc32.update recursiveCp ⟨smallHost, fullSession, its, []⟩
      (pathIn [47, 109] (basename (pathIn [115] [100]))) readableDir = .ok (-12, ⟨h, lp, its, []⟩) := by
    intro its
    have hname : pathIn [47, 109] (basename (pathIn [115] [100])) = [47, 109, 47, 100] := by decide
    rw [hname, cpDirOpen]
    simp only [readableDir, if_true, hfree]
    rw [Runs.bind_eq_ok]
    exact ⟨(-12, h, lp), hmk, rfl⟩
  refine ⟨⟨h, lp, [0, -12], []⟩, ?_, ?_, ?_, ?_⟩
  · simp only [famfsCpMulti, List.length_cons, List.length_nil, hcheck, cpArgs, cpArg, famfsCpDir, hopen, Runs.ok_bind,
      cpEntries, cpEntry, CpState.record, List.nil_append, hrec, if_true, ne_eq, not_true_eq_false, if_false, hinner]
    rfl
  · simp
  · intro hall
    cases hall
  · intro habort
    exact absurd (habort [_] _ [] rfl (by decide)).2 (lt_irrefl 0)

end Famfs

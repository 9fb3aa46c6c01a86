import Famfs.Spec.Copy
import Mathlib.Tactic

/-! What one step of a copy task does, whatever the calls answer. -/

namespace Famfs

open Machine Relation

@[simp] theorem emit_cf (s : CopyState) (es : List CopyEvent) : (s.emit es).cf = s.cf := rfl

def CopyPc.result : CopyPc → Option ℤ
  | .lockOut rc => some rc
  | .dropRef rc _ => some rc
  | .unlockOut rc _ _ => some rc
  | .report rc _ _ => some rc
  | .cleanup rc _ => some rc
  | .done rc => some rc
  | _ => none

theorem chunk_read {offset remainder : ℕ} (h : offset + remainder < 2 ^ 64) :
    u64 (offset + min chunksize remainder) = offset + min chunksize remainder ∧
      sub64 remainder (min chunksize remainder) = remainder - min chunksize remainder := by
  have hn : min chunksize remainder ≤ remainder := Nat.min_le_right _ _
  exact ⟨u64_of_lt (by omega), sub64_of_le (by omega) hn⟩

/-- The steps of task `k`, from the task it is to the state after it. -/
inductive CopyMove (s : CopyState) (k : ℕ) (io : CopyIo) : CopyTask → CopyState → Prop
  | filesAreOpen {cp : CopyData} (hfds : 0 < s.cf.srcfd ∧ 0 < s.cf.destfd) :
      CopyMove s k io ⟨cp, .start⟩ (s.jump k ⟨cp, .start⟩ (.copy cp.offset cp.size))
  | notOpen {cp : CopyData} (hfds : ¬ (0 < s.cf.srcfd ∧ 0 < s.cf.destfd)) :
      CopyMove s k io ⟨cp, .start⟩ (s.jump k ⟨cp, .start⟩ .lockOpen)
  | lockOpen {cp : CopyData} (hmutex : s.mutex = none) :
      CopyMove s k io ⟨cp, .lockOpen⟩ { s.jump k ⟨cp, .lockOpen⟩ .openSrc with mutex := some k }
  | openFailed {cp : CopyData} (hsrc : s.cf.srcfd = 0) (hfd : io.openFd < 0) :
      CopyMove s k io ⟨cp, .openSrc⟩
        ({ s with cf := { s.cf with srcfd := io.openFd } }.jump k ⟨cp, .openSrc⟩ (.dropRef 0 none))
  | opened {cp : CopyData} (hsrc : s.cf.srcfd = 0) (hfd : 0 ≤ io.openFd) :
      CopyMove s k io ⟨cp, .openSrc⟩
        ({ s with cf := { s.cf with srcfd := io.openFd } }.jump k ⟨cp, .openSrc⟩ .unlockOpen)
  | openedBefore {cp : CopyData} (hsrc : s.cf.srcfd ≠ 0) :
      CopyMove s k io ⟨cp, .openSrc⟩ (s.jump k ⟨cp, .openSrc⟩ .unlockOpen)
  | unlockOpen {cp : CopyData} :
      CopyMove s k io ⟨cp, .unlockOpen⟩
        { s.jump k ⟨cp, .unlockOpen⟩ (.copy cp.offset cp.size) with mutex := none }
  | compared {cp : CopyData} {offset : ℕ} (hmode : s.cf.compare = true) :
      CopyMove s k io ⟨cp, .copy offset 0⟩ (s.jump k ⟨cp, .copy offset 0⟩ (.lockOut 0))
  | copied {cp : CopyData} {offset : ℕ} (hmode : s.cf.compare = false) :
      CopyMove s k io ⟨cp, .copy offset 0⟩
        ((s.jump k ⟨cp, .copy offset 0⟩ (.lockOut 0)).emit [.flushProcessorCache 0 cp.size])
  | readFailed {cp : CopyData} {offset remainder : ℕ} (hrem : 0 < remainder) (hbytes : io.bytes < 0) :
      CopyMove s k io ⟨cp, .copy offset remainder⟩
        ((s.emit [.pread offset (min chunksize remainder) (if s.cf.compare then none else some offset)]).jump k
          ⟨cp, .copy offset remainder⟩ (.lockOut (-1)))
  | differs {cp : CopyData} {offset remainder : ℕ} (hrem : 0 < remainder) (hmode : s.cf.compare = true)
      (hdiff : io.differs = true) :
      CopyMove s k io ⟨cp, .copy offset remainder⟩
        ((s.emit [.pread offset (min chunksize remainder) none]).jump k ⟨cp, .copy offset remainder⟩ (.lockOut (-1)))
  | read {cp : CopyData} {offset remainder : ℕ} (hrem : 0 < remainder)
      (hbytes : (min chunksize remainder : ℕ) ≤ io.bytes) :
      CopyMove s k io ⟨cp, .copy offset remainder⟩
        ((s.emit [.pread offset (min chunksize remainder) (if s.cf.compare then none else some offset)]).jump k
          ⟨cp, .copy offset remainder⟩ (.copy (u64 (offset + io.bytes.toNat)) (sub64 remainder io.bytes.toNat)))
  | lockOut {cp : CopyData} {rc : ℤ} (hmutex : s.mutex = none) :
      CopyMove s k io ⟨cp, .lockOut rc⟩ { s.jump k ⟨cp, .lockOut rc⟩ (.dropRef rc (some 0)) with mutex := some k }
  | dropRef {cp : CopyData} {rc : ℤ} {destp : Option ℕ} :
      CopyMove s k io ⟨cp, .dropRef rc destp⟩
        { s.jump k ⟨cp, .dropRef rc destp⟩ (.unlockOut rc destp (s.cf.refcount - 1 = 0)) with
          cf := { s.cf with refcount := s.cf.refcount - 1 } }
  | unlockOut {cp : CopyData} {rc : ℤ} {destp : Option ℕ} {cleanup : Bool} :
      CopyMove s k io ⟨cp, .unlockOut rc destp cleanup⟩
        { s.jump k ⟨cp, .unlockOut rc destp cleanup⟩ (.report rc destp cleanup) with mutex := none }
  | report {cp : CopyData} {rc : ℤ} {destp : Option ℕ} {cleanup : Bool} :
      CopyMove s k io ⟨cp, .report rc destp cleanup⟩
        (s.jump k ⟨cp, .report rc destp cleanup⟩ (if cleanup then .cleanup rc destp else .done rc))
  | cleanup {cp : CopyData} {rc : ℤ} {destp : Option ℕ} :
      CopyMove s k io ⟨cp, .cleanup rc destp⟩
        { (s.jump k ⟨cp, .cleanup rc destp⟩ (.done rc)).emit [.munmap destp cp.size, .freeCf] with freed := true }

section

variable {s s' : CopyState} {k : ℕ} {io : CopyIo} {t : CopyTask}

theorem copyChunk_move {cp : CopyData} {offset remainder : ℕ}
    (h : copyChunk s k ⟨cp, .copy offset remainder⟩ offset remainder io = .ok s') :
    CopyMove s k io ⟨cp, .copy offset remainder⟩ s' := by
  rw [copyChunk] at h
  by_cases hrem : remainder = 0
  · subst hrem
    rw [if_pos rfl] at h
    split_ifs at h with hmode
    · cases h
      exact .compared hmode
    · cases h
      exact .copied (by simpa using hmode)
  · rw [if_neg hrem] at h
    have hpos : 0 < remainder := Nat.pos_of_ne_zero hrem
    simp only [emit_cf] at h
    by_cases hneg : io.bytes < 0
    · rw [if_pos hneg] at h
      cases h
      exact .readFailed hpos hneg
    rw [if_neg hneg] at h
    by_cases hshort : io.bytes < (min chunksize remainder : ℕ)
    · rw [if_pos hshort] at h
      cases h
    rw [if_neg hshort] at h
    by_cases hdiff : s.cf.compare = true ∧ io.differs = true
    · simp only [hdiff.1, hdiff.2, and_self, if_true] at h
      cases h
      exact .differs hpos hdiff.1 hdiff.2
    · simp only [hdiff, if_false] at h
      cases h
      exact .read hpos (not_lt.1 hshort)

theorem copyFileData_move (h : copyFileData s k t io = some (.ok s')) : CopyMove s k io t s' := by
  obtain ⟨cp, pc⟩ := t
  cases pc with
  | start =>
    simp only [copyFileData, Option.some.injEq, Except.ok.injEq] at h
    split_ifs at h with hfds
    · exact h ▸ .filesAreOpen hfds
    · exact h ▸ .notOpen hfds
  | lockOpen =>
    simp only [copyFileData] at h
    split_ifs at h with hmutex
    cases h
    exact .lockOpen hmutex
  | openSrc =>
    simp only [copyFileData] at h
    split_ifs at h with hsrc hfd
    · cases h
      exact .openFailed hsrc hfd
    · cases h
      exact .opened hsrc (not_lt.1 hfd)
    · cases h
      exact .openedBefore hsrc
  | unlockOpen =>
    cases h
    exact .unlockOpen
  | copy offset remainder =>
    simp only [copyFileData, Option.some.injEq] at h
    exact copyChunk_move h
  | lockOut rc =>
    simp only [copyFileData] at h
    split_ifs at h with hmutex
    cases h
    exact .lockOut hmutex
  | dropRef rc destp =>
    cases h
    exact .dropRef
  | unlockOut rc destp cleanup =>
    cases h
    exact .unlockOut
  | report rc destp cleanup =>
    cases h
    exact .report
  | cleanup rc destp =>
    cases h
    exact .cleanup
  | done rc => cases h

theorem stepTask_move (h : stepTask s k io = some (.ok s')) :
    ∃ t, s.tasks[k]? = some t ∧ (s.freed = true → t.pc.touchesCf = false) ∧ CopyMove s k io t s' := by
  simp only [stepTask] at h
  cases htask : s.tasks[k]? with
  | none =>
    simp only [htask] at h
    cases h
  | some t =>
    simp only [htask] at h
    split_ifs at h with hfreed
    · cases h
    · refine ⟨t, rfl, ?_, copyFileData_move h⟩
      intro hf
      simpa [hf] using hfreed

end

theorem set_cases {ts : List CopyTask} {k j : ℕ} {t' u : CopyTask} (h : (ts.set k t')[j]? = some u) :
    (j = k ∧ u = t') ∨ (j ≠ k ∧ ts[j]? = some u) := by
  rw [List.getElem?_set] at h
  split_ifs at h with hjk hlen
  · exact Or.inl ⟨hjk.symm, (Option.some.inj h).symm⟩
  · exact Or.inr ⟨Ne.symm hjk, h⟩

theorem map_cp_set {ts : List CopyTask} {k : ℕ} {t t' : CopyTask} (ht : ts[k]? = some t)
    (hcp : t'.cp = t.cp) : (ts.set k t').map CopyTask.cp = ts.map CopyTask.cp := by
  rw [List.map_set, hcp]
  obtain ⟨hk, rfl⟩ := List.getElem?_eq_some_iff.1 ht
  apply List.ext_getElem?
  intro i
  rw [List.getElem?_set]
  split_ifs with hik hlen
  · subst hik
    rw [List.getElem?_map, ht, Option.map_some]
  · subst hik
    rw [List.getElem?_eq_none (not_lt.1 hlen)]
  · rfl

def CopyData.Has (cp : CopyData) (x : ℕ) : Prop :=
  cp.offset ≤ x ∧ x < cp.offset + cp.size

structure Tiled (threaded : Bool) (size : ℕ) (cps : List CopyData) (offset remainder : ℕ) : Prop where
  total : offset + remainder = size
  apart : cps.Pairwise fun a b => a.offset + a.size ≤ b.offset
  below : ∀ cp ∈ cps, cp.offset + cp.size ≤ offset
  cover : ∀ x < offset, ∃ cp ∈ cps, cp.Has x
  small : threaded = true → ∀ cp ∈ cps, cp.size ≤ CP_CHUNKSIZE
  heads : ∀ cp ∈ cps, cp.offset = 0 ∨ threaded = true ∧ CP_CHUNKSIZE ≤ cp.offset
  next : offset = 0 ∨ CP_CHUNKSIZE ≤ offset ∨ remainder = 0
  alone : threaded = false → remainder = 0

theorem Tiled.queue {threaded : Bool} {size offset remainder : ℕ} {cps : List CopyData}
    (h : Tiled threaded size cps offset remainder) (hrem : 0 < remainder) :
    Tiled threaded size (cps ++ [⟨offset, min remainder CP_CHUNKSIZE⟩])
      (offset + min remainder CP_CHUNKSIZE) (remainder - min remainder CP_CHUNKSIZE) := by
  have hth : threaded = true := by
    cases threaded with
    | true => rfl
    | false => have := h.alone rfl; omega
  have htot := h.total
  refine ⟨by omega, ?_, ?_, ?_, ?_, ?_, by omega, fun hf => by rw [hf] at hth; cases hth⟩
  · refine List.pairwise_append.2 ⟨h.apart, List.pairwise_singleton _ _, ?_⟩
    intro a ha b hb
    rw [List.mem_singleton.1 hb]
    exact h.below a ha
  · intro cp hcp
    rcases List.mem_append.1 hcp with hcp | hcp
    · have := h.below cp hcp
      omega
    · rw [List.mem_singleton.1 hcp]
  · intro x hx
    by_cases hlt : x < offset
    · obtain ⟨cp, hcp, hhas⟩ := h.cover x hlt
      exact ⟨cp, List.mem_append_left _ hcp, hhas⟩
    · exact ⟨_, List.mem_append_right _ (List.mem_singleton_self _), not_lt.1 hlt, hx⟩
  · intro _ cp hcp
    rcases List.mem_append.1 hcp with hcp | hcp
    · exact h.small hth cp hcp
    · rw [List.mem_singleton.1 hcp]
      exact Nat.min_le_right _ _
  · intro cp hcp
    rcases List.mem_append.1 hcp with hcp | hcp
    · exact h.heads cp hcp
    · rw [List.mem_singleton.1 hcp]
      rcases h.next with hz | hge | hz
      · exact Or.inl hz
      · exact Or.inr ⟨hth, hge⟩
      · omega

theorem Tiled.unique {threaded : Bool} {size offset remainder : ℕ} {cps : List CopyData}
    (h : Tiled threaded size cps offset remainder) {i j x : ℕ} {a b : CopyData}
    (ha : cps[i]? = some a) (hb : cps[j]? = some b) (hxa : a.Has x) (hxb : b.Has x) : i = j := by
  obtain ⟨hi, hai⟩ := List.getElem?_eq_some_iff.1 ha
  obtain ⟨hj, hbj⟩ := List.getElem?_eq_some_iff.1 hb
  obtain ⟨ha1, ha2⟩ := hxa
  obtain ⟨hb1, hb2⟩ := hxb
  have hpair := List.pairwise_iff_getElem.1 h.apart
  rcases Nat.lt_trichotomy i j with hij | hij | hij
  · have := hpair i j hi hj hij
    rw [hai, hbj] at this
    omega
  · exact hij
  · have := hpair j i hj hi hij
    rw [hai, hbj] at this
    omega

theorem tiled_start (threaded compare : Bool) (srcfd destfd : ℤ) (size : ℕ) :
    let s := famfsCopyFileData threaded compare srcfd destfd size
    Tiled threaded size (s.tasks.map CopyTask.cp) s.offset s.remainder := by
  cases threaded with
  | true =>
    refine ⟨Nat.zero_add size, List.Pairwise.nil, ?_, ?_, ?_, ?_, Or.inl rfl, ?_⟩
    · intro cp hcp
      cases hcp
    · intro x hx
      cases hx
    · intro _ cp hcp
      cases hcp
    · intro cp hcp
      cases hcp
    · intro h
      cases h
  | false =>
    refine ⟨rfl, List.pairwise_singleton _ _, ?_, ?_, ?_, ?_, Or.inr (Or.inr rfl), fun _ => rfl⟩
    · intro cp hcp
      rw [List.mem_singleton.1 hcp]
      exact (Nat.zero_add size).le
    · intro x hx
      exact ⟨⟨0, size⟩, List.mem_singleton_self _, Nat.zero_le x, by rwa [Nat.zero_add]⟩
    · intro h
      cases h
    · intro cp hcp
      rw [List.mem_singleton.1 hcp]
      exact Or.inl rfl

theorem queueChunk_cps (s : CopyState) : (queueChunk s).tasks.map CopyTask.cp =
    s.tasks.map CopyTask.cp ++ [⟨s.offset, min s.remainder CP_CHUNKSIZE⟩] := by
  simp only [queueChunk, List.map_append, List.map_cons, List.map_nil]

theorem queued_cases {s : CopyState} {j : ℕ} {u : CopyTask} (h : (queueChunk s).tasks[j]? = some u) :
    s.tasks[j]? = some u ∨ (j = s.tasks.length ∧ u.pc = .start) := by
  simp only [queueChunk, List.getElem?_append] at h
  split_ifs at h with hj
  · exact Or.inl h
  · obtain ⟨hzero, hu⟩ := List.getElem?_eq_some_iff.1 h
    rw [List.length_singleton] at hzero
    right
    refine ⟨by omega, ?_⟩
    rw [← hu]
    simp

theorem queued_old {s : CopyState} {j : ℕ} {u : CopyTask} (h : s.tasks[j]? = some u) : (queueChunk s).tasks[j]? = some u := by
  simp only [queueChunk]
  rw [List.getElem?_append_left (List.getElem?_eq_some_iff.1 h).1]
  exact h

/-- `none` queues a task, `some k` lets task `k` make a step with what `answer` says. -/
def runTasks (answer : CopyState → ℕ → CopyIo) : List (Option ℕ) → CopyState → Option CopyState
  | [], s => some s
  | none :: sched, s => if 0 < s.remainder then runTasks answer sched (queueChunk s) else none
  | some k :: sched, s =>
    match stepTask s k (answer s k) with
    | some (.ok s') => runTasks answer sched s'
    | _ => none

theorem runTasks_run {may : CopyState → ℕ → CopyIo → Prop} {answer : CopyState → ℕ → CopyIo}
    (hmay : ∀ s k, may s k (answer s k)) {sched : List (Option ℕ)} {s s' : CopyState}
    (h : runTasks answer sched s = some s') : ReflTransGen (CopyStep may) s s' := by
  induction sched generalizing s with
  | nil =>
    cases h
    exact ReflTransGen.refl
  | cons a sched ih =>
    cases a with
    | none =>
      simp only [runTasks] at h
      split_ifs at h with hrem
      exact ReflTransGen.head (CopyStep.queue hrem) (ih h)
    | some k =>
      simp only [runTasks] at h
      split at h
      · next s1 hstep => exact ReflTransGen.head (CopyStep.task (hmay s k) hstep) (ih h)
      · cases h

theorem run_of_schedule (may : CopyState → ℕ → CopyIo → Prop) (answer : CopyState → ℕ → CopyIo)
    (hmay : ∀ s k, may s k (answer s k)) (sched : List (Option ℕ)) {s : CopyState} {P : CopyState → Prop}
    [DecidablePred P] (h : (runTasks answer sched s).any (fun s' => decide (P s')) = true) :
    ∃ s', ReflTransGen (CopyStep may) s s' ∧ P s' := by
  obtain ⟨s', hs, hp⟩ := Option.any_eq_true _ _ |>.1 h
  exact ⟨s', runTasks_run hmay hs, of_decide_eq_true hp⟩

/-- The source opens, and the reads of the tasks that `bad` names fail. -/
def answerWith (bad : ℕ → Bool) (s : CopyState) (k : ℕ) : CopyIo :=
  match s.tasks[k]? with
  | some ⟨_, .copy _ remainder⟩ => ⟨3, if bad k then -1 else ((min chunksize remainder : ℕ) : ℤ), false⟩
  | _ => ⟨3, 0, false⟩

instance (s : CopyState) : Decidable s.Complete :=
  decidable_of_iff (s.remainder = 0 ∧ ∀ t ∈ s.tasks, (match t.pc with | .done _ => true | _ => false) = true) <| by
    refine and_congr_right fun _ => forall₂_congr fun t _ => ?_
    obtain ⟨cp, pc⟩ := t
    cases pc <;> simp

end Famfs

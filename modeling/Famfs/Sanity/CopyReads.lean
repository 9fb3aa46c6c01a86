import Famfs.Lib.Runs
import Famfs.Sanity.CopySteps
import Famfs.Spec.Cp

/-! What the tasks of one copy have read when they are all done. The reads of a file are at
the multiples of `chunksize`, so whether all of it was read depends on the descriptor the
tasks use and on the `pread` at each of these offsets. -/

namespace Famfs

open Relation Machine

/-- The descriptor the tasks read from: with a pool the source was closed before. -/
def FileIo.fd (io : FileIo) (threaded : Bool) : ℤ :=
  if threaded = true ∨ io.srcfd = 0 then io.reopen else io.srcfd

structure FileIo.Answers (io : FileIo) (s : CopyState) (k : ℕ) (a : CopyIo) : Prop where
  opened : a.openFd = io.reopen
  bytes : ∀ t offset remainder, s.tasks[k]? = some t → t.pc = .copy offset remainder →
    a.bytes = if 0 ≤ s.cf.srcfd ∧ io.readOk offset = true then ((min chunksize remainder : ℕ) : ℤ) else -1

def CopyJob.Ends (j : CopyJob) : Prop :=
  ReflTransGen (CopyStep j.io.Answers) (famfsCopyFileData j.threaded false j.io.srcfd j.destfd j.io.size) j.io.fin ∧
    j.io.fin.Complete

def FileIo.Good (io : FileIo) (threaded : Bool) (offset : ℕ) : Prop :=
  0 ≤ io.fd threaded ∧ io.readOk offset = true

def FileIo.Readable (io : FileIo) (threaded : Bool) : Prop :=
  ∀ offset < io.size, chunksize ∣ offset → io.Good threaded offset

/-- A read that did not fail stored the byte from the same offset of the source. -/
def FileIo.Got (io : FileIo) (threaded : Bool) (es : List CopyEvent) (x : ℕ) : Prop :=
  ∃ offset len, CopyEvent.pread offset len (some offset) ∈ es ∧ offset ≤ x ∧ x < offset + len ∧ io.Good threaded offset

def CopyJob.Whole (j : CopyJob) : Prop :=
  ∀ x < j.io.size, j.io.Got j.threaded j.io.fin.events x

/-- The result of a task whose read failed. Without a pool its source is open then. -/
def FileIo.ReadFails (io : FileIo) (threaded : Bool) (rc : ℤ) : Prop :=
  rc = -1 ∧ ¬ io.Readable threaded ∧ (threaded = false → 0 ≤ io.srcfd → 0 ≤ io.fd threaded)

structure TaskReads (io : FileIo) (threaded : Bool) (srcfd : ℤ) (es : List CopyEvent) (t : CopyTask) : Prop where
  ready : t.pc = .unlockOpen → srcfd = io.fd threaded
  loop : ∀ offset remainder, t.pc = .copy offset remainder → srcfd = io.fd threaded ∧ t.cp.offset ≤ offset ∧
    offset + remainder = t.cp.offset + t.cp.size ∧ (chunksize ∣ offset ∨ remainder = 0) ∧
    ∀ x, t.cp.offset ≤ x → x < offset → io.Got threaded es x
  good : t.pc.result = some 0 → io.fd threaded < 0 ∨ ∀ x, t.cp.Has x → io.Got threaded es x
  bad : ∀ rc, t.pc.result = some rc → rc ≠ 0 → io.ReadFails threaded rc

structure ReadInv (io : FileIo) (threaded : Bool) (s : CopyState) : Prop where
  mode : s.cf.compare = false
  tiled : Tiled threaded io.size (s.tasks.map CopyTask.cp) s.offset s.remainder
  aligned : ∀ cp ∈ s.tasks.map CopyTask.cp, chunksize ∣ cp.offset
  next : chunksize ∣ s.offset ∨ s.remainder = 0
  srcfd : s.cf.srcfd = io.fd threaded ∨ s.cf.srcfd = 0 ∧ io.fd threaded = io.reopen
  reads : ∀ offset len buf, .pread offset len buf ∈ s.events → chunksize ∣ offset ∧ len ≤ chunksize
  tasks : ∀ t ∈ s.tasks, TaskReads io threaded s.cf.srcfd s.events t
  alone : threaded = false → s.tasks.map CopyTask.cp = [⟨0, io.size⟩]
  shut : threaded = false → 0 ≤ io.srcfd → s.cf.srcfd < 0 → ∀ t ∈ s.tasks, t.pc.result = some 0

section

variable {io : FileIo} {threaded : Bool} {s s' : CopyState} {k : ℕ} {t : CopyTask} {cp : CopyData} {pc : CopyPc}
  {srcfd : ℤ} {es : List CopyEvent}

theorem FileIo.Got.mono {es' : List CopyEvent} (hsub : es ⊆ es') {x : ℕ} (h : io.Got threaded es x) :
    io.Got threaded es' x := by
  obtain ⟨offset, len, hmem, hx⟩ := h
  exact ⟨offset, len, hsub hmem, hx⟩

theorem TaskReads.mono {srcfd' : ℤ} {es' : List CopyEvent} (h : TaskReads io threaded srcfd es t) (hsub : es ⊆ es')
    (hfd : srcfd = io.fd threaded → srcfd' = io.fd threaded) : TaskReads io threaded srcfd' es' t := by
  refine ⟨fun hpc => hfd (h.ready hpc), ?_, ?_, h.bad⟩
  · intro offset remainder hpc
    obtain ⟨h1, h2, h3, h4, h5⟩ := h.loop offset remainder hpc
    exact ⟨hfd h1, h2, h3, h4, fun x hle hlt => (h5 x hle hlt).mono hsub⟩
  · intro hpc
    exact (h.good hpc).imp_right fun hall x hx => (hall x hx).mono hsub

theorem TaskReads.early (hcopy : ∀ o r, pc ≠ .copy o r) (hres : pc.result = none)
    (hready : pc = .unlockOpen → srcfd = io.fd threaded) : TaskReads io threaded srcfd es ⟨cp, pc⟩ := by
  refine ⟨hready, fun o r hpc => absurd hpc (hcopy o r), ?_, ?_⟩
  · intro h
    rw [hres] at h
    cases h
  · intro rc h
    rw [hres] at h
    cases h

theorem TaskReads.first (hfd : srcfd = io.fd threaded) (hal : chunksize ∣ cp.offset) :
    TaskReads io threaded srcfd es ⟨cp, .copy cp.offset cp.size⟩ := by
  refine ⟨by simp, ?_, by simp [CopyPc.result], by simp [CopyPc.result]⟩
  intro offset remainder hpc
  cases hpc
  exact ⟨hfd, le_rfl, rfl, Or.inl hal, fun x hle hlt => absurd hle (not_le.2 hlt)⟩

theorem TaskReads.out {rc : ℤ} (hpc : pc.result = some rc)
    (hgood : rc = 0 → io.fd threaded < 0 ∨ ∀ x, cp.Has x → io.Got threaded es x)
    (hbad : rc ≠ 0 → io.ReadFails threaded rc) : TaskReads io threaded srcfd es ⟨cp, pc⟩ := by
  refine ⟨?_, ?_, ?_, ?_⟩
  · rintro rfl
    cases hpc
  · rintro o r rfl
    cases hpc
  · intro h
    exact hgood (Option.some.inj (hpc.symm.trans h))
  · intro rc' h hne
    have hsame : rc = rc' := Option.some.inj (hpc.symm.trans h)
    exact hsame ▸ hbad (hsame ▸ hne)

theorem TaskReads.later {pc' : CopyPc} {rc : ℤ} (h : TaskReads io threaded srcfd es ⟨cp, pc⟩)
    (hpc : pc.result = some rc) (hpc' : pc'.result = some rc) : TaskReads io threaded srcfd es ⟨cp, pc'⟩ :=
  TaskReads.out hpc' (fun h0 => h.good (h0 ▸ hpc)) (h.bad rc hpc)

theorem ReadInv.step {pc' : CopyPc} {added : List CopyEvent} (hi : ReadInv io threaded s)
    (ht : s.tasks[k]? = some ⟨cp, pc⟩)
    (hrest : s'.cf.compare = s.cf.compare ∧ s'.offset = s.offset ∧ s'.remainder = s.remainder ∧
      s'.tasks = s.tasks.set k ⟨cp, pc'⟩ ∧ s'.events = s.events ++ added)
    (hfd : (s'.cf.srcfd = s.cf.srcfd ∧ (pc.result = some 0 → pc'.result = some 0)) ∨
      (s'.cf.srcfd = io.fd threaded ∧ (s'.cf.srcfd < 0 → pc'.result = some 0)))
    (hadd : ∀ offset len buf, .pread offset len buf ∈ added → chunksize ∣ offset ∧ len ≤ chunksize)
    (htask : TaskReads io threaded s'.cf.srcfd (s.events ++ added) ⟨cp, pc'⟩) : ReadInv io threaded s' := by
  obtain ⟨hmode, hoff, hrem, htasks, hev⟩ := hrest
  have hcps : s'.tasks.map CopyTask.cp = s.tasks.map CopyTask.cp := by
    rw [htasks]
    exact map_cp_set ht rfl
  refine ⟨hmode.trans hi.mode, ?_, ?_, ?_, ?_, ?_, ?_, by rw [hcps]; exact hi.alone, ?_⟩
  · rw [hcps, hoff, hrem]
    exact hi.tiled
  · rw [hcps]
    exact hi.aligned
  · rw [hoff, hrem]
    exact hi.next
  · rcases hfd with ⟨hfd, -⟩ | ⟨hfd, -⟩
    · rw [hfd]
      exact hi.srcfd
    · exact Or.inl hfd
  · intro offset len buf hmem
    rw [hev] at hmem
    rcases List.mem_append.1 hmem with hmem | hmem
    · exact hi.reads offset len buf hmem
    · exact hadd offset len buf hmem
  · intro u hu
    rw [htasks] at hu
    rw [hev]
    rcases List.mem_or_eq_of_mem_set hu with hu | rfl
    · refine (hi.tasks u hu).mono (List.subset_append_left _ _) fun h => ?_
      rcases hfd with ⟨hfd, -⟩ | ⟨hfd, -⟩
      · rw [hfd, h]
      · exact hfd
    · exact htask
  · intro hth hsrc hneg u hu
    -- without a pool the task that moved is the only one
    have hmoved : pc'.result = some 0 := by
      rcases hfd with ⟨hfd, hkeep⟩ | ⟨-, hshut⟩
      · exact hkeep (hi.shut hth hsrc (hfd ▸ hneg) _ (List.mem_of_getElem? ht))
      · exact hshut hneg
    obtain ⟨v, hv, -⟩ := List.map_eq_singleton_iff.1 (hcps.trans (hi.alone hth))
    have hmem : ⟨cp, pc'⟩ ∈ s'.tasks := by
      rw [htasks]
      exact List.mem_set (List.getElem?_eq_some_iff.1 ht).1 _
    rw [hv, List.mem_singleton] at hu hmem
    rw [hu, ← hmem]
    exact hmoved

theorem ReadInv.quiet {pc' : CopyPc} (hi : ReadInv io threaded s) (ht : s.tasks[k]? = some ⟨cp, pc⟩)
    (hrest : s'.cf.compare = s.cf.compare ∧ s'.offset = s.offset ∧ s'.remainder = s.remainder ∧
      s'.tasks = s.tasks.set k ⟨cp, pc'⟩ ∧ s'.events = s.events)
    (hfd : (s'.cf.srcfd = s.cf.srcfd ∧ (pc.result = some 0 → pc'.result = some 0)) ∨
      (s'.cf.srcfd = io.fd threaded ∧ (s'.cf.srcfd < 0 → pc'.result = some 0)))
    (htask : TaskReads io threaded s'.cf.srcfd s.events ⟨cp, pc'⟩) : ReadInv io threaded s' := by
  obtain ⟨h1, h2, h3, h4, h5⟩ := hrest
  refine hi.step ht ⟨h1, h2, h3, h4, h5.trans (List.append_nil _).symm⟩ hfd ?_ ?_
  · intro offset len buf hmem
    cases hmem
  · rwa [List.append_nil]

theorem TaskReads.read {offset remainder : ℕ} (h : TaskReads io threaded srcfd es ⟨cp, .copy offset remainder⟩)
    (hrem : 0 < remainder) (hok : io.Good threaded offset) :
    TaskReads io threaded srcfd (es ++ [.pread offset (min chunksize remainder) (some offset)])
      ⟨cp, .copy (offset + min chunksize remainder) (remainder - min chunksize remainder)⟩ := by
  obtain ⟨hfd, hlo, hend, hal, hgot⟩ := h.loop offset remainder rfl
  refine ⟨by simp, ?_, by simp [CopyPc.result], by simp [CopyPc.result]⟩
  intro o r hpc
  cases hpc
  simp only at hlo hend ⊢
  refine ⟨hfd, by omega, by omega, ?_, ?_⟩
  · by_cases hlast : remainder ≤ chunksize
    · exact Or.inr (by omega)
    · left
      rw [Nat.min_eq_left (by omega)]
      exact Nat.dvd_add (hal.resolve_right (by omega)) (Nat.dvd_refl _)
  · intro x hle hlt
    by_cases hx : x < offset
    · exact (hgot x hle hx).mono (List.subset_append_left _ _)
    · exact ⟨offset, _, List.mem_append_right _ (List.mem_singleton_self _), by omega, hlt, hok⟩

theorem ReadInv.within (hi : ReadInv io threaded s) (ht : s.tasks[k]? = some t) : t.cp.offset + t.cp.size ≤ io.size := by
  have hbelow := hi.tiled.below t.cp (List.mem_map_of_mem (List.mem_of_getElem? ht))
  have htotal := hi.tiled.total
  omega

theorem ReadInv.move {a : CopyIo} (hi : ReadInv io threaded s) (ht : s.tasks[k]? = some t)
    (hans : io.Answers s k a) (h : CopyMove s k a t s') : ReadInv io threaded s' := by
  have htask := hi.tasks t (List.mem_of_getElem? ht)
  have hal := hi.aligned t.cp (List.mem_map_of_mem (List.mem_of_getElem? ht))
  have hin := hi.within ht
  have hopen : s.cf.srcfd = 0 → a.openFd = io.fd threaded := by
    intro h0
    rw [hans.opened]
    rcases hi.srcfd with hfd | ⟨-, hfd⟩
    · have hzero : io.fd threaded = 0 := hfd.symm.trans h0
      unfold FileIo.fd at hzero ⊢
      split_ifs at hzero ⊢ with hcase
      · rfl
      · exact absurd (Or.inr hzero) hcase
    · exact hfd.symm
  cases h with
  | filesAreOpen hfds =>
    refine hi.quiet ht ⟨rfl, rfl, rfl, rfl, rfl⟩ (Or.inl ⟨rfl, nofun⟩) (TaskReads.first ?_ hal)
    rcases hi.srcfd with hfd | ⟨hfd, -⟩
    · exact hfd
    · exact absurd hfds.1 (by omega)
  | notOpen hfds =>
    exact hi.quiet ht ⟨rfl, rfl, rfl, rfl, rfl⟩ (Or.inl ⟨rfl, nofun⟩) (TaskReads.early (by simp) rfl (by simp))
  | lockOpen hmutex =>
    exact hi.quiet ht ⟨rfl, rfl, rfl, rfl, rfl⟩ (Or.inl ⟨rfl, nofun⟩) (TaskReads.early (by simp) rfl (by simp))
  | openFailed hsrc hneg =>
    refine hi.quiet ht ⟨rfl, rfl, rfl, rfl, rfl⟩ (Or.inr ⟨hopen hsrc, fun _ => rfl⟩) (TaskReads.out rfl ?_ (by simp))
    intro _
    exact Or.inl (hopen hsrc ▸ hneg)
  | opened hsrc hfd =>
    exact hi.quiet ht ⟨rfl, rfl, rfl, rfl, rfl⟩ (Or.inr ⟨hopen hsrc, fun hneg => absurd hneg (not_lt.2 hfd)⟩)
      (TaskReads.early (by simp) rfl fun _ => hopen hsrc)
  | openedBefore hsrc =>
    refine hi.quiet ht ⟨rfl, rfl, rfl, rfl, rfl⟩ (Or.inl ⟨rfl, nofun⟩) (TaskReads.early (by simp) rfl fun _ => ?_)
    rcases hi.srcfd with hfd | ⟨hfd, -⟩
    · exact hfd
    · exact absurd hfd hsrc
  | unlockOpen =>
    exact hi.quiet ht ⟨rfl, rfl, rfl, rfl, rfl⟩ (Or.inl ⟨rfl, nofun⟩) (TaskReads.first (htask.ready rfl) hal)
  | compared hmode =>
    rw [hi.mode] at hmode
    cases hmode
  | @copied cp offset hmode =>
    obtain ⟨-, -, hend, -, hgot⟩ := htask.loop offset 0 rfl
    refine hi.step ht ⟨rfl, rfl, rfl, rfl, rfl⟩ (Or.inl ⟨rfl, nofun⟩) (by simp) (TaskReads.out rfl ?_ (by simp))
    intro _
    right
    intro x hx
    exact (hgot x hx.1 (by rw [Nat.add_zero] at hend; rw [hend]; exact hx.2)).mono (List.subset_append_left _ _)
  | @readFailed cp offset remainder hrem hneg =>
    obtain ⟨hfd, hlo, hend, hal', -⟩ := htask.loop offset remainder rfl
    have hdvd : chunksize ∣ offset := hal'.resolve_right (by omega)
    have hbytes := hans.bytes _ offset remainder ht rfl
    refine hi.step ht ⟨rfl, rfl, rfl, rfl, rfl⟩ (Or.inl ⟨rfl, nofun⟩) ?_ (TaskReads.out rfl (by simp) ?_)
    · intro o len buf hmem
      cases List.mem_singleton.1 hmem
      exact ⟨hdvd, Nat.min_le_left _ _⟩
    · intro _
      refine ⟨rfl, fun hread => ?_, fun hth hsrc => ?_⟩
      · simp only at hin hend
        obtain ⟨h1, h2⟩ := hread offset (by omega) hdvd
        rw [if_pos ⟨hfd ▸ h1, h2⟩] at hbytes
        omega
      · by_contra hneg
        cases hi.shut hth hsrc (hfd ▸ not_le.1 hneg) _ (List.mem_of_getElem? ht)
  | differs hrem hmode hdiff =>
    rw [hi.mode] at hmode
    cases hmode
  | @read cp offset remainder hrem hread =>
    obtain ⟨hfd, hlo, hend, hal', -⟩ := htask.loop offset remainder rfl
    simp only at hin hend
    have hdvd : chunksize ∣ offset := hal'.resolve_right (by omega)
    have hbytes := hans.bytes _ offset remainder ht rfl
    have hok : io.Good threaded offset := by
      by_contra hnot
      rw [if_neg fun hc => hnot ⟨hfd ▸ hc.1, hc.2⟩] at hbytes
      omega
    rw [if_pos ⟨hfd ▸ hok.1, hok.2⟩] at hbytes
    have hsize := io.sizeLt
    obtain ⟨hoff, hleft⟩ := chunk_read (show offset + remainder < 2 ^ 64 by omega)
    rw [hbytes, Int.toNat_natCast, hoff, hleft, hi.mode]
    refine hi.step ht ⟨rfl, rfl, rfl, rfl, rfl⟩ (Or.inl ⟨rfl, nofun⟩) ?_ (htask.read hrem hok)
    intro o len buf hmem
    cases List.mem_singleton.1 hmem
    exact ⟨hdvd, Nat.min_le_left _ _⟩
  | lockOut hmutex => exact hi.quiet ht ⟨rfl, rfl, rfl, rfl, rfl⟩ (Or.inl ⟨rfl, id⟩) (htask.later rfl rfl)
  | dropRef => exact hi.quiet ht ⟨rfl, rfl, rfl, rfl, rfl⟩ (Or.inl ⟨rfl, id⟩) (htask.later rfl rfl)
  | unlockOut => exact hi.quiet ht ⟨rfl, rfl, rfl, rfl, rfl⟩ (Or.inl ⟨rfl, id⟩) (htask.later rfl rfl)
  | @report cp rc destp cleanup =>
    have hresult : (if cleanup then CopyPc.cleanup rc destp else .done rc).result = some rc := by cases cleanup <;> rfl
    exact hi.quiet ht ⟨rfl, rfl, rfl, rfl, rfl⟩ (Or.inl ⟨rfl, hresult.trans⟩) (htask.later rfl hresult)
  | cleanup =>
    refine hi.step ht ⟨rfl, rfl, rfl, rfl, rfl⟩ (Or.inl ⟨rfl, id⟩) (by simp) ?_
    exact (htask.later rfl rfl).mono (List.subset_append_left _ _) id

theorem ReadInv.queue (hi : ReadInv io threaded s) (hrem : 0 < s.remainder) : ReadInv io threaded (queueChunk s) := by
  have hoff : chunksize ∣ s.offset := hi.next.resolve_right (by omega)
  refine ⟨hi.mode, ?_, ?_, ?_, hi.srcfd, hi.reads, ?_, fun hth => absurd (hi.tiled.alone hth) (by omega),
    fun hth => absurd (hi.tiled.alone hth) (by omega)⟩
  · rw [queueChunk_cps]
    exact hi.tiled.queue hrem
  · rw [queueChunk_cps]
    intro cp hcp
    rcases List.mem_append.1 hcp with hcp | hcp
    · exact hi.aligned cp hcp
    · rw [List.mem_singleton.1 hcp]
      exact hoff
  · by_cases hlast : s.remainder ≤ CP_CHUNKSIZE
    · right
      simp only [queueChunk]
      omega
    · left
      simp only [queueChunk]
      rw [Nat.min_eq_right (by omega)]
      exact Nat.dvd_add hoff (by decide)
  · intro t ht
    rcases List.mem_append.1 ht with ht | ht
    · exact hi.tasks t ht
    · rw [List.mem_singleton.1 ht]
      exact TaskReads.early (by simp) rfl (by simp)

theorem readInv_start (io : FileIo) (threaded : Bool) (destfd : ℤ) :
    ReadInv io threaded (famfsCopyFileData threaded false io.srcfd destfd io.size) := by
  refine ⟨by cases threaded <;> rfl, tiled_start threaded false io.srcfd destfd io.size, ?_, ?_, ?_, ?_, ?_, ?_, ?_⟩
  · intro cp hcp
    cases threaded with
    | true => cases hcp
    | false =>
      rw [List.mem_singleton.1 hcp]
      exact Nat.dvd_zero _
  · cases threaded with
    | true => exact Or.inl (Nat.dvd_zero _)
    | false => exact Or.inr rfl
  · cases threaded with
    | true => exact Or.inr ⟨rfl, if_pos (Or.inl rfl)⟩
    | false =>
      by_cases h0 : io.srcfd = 0
      · exact Or.inr ⟨h0, if_pos (Or.inr h0)⟩
      · exact Or.inl (if_neg (by simp [h0])).symm
  · intro offset len buf hmem
    cases threaded <;> cases hmem
  · intro t ht
    cases threaded with
    | true => cases ht
    | false =>
      rw [List.mem_singleton.1 ht]
      exact TaskReads.early (by simp) rfl (by simp)
  · rintro rfl
    rfl
  · rintro rfl hsrc hneg
    exact absurd hneg (not_lt.2 hsrc)

theorem readInv_run {destfd : ℤ}
    (hrun : ReflTransGen (CopyStep io.Answers) (famfsCopyFileData threaded false io.srcfd destfd io.size) s) :
    ReadInv io threaded s := by
  refine Runs.invariant (P := ReadInv io threaded) ?_ hrun (readInv_start io threaded destfd)
  intro s s' hi hstep
  cases hstep with
  | queue hrem => exact hi.queue hrem
  | task hans hstep =>
    obtain ⟨t, ht, -, hmove⟩ := stepTask_move hstep
    exact hi.move ht hans hmove

end

section

variable {j : CopyJob} (hends : j.Ends)

include hends

theorem CopyJob.Ends.task {x : ℕ} (hx : x < j.io.size) :
    ∃ t rc, t ∈ j.io.fin.tasks ∧ t.cp.Has x ∧ t.pc.result = some rc ∧
      TaskReads j.io j.threaded j.io.fin.cf.srcfd j.io.fin.events t := by
  have hi := readInv_run hends.1
  obtain ⟨hrem, hdone⟩ := hends.2
  have htotal := hi.tiled.total
  obtain ⟨cp, hcp, hhas⟩ := hi.tiled.cover x (by omega)
  obtain ⟨t, ht, rfl⟩ := List.mem_map.1 hcp
  obtain ⟨rc, hpc⟩ := hdone t ht
  exact ⟨t, rc, ht, hhas, by rw [hpc]; rfl, hi.tasks t ht⟩

/-- A finished copy is whole if and only if nothing stood in the way of its reads. -/
theorem CopyJob.Ends.whole_iff : j.Whole ↔ j.io.Readable j.threaded := by
  constructor
  · intro hwhole offset hlt hdvd
    obtain ⟨o, len, hmem, hle, hx, hok⟩ := hwhole offset hlt
    obtain ⟨hdvd', hlen⟩ := (readInv_run hends.1).reads o len _ hmem
    -- two multiples of the unit less than one unit apart
    have hsub : chunksize ∣ offset - o := Nat.dvd_sub hdvd hdvd'
    have hsame : offset - o = 0 := Nat.eq_zero_of_dvd_of_lt hsub (by omega)
    have : o = offset := by omega
    exact this ▸ hok
  · intro hread x hx
    obtain ⟨t, rc, -, hhas, hres, htask⟩ := hends.task hx
    have hzero : rc = 0 := by
      by_contra hne
      exact (htask.bad rc hres hne).2.1 hread
    subst hzero
    rcases htask.good hres with hneg | hgot
    · exact absurd (hread 0 (by omega) (Nat.dvd_zero _)).1 (not_le.2 hneg)
    · exact hgot x hhas

theorem CopyJob.Ends.only_task (hth : j.threaded = false) :
    ∃ t, t.cp = ⟨0, j.io.size⟩ ∧ t.pc.result = some j.status ∧
      TaskReads j.io false j.io.fin.cf.srcfd j.io.fin.events t := by
  have hi := readInv_run hends.1
  rw [hth] at hi
  obtain ⟨t, htasks, hcp⟩ := List.map_eq_singleton_iff.1 (hi.alone rfl)
  have ht : t ∈ j.io.fin.tasks := by
    rw [htasks]
    exact List.mem_singleton_self t
  obtain ⟨rc, hpc⟩ := hends.2.2 t ht
  refine ⟨t, hcp, ?_, hi.tasks t ht⟩
  simp [CopyJob.status, hth, htasks, hpc, CopyPc.result]

/-- The one task reports a read that failed, but not a source that did not open again. -/
theorem CopyJob.Ends.status_eq (hth : j.threaded = false) (hsrc : 0 ≤ j.io.srcfd) :
    (j.status = 0 ∧ ¬ (0 ≤ j.io.fd false ∧ ¬ j.io.Readable false)) ∨
      (j.status = -1 ∧ 0 ≤ j.io.fd false ∧ ¬ j.io.Readable false) := by
  obtain ⟨t, hcp, hres, htask⟩ := hends.only_task hth
  by_cases h0 : j.status = 0
  · refine Or.inl ⟨h0, ?_⟩
    rintro ⟨hfd, hunread⟩
    rw [h0] at hres
    have hgot := (htask.good hres).resolve_left (not_lt.2 hfd)
    have hwhole : j.Whole := fun x hx => by
      rw [hth]
      refine hgot x ?_
      rw [hcp]
      exact ⟨Nat.zero_le x, by rwa [Nat.zero_add]⟩
    exact hunread (hth ▸ hends.whole_iff.1 hwhole)
  · obtain ⟨hminus, hunread, hfd⟩ := htask.bad _ hres h0
    exact Or.inr ⟨hminus, hfd rfl hsrc, hunread⟩

end

end Famfs

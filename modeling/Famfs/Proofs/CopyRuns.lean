import Famfs.Lib.Runs
import Famfs.Sanity.CopySteps

/-! The copy over all interleavings of its tasks. Each byte is read once, into its own
place of the mapping. Each task flushes a range as long as its own data but from the
start of the mapping, so what the flushes reach is the data of the first task: the
copy is visible exactly when there is no other. -/

namespace Famfs

open Relation Machine

variable {size : ℕ} {threaded compare : Bool} {x : ℕ} {s : CopyState} {t : CopyTask} {cp : CopyData}
variable {as bs : List CopyEvent}

/-- The event stores the byte at offset `x` of the mapping. -/
def CopyEvent.writes (x : ℕ) : CopyEvent → Bool
  | .pread _ len (some d) => d ≤ x && x < d + len
  | _ => false

def CopyEvent.flushes (x : ℕ) : CopyEvent → Bool
  | .flushProcessorCache offset len => offset ≤ x && x < offset + len
  | _ => false

/-- One event stores the byte, from the same offset of the source. -/
def ReadOnce (x : ℕ) (es : List CopyEvent) : Prop :=
  ∃ offset len, es.filter (·.writes x) = [.pread offset len (some offset)]

def Unwritten (x : ℕ) (es : List CopyEvent) : Prop :=
  es.filter (·.writes x) = []

def FlushedAfter (x : ℕ) (es : List CopyEvent) : Prop :=
  ∃ w f : CopyEvent, w.writes x = true ∧ f.flushes x = true ∧ List.Sublist [w, f] es

def Visible (compare : Bool) (size : ℕ) (es : List CopyEvent) : Prop :=
  ∀ x < size, ReadOnce x es ∧ (compare = false → FlushedAfter x es)

/-- The source opens and every read returns what was asked for. -/
def ReadsOk (s : CopyState) (k : ℕ) (io : CopyIo) : Prop :=
  0 ≤ io.openFd ∧ ∀ t offset remainder, s.tasks[k]? = some t → t.pc = .copy offset remainder →
    io.bytes = (min chunksize remainder : ℕ)

def CopyTask.progress (t : CopyTask) : ℕ :=
  match t.pc with
  | .start | .lockOpen | .openSrc | .unlockOpen => t.cp.offset
  | .copy offset _ => offset
  | _ => t.cp.offset + t.cp.size

def CopyTask.flushed (t : CopyTask) : Bool :=
  match t.pc with
  | .start | .lockOpen | .openSrc | .unlockOpen => false
  | .copy _ _ => false
  | _ => true

def CopyTask.Within (t : CopyTask) : Prop :=
  ∀ offset remainder, t.pc = .copy offset remainder →
    t.cp.offset ≤ offset ∧ offset + remainder = t.cp.offset + t.cp.size

theorem CopyTask.Within.progress_bounds (h : t.Within) :
    t.cp.offset ≤ t.progress ∧ t.progress ≤ t.cp.offset + t.cp.size := by
  obtain ⟨cp, pc⟩ := t
  cases pc with
  | copy offset remainder =>
    obtain ⟨h1, h2⟩ := h offset remainder rfl
    refine ⟨h1, ?_⟩
    rw [← h2]
    exact Nat.le_add_right offset remainder
  | _ => simp [CopyTask.progress]

theorem Unwritten.append (ha : Unwritten x as) (hb : Unwritten x bs) :
    Unwritten x (as ++ bs) := by
  rw [Unwritten, List.filter_append, ha, hb, List.append_nil]

theorem ReadOnce.append_left (ha : ReadOnce x as)
    (hb : Unwritten x bs) : ReadOnce x (as ++ bs) := by
  obtain ⟨offset, len, h⟩ := ha
  exact ⟨offset, len, by rw [List.filter_append, h, hb, List.append_nil]⟩

theorem ReadOnce.append_right (ha : Unwritten x as)
    (hb : ReadOnce x bs) : ReadOnce x (as ++ bs) := by
  obtain ⟨offset, len, h⟩ := hb
  exact ⟨offset, len, by rw [List.filter_append, ha, h, List.nil_append]⟩

theorem FlushedAfter.append {as : List CopyEvent} (h : FlushedAfter x as) (bs : List CopyEvent) :
    FlushedAfter x (as ++ bs) := by
  obtain ⟨w, f, hw, hf, hsub⟩ := h
  exact ⟨w, f, hw, hf, hsub.trans (List.sublist_append_left as bs)⟩

theorem ReadOnce.flushed {x len : ℕ} {es : List CopyEvent} (h : ReadOnce x es) (hx : x < len) :
    FlushedAfter x (es ++ [.flushProcessorCache 0 len]) := by
  obtain ⟨offset, n, h⟩ := h
  have hmem : CopyEvent.pread offset n (some offset) ∈ es.filter (·.writes x) := by
    rw [h]
    exact List.mem_singleton_self _
  obtain ⟨hin, hw⟩ := List.mem_filter.1 hmem
  refine ⟨_, .flushProcessorCache 0 len, hw, ?_, ?_⟩
  · simp [CopyEvent.flushes, hx]
  · exact (List.singleton_sublist.2 hin).append (List.Sublist.refl [CopyEvent.flushProcessorCache 0 len])

structure TaskMove (compare : Bool) (t t' : CopyTask) (added : List CopyEvent) : Prop where
  cp : t'.cp = t.cp
  within : t'.Within
  mono : t.progress ≤ t'.progress
  untouched : compare = true → ∀ x, Unwritten x added
  read : compare = false → ∀ x, t.progress ≤ x → x < t'.progress → ReadOnce x added
  unread : compare = false → ∀ x, (t.progress ≤ x → t'.progress ≤ x) → Unwritten x added
  fromStart : ∀ offset len, .flushProcessorCache offset len ∈ added → offset = 0 ∧ len = t.cp.size
  flush : compare = false → t'.flushed = true → t.flushed = true ∨
    t.progress = t.cp.offset + t.cp.size ∧ added = [.flushProcessorCache 0 t.cp.size]

theorem TaskMove.quiet (compare : Bool) {t t' : CopyTask} {added : List CopyEvent} (hcp : t'.cp = t.cp)
    (hw : t'.Within) (hp : t'.progress = t.progress) (hf : t'.flushed = t.flushed)
    (hadd : ∀ x, Unwritten x added) (hnf : ∀ offset len, .flushProcessorCache offset len ∉ added) :
    TaskMove compare t t' added := by
  refine ⟨hcp, hw, hp.ge, fun _ => hadd, ?_, fun _ x _ => hadd x, ?_, ?_⟩
  · intro _ x h1 h2
    omega
  · intro offset len h
    exact absurd h (hnf offset len)
  · intro _ h
    exact Or.inl (hf ▸ h)

theorem TaskMove.chunk {offset remainder n : ℕ} (hw : (CopyTask.mk cp (.copy offset remainder)).Within)
    (hn : n ≤ remainder) :
    TaskMove false ⟨cp, .copy offset remainder⟩ ⟨cp, .copy (offset + n) (remainder - n)⟩
      [.pread offset n (some offset)] := by
  obtain ⟨h1, h2⟩ := hw offset remainder rfl
  refine ⟨rfl, ?_, ?_, ?_, ?_, ?_, ?_, ?_⟩
  · intro o r h
    cases h
    simp only at h1 h2 ⊢
    omega
  · simp [CopyTask.progress]
  · intro h
    cases h
  · intro _ x hle hlt
    simp only [CopyTask.progress] at hle hlt
    exact ⟨offset, n, by simp [CopyEvent.writes, hle, hlt]⟩
  · intro _ x hx
    simp only [CopyTask.progress] at hx
    simp only [Unwritten, List.filter_cons, CopyEvent.writes, List.filter_nil, Bool.and_eq_true,
      decide_eq_true_eq, ite_eq_right_iff, reduceCtorEq, imp_false]
    omega
  · intro o len h
    simp at h
  · intro _ h
    cases h

theorem TaskMove.lastFlush {offset : ℕ} (hw : (CopyTask.mk cp (.copy offset 0)).Within) :
    TaskMove false ⟨cp, .copy offset 0⟩ ⟨cp, .lockOut 0⟩ [.flushProcessorCache 0 cp.size] := by
  obtain ⟨h1, h2⟩ := hw offset 0 rfl
  refine ⟨rfl, ?_, ?_, ?_, ?_, ?_, ?_, ?_⟩
  · intro o r h
    cases h
  · simpa [CopyTask.progress] using h2.le
  · intro h
    cases h
  · intro _ x hle hlt
    simp only [CopyTask.progress] at hle hlt h2
    omega
  · intro _ x _
    rfl
  · intro o len h
    simpa using h
  · intro _ _
    exact Or.inr ⟨h2, rfl⟩

theorem TaskMove.compared {pc pc' : CopyPc} {added : List CopyEvent}
    (hw : (CopyTask.mk cp pc').Within) (hp : (CopyTask.mk cp pc).progress ≤ (CopyTask.mk cp pc').progress)
    (hadd : ∀ x, Unwritten x added) (hnf : ∀ offset len, .flushProcessorCache offset len ∉ added) :
    TaskMove true ⟨cp, pc⟩ ⟨cp, pc'⟩ added := by
  refine ⟨rfl, hw, hp, fun _ => hadd, ?_, fun _ x _ => hadd x, ?_, ?_⟩
  · intro h
    cases h
  · intro offset len h
    exact absurd h (hnf offset len)
  · intro h
    cases h

theorem within_of_not_copy {pc : CopyPc} (h : ∀ offset remainder, pc ≠ .copy offset remainder) :
    (CopyTask.mk cp pc).Within := by
  intro offset remainder hpc
  exact absurd hpc (h offset remainder)

theorem within_start (cp : CopyData) : (CopyTask.mk cp (.copy cp.offset cp.size)).Within := by
  intro offset remainder h
  cases h
  exact ⟨le_rfl, rfl⟩

/-- The parts of the state that a step of task `k` leaves alone, and what it adds. -/
structure Stepped (s s' : CopyState) (k : ℕ) (t : CopyTask) : Prop where
  offset : s'.offset = s.offset
  remainder : s'.remainder = s.remainder
  mode : s'.cf.compare = s.cf.compare
  move : ∃ t' added, s'.tasks = s.tasks.set k t' ∧ s'.events = s.events ++ added ∧
    TaskMove s.cf.compare t t' added

theorem Stepped.quiet {s s' : CopyState} {k : ℕ} (pc : CopyPc)
    (hrest : s'.offset = s.offset ∧ s'.remainder = s.remainder ∧ s'.cf.compare = s.cf.compare ∧
      s'.tasks = s.tasks.set k { t with pc := pc } ∧ s'.events = s.events)
    (hw : CopyTask.Within { t with pc := pc })
    (hp : CopyTask.progress { t with pc := pc } = t.progress)
    (hf : CopyTask.flushed { t with pc := pc } = t.flushed) : Stepped s s' k t := by
  obtain ⟨hoff, hrem, hmode, htasks, hev⟩ := hrest
  refine ⟨hoff, hrem, hmode, _, [], htasks, ?_, ?_⟩
  · rw [hev, List.append_nil]
  · exact TaskMove.quiet _ rfl hw hp hf (fun _ => rfl) (by simp)

theorem CopyMove.stepped {s s' : CopyState} {k : ℕ} {io : CopyIo} (h : CopyMove s k io t s')
    (hopen : 0 ≤ io.openFd)
    (hbytes : ∀ offset remainder, t.pc = .copy offset remainder → io.bytes = (min chunksize remainder : ℕ))
    (hw : t.Within) (hlt : t.cp.offset + t.cp.size < 2 ^ 64) : Stepped s s' k t := by
  have hout : ∀ {cp pc}, (∀ o r, pc ≠ .copy o r) → (CopyTask.mk cp pc).Within := within_of_not_copy
  cases h with
  | @filesAreOpen cp hfds => exact Stepped.quiet _ ⟨rfl, rfl, rfl, rfl, rfl⟩ (within_start cp) rfl rfl
  | notOpen hfds => exact Stepped.quiet .lockOpen ⟨rfl, rfl, rfl, rfl, rfl⟩ (hout (by simp)) rfl rfl
  | lockOpen hmutex => exact Stepped.quiet .openSrc ⟨rfl, rfl, rfl, rfl, rfl⟩ (hout (by simp)) rfl rfl
  | openFailed hsrc hfd => exact absurd hopen (not_le.2 hfd)
  | opened hsrc hfd => exact Stepped.quiet .unlockOpen ⟨rfl, rfl, rfl, rfl, rfl⟩ (hout (by simp)) rfl rfl
  | openedBefore hsrc => exact Stepped.quiet .unlockOpen ⟨rfl, rfl, rfl, rfl, rfl⟩ (hout (by simp)) rfl rfl
  | @unlockOpen cp => exact Stepped.quiet _ ⟨rfl, rfl, rfl, rfl, rfl⟩ (within_start cp) rfl rfl
  | compared hmode =>
    refine ⟨rfl, rfl, rfl, _, [], rfl, (List.append_nil _).symm, ?_⟩
    rw [hmode]
    exact TaskMove.compared (hout (by simp)) hw.progress_bounds.2 (fun _ => rfl) (by simp)
  | copied hmode =>
    refine ⟨rfl, rfl, rfl, _, _, rfl, rfl, ?_⟩
    rw [hmode]
    exact TaskMove.lastFlush hw
  | @readFailed cp offset remainder hrem hneg =>
    have hio := hbytes offset remainder rfl
    omega
  | differs hrem hmode hdiff =>
    refine ⟨rfl, rfl, rfl, _, _, rfl, rfl, ?_⟩
    rw [hmode]
    exact TaskMove.compared (hout (by simp)) hw.progress_bounds.2 (fun _ => rfl) (by simp)
  | @read cp offset remainder hrem hread =>
    obtain ⟨h1, h2⟩ := hw offset remainder rfl
    simp only at h1 h2 hlt
    obtain ⟨hoff, hleft⟩ := chunk_read (show offset + remainder < 2 ^ 64 by omega)
    rw [hbytes offset remainder rfl, Int.toNat_natCast, hoff, hleft]
    refine ⟨rfl, rfl, rfl, _, _, rfl, rfl, ?_⟩
    cases hmode : s.cf.compare with
    | false => exact TaskMove.chunk hw (Nat.min_le_right _ _)
    | true =>
      refine TaskMove.compared ?_ (Nat.le_add_right _ _) (fun _ => rfl) (by simp)
      intro o r hpc
      cases hpc
      simp only
      omega
  | lockOut hmutex => exact Stepped.quiet (.dropRef _ (some 0)) ⟨rfl, rfl, rfl, rfl, rfl⟩ (hout (by simp)) rfl rfl
  | dropRef => exact Stepped.quiet (.unlockOut _ _ _) ⟨rfl, rfl, rfl, rfl, rfl⟩ (hout (by simp)) rfl rfl
  | unlockOut => exact Stepped.quiet (.report _ _ _) ⟨rfl, rfl, rfl, rfl, rfl⟩ (hout (by simp)) rfl rfl
  | @report cp rc destp cleanup =>
    cases cleanup with
    | true => exact Stepped.quiet (.cleanup rc destp) ⟨rfl, rfl, rfl, rfl, rfl⟩ (hout (by simp)) rfl rfl
    | false => exact Stepped.quiet (.done rc) ⟨rfl, rfl, rfl, rfl, rfl⟩ (hout (by simp)) rfl rfl
  | cleanup =>
    exact ⟨rfl, rfl, rfl, _, _, rfl, rfl, TaskMove.quiet _ rfl (hout (by simp)) rfl rfl (fun _ => rfl) (by simp)⟩

structure CopyInv (threaded compare : Bool) (size : ℕ) (s : CopyState) : Prop where
  mode : s.cf.compare = compare
  tiled : Tiled threaded size (s.tasks.map CopyTask.cp) s.offset s.remainder
  within : ∀ (j : ℕ) t, s.tasks[j]? = some t → t.Within
  untouched : compare = true → ∀ x, Unwritten x s.events
  unread : compare = false → ∀ x, (∀ (j : ℕ) t, s.tasks[j]? = some t → t.cp.offset ≤ x → t.progress ≤ x) →
    Unwritten x s.events
  read : compare = false → ∀ (j : ℕ) t x, s.tasks[j]? = some t → t.cp.offset ≤ x → x < t.progress →
    ReadOnce x s.events
  fromStart : ∀ offset len, .flushProcessorCache offset len ∈ s.events →
    offset = 0 ∧ ∃ cp ∈ s.tasks.map CopyTask.cp, len = cp.size
  flushed : compare = false → ∀ (j : ℕ) t x, s.tasks[j]? = some t → t.flushed = true → t.cp.Has x →
    x < t.cp.size → FlushedAfter x s.events

theorem copyInv_start (threaded compare : Bool) (srcfd destfd : ℤ) (size : ℕ) :
    CopyInv threaded compare size (famfsCopyFileData threaded compare srcfd destfd size) := by
  have htiled := tiled_start threaded compare srcfd destfd size
  have hnew : ∀ (j : ℕ) t, (famfsCopyFileData threaded compare srcfd destfd size).tasks[j]? = some t →
      t.pc = .start := by
    intro j t h
    have hmem := List.mem_of_getElem? h
    cases threaded with
    | true => cases hmem
    | false => rw [List.mem_singleton.1 hmem]
  have hev : (famfsCopyFileData threaded compare srcfd destfd size).events = [] := by
    cases threaded <;> rfl
  refine ⟨by cases threaded <;> rfl, htiled, ?_, ?_, ?_, ?_, ?_, ?_⟩
  · intro j t h offset remainder hpc
    rw [hnew j t h] at hpc
    cases hpc
  · intro _ x
    rw [hev]
    rfl
  · intro _ x _
    rw [hev]
    rfl
  · intro _ j t x h h1 h2
    rw [CopyTask.progress, hnew j t h] at h2
    exact absurd h1 (not_le.2 h2)
  · intro offset len h
    rw [hev] at h
    cases h
  · intro _ j t x h hf
    rw [CopyTask.flushed, hnew j t h] at hf
    cases hf

theorem CopyInv.has_unique
    (hi : CopyInv threaded compare size s) {i j x : ℕ} {a b : CopyTask} (ha : s.tasks[i]? = some a)
    (hb : s.tasks[j]? = some b) (hxa : a.cp.Has x) (hxb : b.cp.Has x) : i = j :=
  hi.tiled.unique (by rw [List.getElem?_map, ha]; rfl) (by rw [List.getElem?_map, hb]; rfl) hxa hxb

theorem copyInv_task {s s' : CopyState} {k : ℕ}
    (hi : CopyInv threaded compare size s) (ht : s.tasks[k]? = some t) (hst : Stepped s s' k t) :
    CopyInv threaded compare size s' := by
  obtain ⟨t', added, htasks, hev, hmove⟩ := hst.move
  rw [hi.mode] at hmove
  have hcps : s'.tasks.map CopyTask.cp = s.tasks.map CopyTask.cp := by
    rw [htasks]
    exact map_cp_set ht hmove.cp
  have hk : k < s.tasks.length := (List.getElem?_eq_some_iff.1 ht).1
  have hold : t.cp.offset ≤ t.progress := (hi.within k t ht).progress_bounds.1
  have hend : t'.progress ≤ t.cp.offset + t.cp.size := by
    have := hmove.within.progress_bounds.2
    rwa [hmove.cp] at this
  -- a byte of another task is not what this step reads
  have hother : ∀ (j : ℕ) u x, j ≠ k → s.tasks[j]? = some u → u.cp.Has x → t.progress ≤ x → t'.progress ≤ x := by
    intro j u x hjk hu hx h1
    by_contra h2
    exact hjk (hi.has_unique hu ht hx ⟨by omega, by omega⟩)
  refine ⟨hst.mode.trans hi.mode, ?_, ?_, ?_, ?_, ?_, ?_, ?_⟩
  · rw [hcps, hst.offset, hst.remainder]
    exact hi.tiled
  · intro j u hu
    rw [htasks] at hu
    rcases set_cases hu with ⟨-, rfl⟩ | ⟨-, hu⟩
    · exact hmove.within
    · exact hi.within j u hu
  · intro hc x
    rw [hev]
    exact (hi.untouched hc x).append (hmove.untouched hc x)
  · intro hc x hx
    have hx' : t.cp.offset ≤ x → t'.progress ≤ x := by
      have := hx k t' (by rw [htasks, List.getElem?_set_self hk])
      rwa [hmove.cp] at this
    rw [hev]
    apply Unwritten.append
    · apply hi.unread hc x
      intro j u hu hle
      by_cases hjk : j = k
      · subst hjk
        rw [ht] at hu
        cases hu
        exact hmove.mono.trans (hx' hle)
      · exact hx j u (by rw [htasks, List.getElem?_set_ne (Ne.symm hjk)]; exact hu) hle
    · exact hmove.unread hc x fun h => hx' (hold.trans h)
  · intro hc j u x hu hle hlt
    rw [hev]
    rw [htasks] at hu
    rcases set_cases hu with ⟨rfl, rfl⟩ | ⟨hjk, hu⟩
    · rw [hmove.cp] at hle
      by_cases hx : x < t.progress
      · exact (hi.read hc j t x ht hle hx).append_left (hmove.unread hc x fun h => absurd hx (not_lt.2 h))
      · refine ReadOnce.append_right (hi.unread hc x ?_) (hmove.read hc x (not_lt.1 hx) hlt)
        intro i v hv hvle
        by_contra hvx
        have hvend := (hi.within i v hv).progress_bounds.2
        have hij := hi.has_unique hv ht ⟨hvle, by omega⟩ ⟨hle, by omega⟩
        subst hij
        rw [ht] at hv
        cases hv
        omega
    · have huend := (hi.within j u hu).progress_bounds.2
      exact (hi.read hc j u x hu hle hlt).append_left
        (hmove.unread hc x (hother j u x hjk hu ⟨hle, by omega⟩))
  · intro offset len h
    rw [hev] at h
    rw [hcps]
    rcases List.mem_append.1 h with h | h
    · exact hi.fromStart offset len h
    · obtain ⟨h0, hlen⟩ := hmove.fromStart offset len h
      exact ⟨h0, t.cp, List.mem_map_of_mem (List.mem_of_getElem? ht), hlen⟩
  · intro hc j u x hu hf hx hlt
    rw [hev]
    rw [htasks] at hu
    rcases set_cases hu with ⟨rfl, rfl⟩ | ⟨hjk, hu⟩
    · rw [hmove.cp] at hx hlt
      rcases hmove.flush hc hf with hf | ⟨hdone, rfl⟩
      · exact (hi.flushed hc j t x ht hf hx hlt).append added
      · exact (hi.read hc j t x ht hx.1 (by rw [hdone]; exact hx.2)).flushed hlt
    · exact (hi.flushed hc j u x hu hf hx hlt).append added

theorem copyInv_queue
    (hi : CopyInv threaded compare size s) (hrem : 0 < s.remainder) :
    CopyInv threaded compare size (queueChunk s) := by
  refine ⟨hi.mode, ?_, ?_, hi.untouched, ?_, ?_, ?_, ?_⟩
  · rw [queueChunk_cps]
    exact hi.tiled.queue hrem
  · intro j t ht
    rcases queued_cases ht with ht | ⟨-, ht⟩
    · exact hi.within j t ht
    · intro offset remainder hpc
      rw [ht] at hpc
      cases hpc
  · intro hc x hx
    exact hi.unread hc x fun j t ht => hx j t (queued_old ht)
  · intro hc j t x ht hle hlt
    rcases queued_cases ht with ht | ⟨-, ht⟩
    · exact hi.read hc j t x ht hle hlt
    · rw [CopyTask.progress, ht] at hlt
      exact absurd hle (not_le.2 hlt)
  · intro offset len h
    obtain ⟨h0, cp, hcp, hlen⟩ := hi.fromStart offset len h
    rw [queueChunk_cps]
    exact ⟨h0, cp, List.mem_append_left _ hcp, hlen⟩
  · intro hc j t x ht hf hx hlt
    rcases queued_cases ht with ht | ⟨-, ht⟩
    · exact hi.flushed hc j t x ht hf hx hlt
    · rw [CopyTask.flushed, ht] at hf
      cases hf

theorem copyInv_step (hsize : size < 2 ^ 64) {s s' : CopyState}
    (hi : CopyInv threaded compare size s) (hstep : CopyStep ReadsOk s s') :
    CopyInv threaded compare size s' := by
  cases hstep with
  | queue hrem => exact copyInv_queue hi hrem
  | task hmay hstep =>
    obtain ⟨t, ht, -, h⟩ := stepTask_move hstep
    have hbelow := hi.tiled.below t.cp (List.mem_map_of_mem (List.mem_of_getElem? ht))
    have htotal := hi.tiled.total
    refine copyInv_task hi ht (h.stepped hmay.1 ?_ (hi.within _ t ht) (by omega))
    intro offset remainder hpc
    exact hmay.2 t offset remainder ht hpc

theorem copyInv_run {srcfd destfd : ℤ} (hsize : size < 2 ^ 64)
   
    (hrun : ReflTransGen (CopyStep ReadsOk) (famfsCopyFileData threaded compare srcfd destfd size) s) :
    CopyInv threaded compare size s :=
  Runs.invariant (P := CopyInv threaded compare size) (fun _ _ => copyInv_step hsize) hrun
    (copyInv_start threaded compare srcfd destfd size)

theorem CopyInv.finished
    (hi : CopyInv threaded compare size s) (hdone : s.Complete) (hx : x < size) :
    ∃ (j : ℕ) (t : CopyTask), s.tasks[j]? = some t ∧ t.cp.Has x ∧ x < t.progress ∧ t.flushed = true := by
  obtain ⟨hrem, htasks⟩ := hdone
  have htotal := hi.tiled.total
  obtain ⟨cp, hcp, hhas⟩ := hi.tiled.cover x (by omega)
  obtain ⟨t, ht, rfl⟩ := List.mem_map.1 hcp
  obtain ⟨rc, hpc⟩ := htasks t ht
  obtain ⟨j, hj, hget⟩ := List.getElem_of_mem ht
  refine ⟨j, t, ?_, hhas, ?_, ?_⟩
  · rw [List.getElem?_eq_getElem hj, hget]
  · rw [CopyTask.progress, hpc]
    exact hhas.2
  · rw [CopyTask.flushed, hpc]

theorem CopyInv.unflushed {compare : Bool} (hi : CopyInv true compare size s)
    (hx : CP_CHUNKSIZE ≤ x) : ¬ FlushedAfter x s.events := by
  rintro ⟨w, f, -, hf, hsub⟩
  have hmem : f ∈ s.events := hsub.subset (by simp)
  cases f with
  | flushProcessorCache offset len =>
    obtain ⟨rfl, cp, hcp, rfl⟩ := hi.fromStart offset len hmem
    have hsmall := hi.tiled.small rfl cp hcp
    simp only [CopyEvent.flushes, Bool.and_eq_true, decide_eq_true_eq] at hf
    omega
  | _ => cases hf

/-- When all tasks are done the copy is visible if and only if it was a copy, and not
one cut into several tasks. -/
theorem copy_visible_iff {srcfd destfd : ℤ} (hpos : 0 < size)
    (hsize : size < 2 ^ 64)
    (hrun : ReflTransGen (CopyStep ReadsOk) (famfsCopyFileData threaded compare srcfd destfd size) s)
    (hdone : s.Complete) :
    Visible compare size s.events ↔ compare = false ∧ (threaded = false ∨ size ≤ CP_CHUNKSIZE) := by
  have hi := copyInv_run hsize hrun
  constructor
  · intro hvis
    cases compare with
    | true =>
      obtain ⟨offset, len, h⟩ := (hvis 0 hpos).1
      rw [hi.untouched rfl 0] at h
      cases h
    | false =>
      refine ⟨rfl, ?_⟩
      cases threaded with
      | false => exact Or.inl rfl
      | true =>
        by_contra hbig
        push Not at hbig
        exact hi.unflushed le_rfl ((hvis CP_CHUNKSIZE hbig.2).2 rfl)
  · rintro ⟨rfl, hone⟩ x hx
    obtain ⟨j, t, ht, hhas, hread, hfl⟩ := hi.finished hdone hx
    refine ⟨hi.read rfl j t x ht hhas.1 hread, fun _ => hi.flushed rfl j t x ht hfl hhas ?_⟩
    have hcp := List.mem_map_of_mem (f := CopyTask.cp) (List.mem_of_getElem? ht)
    have hbelow := hi.tiled.below t.cp hcp
    have htotal := hi.tiled.total
    obtain ⟨h1, h2⟩ := hhas
    rcases hi.tiled.heads t.cp hcp with h0 | ⟨hth, hge⟩
    · omega
    · rcases hone with hone | hone
      · rw [hone] at hth
        cases hth
      · omega

theorem answerWith_readsOk (s : CopyState) (k : ℕ) : ReadsOk s k (answerWith (fun _ => false) s k) := by
  constructor
  · simp only [answerWith]
    split <;> norm_num
  · intro t offset remainder ht hpc
    obtain ⟨cp, pc⟩ := t
    simp only at hpc
    subst hpc
    simp only [answerWith, ht]
    rfl

/-- A pool copies two megabytes and a byte in one task, with three reads. -/
theorem copy_visible_iff_three_reads :
    ∃ s, ReflTransGen (CopyStep ReadsOk) (famfsCopyFileData true false 3 4 (2 * chunksize + 1)) s ∧ s.Complete ∧
      s.events.length = 6 ∧ Visible false (2 * chunksize + 1) s.events := by
  obtain ⟨s, hrun, hdone, hevents⟩ := run_of_schedule ReadsOk _ answerWith_readsOk (none :: List.replicate 13 (some 0))
    (s := famfsCopyFileData true false 3 4 (2 * chunksize + 1))
    (P := fun s => s.Complete ∧ s.events.length = 6) (by decide +kernel)
  exact ⟨s, hrun, hdone, hevents, (copy_visible_iff (by decide) (by decide) hrun hdone).2 ⟨rfl, Or.inr (by decide)⟩⟩

/-- The one byte after the first 128 MiB is copied by the second task and never flushed. -/
theorem copy_tail_not_visible :
    ∃ s, ReflTransGen (CopyStep ReadsOk) (famfsCopyFileData true false 3 4 (CP_CHUNKSIZE + 1)) s ∧
      s.Complete ∧ ¬ Visible false (CP_CHUNKSIZE + 1) s.events := by
  obtain ⟨s, hrun, hdone⟩ := run_of_schedule ReadsOk _ answerWith_readsOk
    ([none, none] ++ List.replicate 137 (some 0) ++ List.replicate 11 (some 1))
    (s := famfsCopyFileData true false 3 4 (CP_CHUNKSIZE + 1)) (P := CopyState.Complete) (by decide +kernel)
  refine ⟨s, hrun, hdone, fun hvis => ?_⟩
  have hi := copyInv_run (by decide) hrun
  exact hi.unflushed le_rfl ((hvis CP_CHUNKSIZE (Nat.lt_succ_self _)).2 rfl)

end Famfs

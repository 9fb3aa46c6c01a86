import Famfs.Lib.Runs
import Famfs.Sanity.CopySteps

/-! Who frees the `copy_files` that the tasks of a copy share. Each task drops its reference
under the mutex, and the one whose decrement gives zero frees the structure, once. A task
that failed reads the structure again after it unlocked, for its error message, and the
`munmap` before the free is as long as the last task's chunk. -/

namespace Famfs

open Relation Machine

variable {threaded compare : Bool} {may : CopyState → ℕ → CopyIo → Prop}

def CopyPc.holdsRef : CopyPc → Bool
  | .unlockOut _ _ _ => false
  | .report _ _ _ => false
  | .cleanup _ _ => false
  | .done _ => false
  | _ => true

/-- The task's own decrement gave zero, and it has not freed the structure yet. -/
def CopyPc.lastRef : CopyPc → Bool
  | .unlockOut _ _ last => last
  | .report _ _ last => last
  | .cleanup _ _ => true
  | _ => false

def CopyPc.inLock : CopyPc → Bool
  | .openSrc => true
  | .unlockOpen => true
  | .dropRef _ _ => true
  | .unlockOut _ _ _ => true
  | _ => false

def CopyState.LastRef (s : CopyState) (k : ℕ) : Prop :=
  ∃ t, s.tasks[k]? = some t ∧ t.pc.lastRef = true

/-- Some task's next step reads or writes the structure after the free. -/
def CopyState.UsesFreed (s : CopyState) : Prop :=
  ∃ k io, stepTask s k io = some (.error .useAfterFree)

/-- Every byte of the mapping was in an `munmap` of it. -/
def Unmapped (size : ℕ) (es : List CopyEvent) : Prop :=
  ∀ x < size, ∃ len, .munmap (some 0) len ∈ es ∧ x < len

/-- The structure is freed at most once, by the task whose decrement gave zero, and when all
tasks are done it was freed. -/
structure ReleasedOnce (s : CopyState) : Prop where
  once : s.events.count .freeCf = if s.freed = true then 1 else 0
  last : s.cf.refcount = 0 ↔ s.freed = true ∨ ∃ k, s.LastRef k
  only : ∀ j k, s.LastRef j → s.LastRef k → j = k
  frees : ∀ k io s', stepTask s k io = some (.ok s') → s.freed = false → s'.freed = true → s.LastRef k
  complete : s.Complete → s.freed = true

structure Locked (s : CopyState) : Prop where
  iff : ∀ k t, s.tasks[k]? = some t → (t.pc.inLock = true ↔ s.mutex = some k)
  owner : ∀ k, s.mutex = some k → k < s.tasks.length

inductive LockMove (k : ℕ) : Option ℕ → CopyPc → Option ℕ → CopyPc → Prop
  | same {m : Option ℕ} {pc pc' : CopyPc} (h : pc'.inLock = pc.inLock) : LockMove k m pc m pc'
  | lock {pc pc' : CopyPc} (h : pc'.inLock = true) : LockMove k none pc (some k) pc'
  | unlock {m : Option ℕ} {pc pc' : CopyPc} (h : pc.inLock = true) (h' : pc'.inLock = false) : LockMove k m pc none pc'

section

variable {s s' : CopyState} {k : ℕ} {cp : CopyData} {pc pc' : CopyPc} {io : CopyIo} {t : CopyTask}

theorem Locked.step (hl : Locked s) (ht : s.tasks[k]? = some ⟨cp, pc⟩) (htasks : s'.tasks = s.tasks.set k ⟨cp, pc'⟩)
    (hm : LockMove k s.mutex pc s'.mutex pc') : Locked s' := by
  have hk : k < s.tasks.length := (List.getElem?_eq_some_iff.1 ht).1
  have hself := hl.iff k _ ht
  refine ⟨?_, ?_⟩
  · intro j u hu
    rw [htasks] at hu
    generalize hmutex : s.mutex = m at hm hself
    generalize hmutex' : s'.mutex = m' at hm
    rcases set_cases hu with ⟨rfl, rfl⟩ | ⟨hjk, hu⟩
    · cases hm with
      | same h => rwa [h]
      | lock h => simp [h]
      | unlock h h' => simp [h']
    · have hother := hl.iff j u hu
      rw [hmutex] at hother
      cases hm with
      | same h => exact hother
      | lock h => rw [hother]; simp [Ne.symm hjk]
      | unlock h h' =>
        rw [hself.1 h] at hother
        rw [hother]
        simp [Ne.symm hjk]
  · intro j hj
    rw [htasks, List.length_set]
    generalize hmutex : s.mutex = m at hm
    generalize hmutex' : s'.mutex = m' at hm hj
    cases hm with
    | same h => exact hl.owner j (hmutex.trans hj)
    | lock h => cases hj; exact hk
    | unlock h h' => cases hj

theorem lastRef_set {j : ℕ} (ht : s.tasks[k]? = some ⟨cp, pc⟩) (htasks : s'.tasks = s.tasks.set k ⟨cp, pc'⟩) :
    s'.LastRef j ↔ (j = k ∧ pc'.lastRef = true) ∨ (j ≠ k ∧ s.LastRef j) := by
  have hk : k < s.tasks.length := (List.getElem?_eq_some_iff.1 ht).1
  unfold CopyState.LastRef
  rw [htasks]
  by_cases hjk : j = k
  · subst hjk
    simp [List.getElem?_set_self hk]
  · simp [List.getElem?_set_ne (Ne.symm hjk), hjk]

def CopyState.refs (s : CopyState) : ℕ := s.tasks.countP (·.pc.holdsRef)

theorem refs_set (ht : s.tasks[k]? = some ⟨cp, pc⟩) (htasks : s'.tasks = s.tasks.set k ⟨cp, pc'⟩) :
    s'.refs + (if pc.holdsRef = true then 1 else 0) = s.refs + if pc'.holdsRef = true then 1 else 0 := by
  obtain ⟨hk, hget⟩ := List.getElem?_eq_some_iff.1 ht
  unfold CopyState.refs
  rw [htasks, List.countP_set hk, hget]
  by_cases hpc : pc.holdsRef = true
  · have hpos : 0 < s.tasks.countP (·.pc.holdsRef) := List.countP_pos_iff.2 ⟨_, List.mem_of_getElem? ht, hpc⟩
    simp only [hpc, if_true]
    omega
  · simp only [hpc, Bool.false_eq_true, if_false]
    omega

theorem refs_pos (ht : s.tasks[k]? = some t) (hpc : t.pc.holdsRef = true) : 0 < s.refs :=
  List.countP_pos_iff.2 ⟨t, List.mem_of_getElem? ht, hpc⟩

structure RefInv (s : CopyState) : Prop where
  locked : Locked s
  count : s.cf.refcount = ((s.refs + divUp s.remainder CP_CHUNKSIZE : ℕ) : ℤ)
  frees : s.events.count .freeCf = if s.freed = true then 1 else 0
  zero : s.cf.refcount = 0 → s.freed = true ∨ ∃ k, s.LastRef k
  last : ∀ k, s.LastRef k → s.cf.refcount = 0 ∧ s.freed = false ∧ ∀ j, s.LastRef j → j = k
  freed : s.freed = true → s.cf.refcount = 0
  sees : ∀ (k : ℕ) cp rc destp last, s.tasks[k]? = some ⟨cp, .unlockOut rc destp last⟩ →
    last = decide (s.cf.refcount = 0)

theorem RefInv.quiet (hi : RefInv s) (ht : s.tasks[k]? = some ⟨cp, pc⟩)
    (hrest : s'.cf.refcount = s.cf.refcount ∧ s'.freed = s.freed ∧ s'.remainder = s.remainder ∧
      s'.tasks = s.tasks.set k ⟨cp, pc'⟩ ∧ s'.events.count .freeCf = s.events.count .freeCf)
    (hm : LockMove k s.mutex pc s'.mutex pc') (hholds : pc'.holdsRef = pc.holdsRef) (hlast : pc'.lastRef = pc.lastRef)
    (hpc' : ∀ rc destp last, pc' ≠ .unlockOut rc destp last) : RefInv s' := by
  obtain ⟨hcount, hfreed, hrem, htasks, hev⟩ := hrest
  have hsame : ∀ j, s'.LastRef j ↔ s.LastRef j := by
    intro j
    rw [lastRef_set ht htasks, hlast]
    by_cases hjk : j = k
    · subst hjk
      simp [CopyState.LastRef, ht]
    · simp [hjk]
  have hrefs : s'.refs = s.refs := by
    have := refs_set ht htasks
    rw [hholds] at this
    omega
  refine ⟨hi.locked.step ht htasks hm, ?_, ?_, ?_, ?_, ?_, ?_⟩
  · rw [hcount, hrefs, hrem]
    exact hi.count
  · rw [hev, hfreed]
    exact hi.frees
  · rw [hcount, hfreed]
    simpa only [hsame] using hi.zero
  · rw [hcount, hfreed]
    simpa only [hsame] using hi.last
  · rw [hcount, hfreed]
    exact hi.freed
  · intro j cp' rc destp last hj
    rw [htasks] at hj
    rw [hcount]
    rcases set_cases hj with ⟨-, heq⟩ | ⟨-, hj⟩
    · injection heq with h1 h2
      exact absurd h2.symm (hpc' rc destp last)
    · exact hi.sees j cp' rc destp last hj

theorem RefInv.dropRef {rc : ℤ} {destp : Option ℕ} (hi : RefInv s) (ht : s.tasks[k]? = some ⟨cp, .dropRef rc destp⟩)
    (hrest : s'.cf.refcount = s.cf.refcount - 1 ∧ s'.freed = s.freed ∧ s'.remainder = s.remainder ∧
      s'.mutex = s.mutex ∧ s'.events = s.events ∧
      s'.tasks = s.tasks.set k ⟨cp, .unlockOut rc destp (s.cf.refcount - 1 = 0)⟩) : RefInv s' := by
  obtain ⟨hdrop, hfreed, hrem, hmutex, hev, htasks⟩ := hrest
  have hpos := refs_pos ht rfl
  have hcount := hi.count
  have hne : s.cf.refcount ≠ 0 := by omega
  have hnolast : ∀ j, ¬ s.LastRef j := fun j hj => hne (hi.last j hj).1
  have hnotfreed : s.freed = false := by
    rw [← Bool.not_eq_true]
    exact fun hf => hne (hi.freed hf)
  have hlast : ∀ j, s'.LastRef j ↔ j = k ∧ s.cf.refcount - 1 = 0 := by
    intro j
    rw [lastRef_set ht htasks]
    simp [CopyPc.lastRef, hnolast j]
  have hrefs := refs_set ht htasks
  simp only [CopyPc.holdsRef, if_true, Bool.false_eq_true, if_false] at hrefs
  have hlock : LockMove k s.mutex (.dropRef rc destp) s'.mutex (.unlockOut rc destp (s.cf.refcount - 1 = 0)) := by
    rw [hmutex]
    exact .same rfl
  refine ⟨hi.locked.step ht htasks hlock, ?_, ?_, ?_, ?_, ?_, ?_⟩
  · rw [hrem, hdrop]
    omega
  · rw [hev, hfreed]
    exact hi.frees
  · intro h0
    exact Or.inr ⟨k, (hlast k).2 ⟨rfl, by omega⟩⟩
  · intro j hj
    obtain ⟨rfl, h0⟩ := (hlast j).1 hj
    exact ⟨hdrop.trans h0, hfreed.trans hnotfreed, fun i hi => ((hlast i).1 hi).1⟩
  · intro hf
    rw [hfreed, hnotfreed] at hf
    cases hf
  · intro j cp' rc' destp' last hj
    rw [htasks] at hj
    rw [hdrop]
    rcases set_cases hj with ⟨-, heq⟩ | ⟨hjk, hj⟩
    · injection heq with h1 h2
      injection h2
    · -- this task holds the mutex, so no other is about to unlock it
      have h1 := (hi.locked.iff j _ hj).1 rfl
      have h2 := (hi.locked.iff k _ ht).1 rfl
      rw [h1] at h2
      exact absurd (Option.some.inj h2) hjk

theorem RefInv.cleanup {rc : ℤ} {destp : Option ℕ} {len : ℕ} (hi : RefInv s) (ht : s.tasks[k]? = some ⟨cp, .cleanup rc destp⟩)
    (hrest : s'.cf = s.cf ∧ s'.freed = true ∧ s'.remainder = s.remainder ∧ s'.mutex = s.mutex ∧
      s'.events = s.events ++ [.munmap destp len, .freeCf] ∧ s'.tasks = s.tasks.set k ⟨cp, .done rc⟩) : RefInv s' := by
  obtain ⟨hcf, hfreed, hrem, hmutex, hev, htasks⟩ := hrest
  obtain ⟨hzero, hnotfreed, honly⟩ := hi.last k ⟨_, ht, rfl⟩
  have hnolast : ∀ j, ¬ s'.LastRef j := by
    intro j
    rw [lastRef_set ht htasks]
    rintro (⟨-, h⟩ | ⟨hjk, h⟩)
    · cases h
    · exact hjk (honly j h)
  have hrefs := refs_set ht htasks
  simp only [CopyPc.holdsRef, Bool.false_eq_true, if_false] at hrefs
  have hlock : LockMove k s.mutex (.cleanup rc destp) s'.mutex (.done rc) := by
    rw [hmutex]
    exact .same rfl
  refine ⟨hi.locked.step ht htasks hlock, ?_, ?_, ?_, ?_, ?_, ?_⟩
  · have hsame : s'.refs = s.refs := by omega
    rw [hsame, hrem, hcf]
    exact hi.count
  · rw [hev, List.count_append, hi.frees, hnotfreed, hfreed]
    simp
  · intro _
    exact Or.inl hfreed
  · intro j hj
    exact absurd hj (hnolast j)
  · intro _
    rw [hcf]
    exact hzero
  · intro j cp' rc' destp' last hj
    rw [htasks] at hj
    rw [hcf]
    rcases set_cases hj with ⟨-, heq⟩ | ⟨hjk, hj⟩
    · injection heq with h1 h2
      cases h2
    · exact hi.sees j cp' rc' destp' last hj

theorem RefInv.move (hi : RefInv s) (ht : s.tasks[k]? = some t) (h : CopyMove s k io t s') : RefInv s' := by
  cases h with
  | filesAreOpen hfds => exact hi.quiet ht ⟨rfl, rfl, rfl, rfl, rfl⟩ (.same rfl) rfl rfl (by simp)
  | notOpen hfds => exact hi.quiet ht ⟨rfl, rfl, rfl, rfl, rfl⟩ (.same rfl) rfl rfl (by simp)
  | lockOpen hmutex => exact hi.quiet ht ⟨rfl, rfl, rfl, rfl, rfl⟩ (hmutex ▸ .lock rfl) rfl rfl (by simp)
  | openFailed hsrc hfd => exact hi.quiet ht ⟨rfl, rfl, rfl, rfl, rfl⟩ (.same rfl) rfl rfl (by simp)
  | opened hsrc hfd => exact hi.quiet ht ⟨rfl, rfl, rfl, rfl, rfl⟩ (.same rfl) rfl rfl (by simp)
  | openedBefore hsrc => exact hi.quiet ht ⟨rfl, rfl, rfl, rfl, rfl⟩ (.same rfl) rfl rfl (by simp)
  | unlockOpen => exact hi.quiet ht ⟨rfl, rfl, rfl, rfl, rfl⟩ (.unlock rfl rfl) rfl rfl (by simp)
  | compared hmode => exact hi.quiet ht ⟨rfl, rfl, rfl, rfl, rfl⟩ (.same rfl) rfl rfl (by simp)
  | copied hmode => exact hi.quiet ht ⟨rfl, rfl, rfl, rfl, by simp [CopyState.emit, CopyState.jump]⟩ (.same rfl) rfl rfl (by simp)
  | readFailed hrem hbytes => exact hi.quiet ht ⟨rfl, rfl, rfl, rfl, by simp [CopyState.emit, CopyState.jump]⟩ (.same rfl) rfl rfl (by simp)
  | differs hrem hmode => exact hi.quiet ht ⟨rfl, rfl, rfl, rfl, by simp [CopyState.emit, CopyState.jump]⟩ (.same rfl) rfl rfl (by simp)
  | read hrem hbytes => exact hi.quiet ht ⟨rfl, rfl, rfl, rfl, by simp [CopyState.emit, CopyState.jump]⟩ (.same rfl) rfl rfl (by simp)
  | lockOut hmutex => exact hi.quiet ht ⟨rfl, rfl, rfl, rfl, rfl⟩ (hmutex ▸ .lock rfl) rfl rfl (by simp)
  | dropRef => exact hi.dropRef ht ⟨rfl, rfl, rfl, rfl, rfl, rfl⟩
  | unlockOut => exact hi.quiet ht ⟨rfl, rfl, rfl, rfl, rfl⟩ (.unlock rfl rfl) rfl rfl (by simp)
  | @report cp rc destp last =>
    cases last with
    | true => exact hi.quiet ht ⟨rfl, rfl, rfl, rfl, rfl⟩ (.same rfl) rfl rfl (by simp)
    | false => exact hi.quiet ht ⟨rfl, rfl, rfl, rfl, rfl⟩ (.same rfl) rfl rfl (by simp)
  | cleanup => exact hi.cleanup ht ⟨rfl, rfl, rfl, rfl, rfl, rfl⟩

theorem RefInv.queue (hi : RefInv s) (hrem : 0 < s.remainder) : RefInv (queueChunk s) := by
  have hlast : ∀ j, (queueChunk s).LastRef j ↔ s.LastRef j := by
    intro j
    constructor
    · rintro ⟨u, hu, hpc⟩
      rcases queued_cases hu with hu | ⟨-, hstart⟩
      · exact ⟨u, hu, hpc⟩
      · rw [hstart] at hpc
        cases hpc
    · rintro ⟨u, hu, hpc⟩
      exact ⟨u, queued_old hu, hpc⟩
  refine ⟨⟨?_, ?_⟩, ?_, hi.frees, ?_, ?_, hi.freed, ?_⟩
  · intro j u hu
    rcases queued_cases hu with hu | ⟨rfl, hstart⟩
    · exact hi.locked.iff j u hu
    · rw [hstart]
      refine iff_of_false Bool.false_ne_true fun howner => ?_
      exact absurd (hi.locked.owner _ howner) (lt_irrefl _)
  · intro j hj
    have := hi.locked.owner j hj
    simp only [queueChunk, List.length_append, List.length_singleton]
    omega
  · have hrefs : (queueChunk s).refs = s.refs + 1 := by
      simp [CopyState.refs, queueChunk, CopyPc.holdsRef]
    have hcut : divUp s.remainder CP_CHUNKSIZE = divUp (queueChunk s).remainder CP_CHUNKSIZE + 1 :=
      divUp_sub_min (by decide) hrem
    have hcount := hi.count
    have hcf : (queueChunk s).cf = s.cf := rfl
    rw [hcf, hcount, hrefs, hcut]
    omega
  · simp only [hlast]
    exact hi.zero
  · simp only [hlast]
    exact hi.last
  · intro j cp rc destp last hj
    rcases queued_cases hj with hj | ⟨-, hstart⟩
    · exact hi.sees j cp rc destp last hj
    · cases hstart

def CountFits (threaded : Bool) (size : ℕ) : Prop :=
  threaded = true → size ≤ (2 ^ 31 - 1) * CP_CHUNKSIZE

theorem refInv_start {srcfd destfd : ℤ} {size : ℕ} (hpos : 0 < size)
    (hfits : CountFits threaded size) : RefInv (famfsCopyFileData threaded compare srcfd destfd size) := by
  cases threaded with
  | true =>
    have hsize := hfits rfl
    have hcp : CP_CHUNKSIZE = 2 ^ 27 := rfl
    have hu64 : u64 (size + CP_CHUNKSIZE - 1) = size + CP_CHUNKSIZE - 1 := u64_of_lt (by omega)
    have hle : divUp size CP_CHUNKSIZE ≤ 2 ^ 31 - 1 := (divUp_le (by decide)).2 hsize
    have hn : s32 (u64 (size + CP_CHUNKSIZE - 1) / CP_CHUNKSIZE) = (divUp size CP_CHUNKSIZE : ℕ) := by
      rw [hu64]
      exact s32_of_lt (by unfold divUp at hle; omega)
    have hnone : ∀ k, ¬ (famfsCopyFileData true compare srcfd destfd size).LastRef k := by
      rintro k ⟨t, ht, -⟩
      cases ht
    have hne : 0 < divUp size CP_CHUNKSIZE := divUp_pos (by decide) hpos
    refine ⟨⟨?_, ?_⟩, ?_, rfl, ?_, ?_, ?_, ?_⟩
    · intro k t ht
      cases ht
    · intro k hk
      cases hk
    · rw [← Nat.zero_add (divUp _ _)] at hn
      exact hn
    · intro h0
      rw [famfsCopyFileData, if_pos rfl] at h0
      simp only [hn] at h0
      omega
    · intro k hk
      exact absurd hk (hnone k)
    · intro hf
      cases hf
    · intro k cp rc destp last ht
      cases ht
  | false =>
    have htask : ∀ (k : ℕ) t, (famfsCopyFileData false compare srcfd destfd size).tasks[k]? = some t → t.pc = .start := by
      intro k t ht
      rw [List.mem_singleton.1 (List.mem_of_getElem? ht)]
    refine ⟨⟨?_, ?_⟩, ?_, rfl, ?_, ?_, ?_, ?_⟩
    · intro k t ht
      rw [htask k t ht]
      exact iff_of_false Bool.false_ne_true (by simp [famfsCopyFileData])
    · intro k hk
      cases hk
    · change (1 : ℤ) = ((1 + divUp 0 CP_CHUNKSIZE : ℕ) : ℤ)
      rw [divUp_zero (by decide)]
      rfl
    · intro h0
      cases h0
    · rintro k ⟨t, ht, hlast⟩
      rw [htask k t ht] at hlast
      cases hlast
    · intro hf
      cases hf
    · intro k cp rc destp last ht
      cases htask k _ ht

theorem refInv_run {srcfd destfd : ℤ} {size : ℕ}
    (hpos : 0 < size) (hfits : CountFits threaded size)
    (hrun : ReflTransGen (CopyStep may) (famfsCopyFileData threaded compare srcfd destfd size) s) : RefInv s := by
  refine Runs.invariant (P := RefInv) ?_ hrun (refInv_start hpos hfits)
  intro s s' hi hstep
  cases hstep with
  | queue hrem => exact hi.queue hrem
  | task hmay hstep =>
    obtain ⟨t, ht, -, hmove⟩ := stepTask_move hstep
    exact hi.move ht hmove

theorem RefInv.releasedOnce (hi : RefInv s) : ReleasedOnce s := by
  refine ⟨hi.frees, ?_, ?_, ?_, ?_⟩
  · constructor
    · exact hi.zero
    · rintro (hf | ⟨k, hk⟩)
      · exact hi.freed hf
      · exact (hi.last k hk).1
  · intro j k hj hk
    exact (hi.last k hk).2.2 j hj
  · intro k io s' hstep hbefore hafter
    obtain ⟨t, ht, -, hmove⟩ := stepTask_move hstep
    cases hmove with
    | cleanup => exact ⟨_, ht, rfl⟩
    | _ =>
      change s.freed = true at hafter
      rw [hbefore] at hafter
      cases hafter
  · rintro ⟨hrem, hdone⟩
    have hrefs : s.refs = 0 := by
      refine List.countP_eq_zero.2 fun t ht => ?_
      obtain ⟨rc, hpc⟩ := hdone t ht
      simp [hpc, CopyPc.holdsRef]
    have hcount := hi.count
    rw [hrefs, hrem, divUp_zero (by decide)] at hcount
    rcases hi.zero hcount with hf | ⟨k, t, ht, hlast⟩
    · exact hf
    · obtain ⟨rc, hpc⟩ := hdone t (List.mem_of_getElem? ht)
      rw [hpc] at hlast
      cases hlast

theorem copyFileData_ne_freed : copyFileData s k t io ≠ some (.error .useAfterFree) := by
  obtain ⟨cp, pc⟩ := t
  cases pc with
  | copy offset remainder =>
    simp only [copyFileData, copyChunk, ne_eq, Option.some.injEq]
    split_ifs <;> simp
  | openSrc =>
    simp only [copyFileData]
    split_ifs <;> simp
  | lockOpen =>
    simp only [copyFileData]
    split_ifs <;> simp
  | lockOut rc =>
    simp only [copyFileData]
    split_ifs <;> simp
  | _ => simp [copyFileData]

theorem usesFreed_iff : s.UsesFreed ↔ s.freed = true ∧ ∃ t ∈ s.tasks, t.pc.touchesCf = true := by
  constructor
  · rintro ⟨k, io, hstep⟩
    simp only [stepTask] at hstep
    cases htask : s.tasks[k]? with
    | none =>
      simp only [htask] at hstep
      cases hstep
    | some t =>
      simp only [htask] at hstep
      split_ifs at hstep with hfreed
      · exact ⟨hfreed.1, t, List.mem_of_getElem? htask, hfreed.2⟩
      · exact absurd hstep copyFileData_ne_freed
  · rintro ⟨hfreed, t, ht, htouch⟩
    obtain ⟨k, hk⟩ := List.mem_iff_getElem?.1 ht
    refine ⟨k, ⟨0, 0, false⟩, ?_⟩
    simp only [stepTask, hk]
    rw [if_pos ⟨hfreed, htouch⟩]

theorem RefInv.usesFreed_iff_failed (hi : RefInv s) (hfreed : s.freed = true) :
    s.UsesFreed ↔ ∃ t ∈ s.tasks, ∃ rc destp, t.pc = .report rc destp false ∧ rc ≠ 0 := by
  rw [usesFreed_iff]
  have hzero := hi.freed hfreed
  have hrefs : s.refs = 0 := by
    have := hi.count
    omega
  have hholds : ∀ t ∈ s.tasks, t.pc.holdsRef = false := by
    intro t ht
    simpa using List.countP_eq_zero.1 hrefs t ht
  have hlast : ∀ t ∈ s.tasks, t.pc.lastRef = false := by
    intro t ht
    obtain ⟨k, hk⟩ := List.mem_iff_getElem?.1 ht
    rw [← Bool.not_eq_true]
    intro hl
    have := (hi.last k ⟨t, hk, hl⟩).2.1
    rw [hfreed] at this
    cases this
  constructor
  · rintro ⟨-, t, ht, htouch⟩
    have h1 := hholds t ht
    have h2 := hlast t ht
    obtain ⟨k, hk⟩ := List.mem_iff_getElem?.1 ht
    obtain ⟨cp, pc⟩ := t
    cases pc with
    | unlockOut rc destp last =>
      have hsees := hi.sees k cp rc destp last hk
      rw [hzero] at hsees
      rw [hsees] at h2
      cases h2
    | report rc destp last =>
      have hfalse : last = false := h2
      subst hfalse
      exact ⟨_, ht, rc, destp, rfl, by simpa [CopyPc.touchesCf] using htouch⟩
    | cleanup rc destp => cases h2
    | done rc => cases htouch
    | _ => cases h1
  · rintro ⟨t, ht, rc, destp, hpc, hrc⟩
    refine ⟨hfreed, t, ht, ?_⟩
    rw [hpc]
    simpa [CopyPc.touchesCf] using hrc

/-- No read fails, and in compare mode no chunk differs. -/
def NoFailure (s : CopyState) (k : ℕ) (io : CopyIo) : Prop :=
  ∀ t offset remainder, s.tasks[k]? = some t → t.pc = .copy offset remainder →
    0 ≤ io.bytes ∧ (s.cf.compare = true → io.differs = false)

/-- Every task that is on its way out has the result 0. -/
def AllFine (s : CopyState) : Prop :=
  ∀ t ∈ s.tasks, ∀ rc, t.pc.result = some rc → rc = 0

theorem AllFine.set (ha : AllFine s) (htasks : s'.tasks = s.tasks.set k ⟨cp, pc'⟩)
    (hpc' : ∀ rc, pc'.result = some rc → rc = 0) : AllFine s' := by
  intro t ht
  rw [htasks] at ht
  rcases List.mem_or_eq_of_mem_set ht with ht | rfl
  · exact ha t ht
  · exact hpc'

theorem AllFine.move (ha : AllFine s) (ht : s.tasks[k]? = some t) (hok : NoFailure s k io) (h : CopyMove s k io t s') :
    AllFine s' := by
  have hself := ha t (List.mem_of_getElem? ht)
  cases h with
  | readFailed hrem hbytes => exact absurd (hok _ _ _ ht rfl).1 (not_le.2 hbytes)
  | differs hrem hmode hdiff =>
    rw [(hok _ _ _ ht rfl).2 hmode] at hdiff
    cases hdiff
  | openFailed hsrc hfd => exact ha.set rfl (by simp [CopyPc.result])
  | compared hmode => exact ha.set rfl (by simp [CopyPc.result])
  | copied hmode => exact ha.set rfl (by simp [CopyPc.result])
  | lockOut hmutex => exact ha.set rfl hself
  | dropRef => exact ha.set rfl hself
  | unlockOut => exact ha.set rfl hself
  | @report cp rc destp last =>
    cases last with
    | true => exact ha.set rfl hself
    | false => exact ha.set rfl hself
  | cleanup => exact ha.set rfl hself
  | _ => exact ha.set rfl (by simp [CopyPc.result])

theorem allFine_run {srcfd destfd : ℤ} {size : ℕ}
    (hrun : ReflTransGen (CopyStep NoFailure) (famfsCopyFileData threaded compare srcfd destfd size) s) : AllFine s := by
  refine Runs.invariant (P := AllFine) ?_ hrun ?_
  · intro s s' ha hstep
    cases hstep with
    | queue hrem =>
      intro t ht
      rcases List.mem_append.1 ht with ht | ht
      · exact ha t ht
      · rw [List.mem_singleton.1 ht]
        simp [CopyPc.result]
    | task hok hstep =>
      obtain ⟨t, ht, -, hmove⟩ := stepTask_move hstep
      exact ha.move ht hok hmove
  · intro t ht
    cases threaded with
    | true => cases ht
    | false =>
      rw [List.mem_singleton.1 ht]
      simp [CopyPc.result]

structure MunmapShort (s : CopyState) : Prop where
  tasks : ∀ t ∈ s.tasks, t.cp.size ≤ CP_CHUNKSIZE
  events : ∀ destp len, .munmap destp len ∈ s.events → len ≤ CP_CHUNKSIZE

theorem MunmapShort.step {added : List CopyEvent} (hm : MunmapShort s) (ht : s.tasks[k]? = some ⟨cp, pc⟩)
    (htasks : s'.tasks = s.tasks.set k ⟨cp, pc'⟩) (hev : s'.events = s.events ++ added)
    (hadd : ∀ destp len, .munmap destp len ∈ added → len = cp.size) : MunmapShort s' := by
  have hself := hm.tasks _ (List.mem_of_getElem? ht)
  refine ⟨?_, ?_⟩
  · intro u hu
    rw [htasks] at hu
    rcases List.mem_or_eq_of_mem_set hu with hu | rfl
    · exact hm.tasks u hu
    · exact hself
  · intro destp len hmem
    rw [hev] at hmem
    rcases List.mem_append.1 hmem with hmem | hmem
    · exact hm.events destp len hmem
    · rw [hadd destp len hmem]
      exact hself

theorem MunmapShort.quiet (hm : MunmapShort s) (ht : s.tasks[k]? = some ⟨cp, pc⟩)
    (htasks : s'.tasks = s.tasks.set k ⟨cp, pc'⟩) (hev : s'.events = s.events) : MunmapShort s' :=
  hm.step ht htasks (hev.trans (List.append_nil _).symm) (by simp)

theorem MunmapShort.move (hm : MunmapShort s) (ht : s.tasks[k]? = some t) (h : CopyMove s k io t s') : MunmapShort s' := by
  cases h with
  | copied hmode => exact hm.step ht rfl rfl (by simp)
  | readFailed hrem hbytes => exact hm.step ht rfl rfl (by simp)
  | differs hrem hmode hdiff => exact hm.step ht rfl rfl (by simp)
  | read hrem hbytes => exact hm.step ht rfl rfl (by simp)
  | cleanup => exact hm.step ht rfl rfl (by simp)
  | _ => exact hm.quiet ht rfl rfl

theorem munmapShort_run {compare : Bool} {srcfd destfd : ℤ} {size : ℕ}
    (hrun : ReflTransGen (CopyStep may) (famfsCopyFileData true compare srcfd destfd size) s) : MunmapShort s := by
  refine Runs.invariant (P := MunmapShort) ?_ hrun ⟨?_, ?_⟩
  · intro s s' hm hstep
    cases hstep with
    | queue hrem =>
      refine ⟨?_, hm.events⟩
      intro t ht
      rcases List.mem_append.1 ht with ht | ht
      · exact hm.tasks t ht
      · rw [List.mem_singleton.1 ht]
        exact Nat.min_le_right _ _
    | task hmay hstep =>
      obtain ⟨t, ht, -, hmove⟩ := stepTask_move hstep
      exact hm.move ht hmove
  · intro t ht
    cases ht
  · intro destp len hmem
    cases hmem

end

/-- What `destp` is at the `munmap` of a single task that starts with the source at `fd`,
with what `srcfd` is after the open. -/
def munmapPlace (fd srcfd : ℤ) : Option ℕ :=
  if fd = 0 ∧ srcfd < 0 then none else some 0

def SoloAt (fd : ℤ) (cf : CopyFiles) : CopyPc → Prop
  | .start => cf.refcount = 1 ∧ cf.srcfd = fd
  | .lockOpen => cf.refcount = 1 ∧ cf.srcfd = fd
  | .openSrc => cf.refcount = 1 ∧ cf.srcfd = fd
  | .unlockOpen => cf.refcount = 1 ∧ munmapPlace fd cf.srcfd = some 0
  | .copy _ _ => cf.refcount = 1 ∧ munmapPlace fd cf.srcfd = some 0
  | .lockOut _ => cf.refcount = 1 ∧ munmapPlace fd cf.srcfd = some 0
  | .dropRef _ destp => cf.refcount = 1 ∧ destp = munmapPlace fd cf.srcfd
  | .unlockOut _ destp last => last = true ∧ destp = munmapPlace fd cf.srcfd
  | .report _ destp last => last = true ∧ destp = munmapPlace fd cf.srcfd
  | .cleanup _ destp => destp = munmapPlace fd cf.srcfd
  | .done _ => True

def CopyPc.isDone : CopyPc → Bool
  | .done _ => true
  | _ => false

structure SoloRun (fd : ℤ) (size : ℕ) (s : CopyState) (pc : CopyPc) : Prop where
  tasks : s.tasks = [⟨⟨0, size⟩, pc⟩]
  remainder : s.remainder = 0
  place : SoloAt fd s.cf pc
  freed : s.freed = pc.isDone
  events : ∀ destp len, .munmap destp len ∈ s.events ↔ pc.isDone = true ∧ destp = munmapPlace fd s.cf.srcfd ∧ len = size

/-- A copy of one task: before it is queued, and after. -/
inductive Solo (fd : ℤ) (size : ℕ) (s : CopyState) : Prop
  | waiting (hle : size ≤ CP_CHUNKSIZE) (htasks : s.tasks = []) (hoff : s.offset = 0) (hrem : s.remainder = size)
      (hfreed : s.freed = false) (hat : SoloAt fd s.cf .start) (hev : ∀ destp len, .munmap destp len ∉ s.events)
  | running {pc : CopyPc} (h : SoloRun fd size s pc)

section

variable {fd srcfd : ℤ} {size : ℕ} {s s' : CopyState} {pc pc' : CopyPc} {io : CopyIo}

theorem SoloRun.step {added : List CopyEvent} (h : SoloRun fd size s pc)
    (hrest : s'.remainder = s.remainder ∧ s'.freed = s.freed ∧ s'.events = s.events ++ added ∧
      s'.tasks = s.tasks.set 0 ⟨⟨0, size⟩, pc'⟩)
    (hadd : ∀ destp len, .munmap destp len ∉ added) (hdone : pc.isDone = false ∧ pc'.isDone = false)
    (hat : SoloAt fd s'.cf pc') : Solo fd size s' := by
  obtain ⟨hrem', hfreed', hev', htasks'⟩ := hrest
  have hrun : SoloRun fd size s' pc' := by
    refine ⟨?_, hrem'.trans h.remainder, hat, ?_, ?_⟩
    · rw [htasks', h.tasks]
      rfl
    · rw [hfreed', h.freed, hdone.1, hdone.2]
    · intro destp len
      rw [hev', List.mem_append, or_iff_left (hadd destp len), h.events destp len, hdone.1, hdone.2]
      simp
  exact .running hrun

theorem SoloRun.quiet (h : SoloRun fd size s pc)
    (hrest : s'.remainder = s.remainder ∧ s'.freed = s.freed ∧ s'.events = s.events ∧
      s'.tasks = s.tasks.set 0 ⟨⟨0, size⟩, pc'⟩)
    (hdone : pc.isDone = false ∧ pc'.isDone = false) (hat : SoloAt fd s'.cf pc') : Solo fd size s' := by
  obtain ⟨hrem', hfreed', hev', htasks'⟩ := hrest
  exact h.step ⟨hrem', hfreed', hev'.trans (List.append_nil _).symm, htasks'⟩ (by simp) hdone hat

theorem SoloRun.cleanup {rc : ℤ} {destp : Option ℕ} (h : SoloRun fd size s (.cleanup rc destp))
    (hrest : s'.remainder = s.remainder ∧ s'.freed = true ∧ s'.events = s.events ++ [.munmap destp size, .freeCf] ∧
      s'.cf = s.cf ∧ s'.tasks = s.tasks.set 0 ⟨⟨0, size⟩, .done rc⟩) : Solo fd size s' := by
  obtain ⟨hrem', hfreed', hev', hcf', htasks'⟩ := hrest
  have hplace : destp = munmapPlace fd s.cf.srcfd := h.place
  have hnone : ∀ d len, .munmap d len ∉ s.events := by
    intro d len hmem
    cases ((h.events d len).1 hmem).1
  have hrun : SoloRun fd size s' (.done rc) := by
    refine ⟨?_, hrem'.trans h.remainder, trivial, hfreed', ?_⟩
    · rw [htasks', h.tasks]
      rfl
    · intro d len
      rw [hev', List.mem_append, or_iff_right (hnone d len), hcf', hplace]
      simp [CopyPc.isDone]
  exact .running hrun

theorem munmapPlace_of_ne (h : fd ≠ 0) : munmapPlace fd srcfd = some 0 :=
  if_neg fun hc => h hc.1

theorem munmapPlace_of_opened (h : 0 ≤ srcfd) : munmapPlace fd srcfd = some 0 :=
  if_neg fun hc => absurd h (not_le.2 hc.2)

theorem SoloRun.move {k : ℕ} {t : CopyTask} (h : SoloRun fd size s pc) (ht : s.tasks[k]? = some t)
    (hmove : CopyMove s k io t s') : Solo fd size s' := by
  obtain ⟨rfl, rfl⟩ : k = 0 ∧ t = ⟨⟨0, size⟩, pc⟩ := by
    rw [h.tasks] at ht
    obtain ⟨hk, hget⟩ := List.getElem?_eq_some_iff.1 ht
    have hzero : k = 0 := by simpa using hk
    subst hzero
    exact ⟨rfl, hget.symm⟩
  have hat := h.place
  cases hmove with
  | filesAreOpen hfds =>
    refine h.quiet ⟨rfl, rfl, rfl, rfl⟩ ⟨rfl, rfl⟩ ⟨hat.1, munmapPlace_of_ne ?_⟩
    have := hat.2
    omega
  | notOpen hfds => exact h.quiet ⟨rfl, rfl, rfl, rfl⟩ ⟨rfl, rfl⟩ hat
  | lockOpen hmutex => exact h.quiet ⟨rfl, rfl, rfl, rfl⟩ ⟨rfl, rfl⟩ hat
  | openFailed hsrc hfd =>
    refine h.quiet ⟨rfl, rfl, rfl, rfl⟩ ⟨rfl, rfl⟩ ⟨hat.1, (if_pos ⟨?_, ?_⟩).symm⟩
    · rw [← hat.2, hsrc]
    · exact hfd
  | opened hsrc hfd => exact h.quiet ⟨rfl, rfl, rfl, rfl⟩ ⟨rfl, rfl⟩ ⟨hat.1, munmapPlace_of_opened hfd⟩
  | openedBefore hsrc => exact h.quiet ⟨rfl, rfl, rfl, rfl⟩ ⟨rfl, rfl⟩ ⟨hat.1, munmapPlace_of_ne (hat.2 ▸ hsrc)⟩
  | unlockOpen => exact h.quiet ⟨rfl, rfl, rfl, rfl⟩ ⟨rfl, rfl⟩ hat
  | compared hmode => exact h.quiet ⟨rfl, rfl, rfl, rfl⟩ ⟨rfl, rfl⟩ hat
  | copied hmode => exact h.step ⟨rfl, rfl, rfl, rfl⟩ (by simp) ⟨rfl, rfl⟩ hat
  | readFailed hrem hbytes => exact h.step ⟨rfl, rfl, rfl, rfl⟩ (by simp) ⟨rfl, rfl⟩ hat
  | differs hrem hmode hdiff => exact h.step ⟨rfl, rfl, rfl, rfl⟩ (by simp) ⟨rfl, rfl⟩ hat
  | read hrem hbytes => exact h.step ⟨rfl, rfl, rfl, rfl⟩ (by simp) ⟨rfl, rfl⟩ hat
  | lockOut hmutex => exact h.quiet ⟨rfl, rfl, rfl, rfl⟩ ⟨rfl, rfl⟩ ⟨hat.1, hat.2.symm⟩
  | dropRef =>
    refine h.quiet ⟨rfl, rfl, rfl, rfl⟩ ⟨rfl, rfl⟩ ⟨?_, hat.2⟩
    rw [hat.1]
    rfl
  | unlockOut => exact h.quiet ⟨rfl, rfl, rfl, rfl⟩ ⟨rfl, rfl⟩ hat
  | @report cp rc destp last =>
    obtain ⟨rfl, hplace⟩ := hat
    exact h.quiet ⟨rfl, rfl, rfl, rfl⟩ ⟨rfl, rfl⟩ hplace
  | cleanup => exact h.cleanup ⟨rfl, rfl, rfl, rfl, rfl⟩

theorem solo_start {threaded : Bool} (compare : Bool) (srcfd destfd : ℤ) (hpos : 0 < size)
    (hone : threaded = false ∨ size ≤ CP_CHUNKSIZE) :
    Solo (if threaded = true then 0 else srcfd) size (famfsCopyFileData threaded compare srcfd destfd size) := by
  cases threaded with
  | true =>
    have hle : size ≤ CP_CHUNKSIZE := hone.resolve_left (by simp)
    have hcp : CP_CHUNKSIZE = 2 ^ 27 := rfl
    have hu64 : u64 (size + CP_CHUNKSIZE - 1) = size + CP_CHUNKSIZE - 1 := u64_of_lt (by omega)
    have hn : u64 (size + CP_CHUNKSIZE - 1) / CP_CHUNKSIZE = 1 := by
      rw [hu64]
      exact Nat.div_eq_of_lt_le (by omega) (by omega)
    refine .waiting hle rfl rfl rfl rfl ⟨?_, rfl⟩ ?_
    · rw [famfsCopyFileData, if_pos rfl]
      simp only [hn]
      decide
    · intro destp len hmem
      cases hmem
  | false =>
    have hrun : SoloRun srcfd size (famfsCopyFileData false compare srcfd destfd size) .start := by
      refine ⟨rfl, rfl, ⟨rfl, rfl⟩, rfl, ?_⟩
      intro d len
      refine iff_of_false ?_ (by simp [CopyPc.isDone])
      intro hmem
      cases hmem
    exact .running hrun

theorem solo_run {destfd : ℤ} (hpos : 0 < size)
    (hone : threaded = false ∨ size ≤ CP_CHUNKSIZE)
    (hrun : ReflTransGen (CopyStep may) (famfsCopyFileData threaded compare srcfd destfd size) s) :
    Solo (if threaded = true then 0 else srcfd) size s := by
  refine Runs.invariant (P := Solo (if threaded = true then 0 else srcfd) size) ?_ hrun
    (solo_start compare srcfd destfd hpos hone)
  intro s s' hi hstep
  cases hstep with
  | queue hrem =>
    cases hi with
    | waiting hle htasks hoff hsize hfreed hat hev =>
      have hrun : SoloRun (if threaded = true then 0 else srcfd) size (queueChunk s) .start := by
        refine ⟨?_, ?_, hat, hfreed, ?_⟩
        · simp only [queueChunk, htasks, hoff, hsize, List.nil_append, Nat.min_eq_left hle]
        · simp only [queueChunk, hsize, Nat.min_eq_left hle, Nat.sub_self]
        · intro d len
          exact iff_of_false (hev d len) (by simp [CopyPc.isDone])
      exact .running hrun
    | running h => exact absurd h.remainder (by omega)
  | task hmay hstep =>
    obtain ⟨t, ht, -, hmove⟩ := stepTask_move hstep
    cases hi with
    | waiting hle htasks hoff hsize hfreed hat hev =>
      rw [htasks] at ht
      cases ht
    | running h => exact h.move ht hmove

theorem Solo.freed_iff (h : Solo fd size s) (hpos : 0 < size) (hfreed : s.freed = true) :
    Unmapped size s.events ∧ ¬ s.UsesFreed ↔ munmapPlace fd s.cf.srcfd = some 0 := by
  cases h with
  | waiting hle htasks hoff hsize hnot hat hev =>
    rw [hnot] at hfreed
    cases hfreed
  | @running pc h =>
    have hdone : pc.isDone = true := h.freed.symm.trans hfreed
    have hunused : ¬ s.UsesFreed := by
      rw [usesFreed_iff, h.tasks]
      rintro ⟨-, t, ht, htouch⟩
      rw [List.mem_singleton.1 ht] at htouch
      cases pc with
      | done rc => cases htouch
      | _ => cases hdone
    rw [and_iff_left hunused]
    constructor
    · intro hall
      obtain ⟨len, hmem, -⟩ := hall 0 hpos
      exact ((h.events (some 0) len).1 hmem).2.1.symm
    · intro hplace x hx
      exact ⟨size, (h.events (some 0) size).2 ⟨hdone, hplace.symm, rfl⟩, hx⟩

end

theorem munmapPlace_iff (threaded : Bool) (srcfd opened : ℤ) :
    munmapPlace (if threaded = true then 0 else srcfd) opened = some 0 ↔ (threaded = true ∨ srcfd = 0 → 0 ≤ opened) := by
  unfold munmapPlace
  cases threaded with
  | true => simp
  | false => simp

/-- The structure is freed once, by the task that drops the last reference, as long as the
counter holds. At the free the whole mapping has been unmapped and nothing uses the structure
any more if and only if there was one task only and its source opened. Where no read fails
the structure is not used after the free, however many tasks there are. -/
theorem copy_release_iff {srcfd destfd : ℤ} {size : ℕ}
    (hpos : 0 < size) :
    (∀ s, ReflTransGen (CopyStep may) (famfsCopyFileData threaded compare srcfd destfd size) s →
      (CountFits threaded size → ReleasedOnce s) ∧
      (s.freed = true → ((Unmapped size s.events ∧ ¬ s.UsesFreed) ↔
        (threaded = false ∨ size ≤ CP_CHUNKSIZE) ∧ (threaded = true ∨ srcfd = 0 → 0 ≤ s.cf.srcfd)))) ∧
    (∀ s, ReflTransGen (CopyStep NoFailure) (famfsCopyFileData threaded compare srcfd destfd size) s →
      CountFits threaded size → ¬ s.UsesFreed) := by
  refine ⟨?_, ?_⟩
  · intro s hrun
    refine ⟨fun hfits => (refInv_run hpos hfits hrun).releasedOnce, ?_⟩
    intro hfreed
    by_cases hone : threaded = false ∨ size ≤ CP_CHUNKSIZE
    · rw [(solo_run hpos hone hrun).freed_iff hpos hfreed, munmapPlace_iff, and_iff_right hone]
    · refine iff_of_false ?_ fun h => hone h.1
      rintro ⟨hall, -⟩
      push Not at hone
      obtain ⟨hth, hbig⟩ := hone
      have hth : threaded = true := by simpa using hth
      subst hth
      obtain ⟨len, hmem, hx⟩ := hall CP_CHUNKSIZE hbig
      exact absurd ((munmapShort_run hrun).events _ len hmem) (not_le.2 hx)
  · intro s hrun hfits huses
    have hfreed := (usesFreed_iff.1 huses).1
    obtain ⟨t, ht, rc, destp, hpc, hrc⟩ := ((refInv_run hpos hfits hrun).usesFreed_iff_failed hfreed).1 huses
    exact hrc (allFine_run hrun t ht rc (by rw [hpc]; rfl))

/-- A pool copies two megabytes and a byte in one task, with three reads. -/
theorem copy_release_iff_three_reads :
    ∃ s, ReflTransGen (CopyStep fun _ _ _ => True) (famfsCopyFileData true false 3 4 (2 * chunksize + 1)) s ∧
      s.freed = true ∧ s.events.length = 6 ∧ ReleasedOnce s ∧ Unmapped (2 * chunksize + 1) s.events ∧ ¬ s.UsesFreed := by
  obtain ⟨s, hrun, hfreed, hevents, hopened⟩ := run_of_schedule (fun _ _ _ => True)
    (answerWith fun _ => false) (fun _ _ => trivial) (none :: List.replicate 13 (some 0))
    (s := famfsCopyFileData true false 3 4 (2 * chunksize + 1))
    (P := fun s => s.freed = true ∧ s.events.length = 6 ∧ 0 ≤ s.cf.srcfd) (by decide +kernel)
  obtain ⟨honce, hiff⟩ := (copy_release_iff (by decide)).1 s hrun
  obtain ⟨hmap, hunused⟩ := (hiff hfreed).2 ⟨Or.inr (by decide), fun _ => hopened⟩
  exact ⟨s, hrun, hfreed, hevents, honce (fun _ => by decide), hmap, hunused⟩

/-- Two tasks, and the first read fails. The second task frees the structure while the first
is on its way to its error message, and unmaps one byte of the mapping. -/
theorem failed_task_uses_freed :
    ∃ s, ReflTransGen (CopyStep fun _ _ _ => True) (famfsCopyFileData true false 3 4 (CP_CHUNKSIZE + 1)) s ∧
      stepTask s 0 ⟨3, 0, false⟩ = some (.error .useAfterFree) ∧ ¬ Unmapped (CP_CHUNKSIZE + 1) s.events := by
  obtain ⟨s, hrun, hstep⟩ := run_of_schedule (fun _ _ _ => True) (answerWith fun k => k == 0)
    (fun _ _ => trivial) ([none, none] ++ List.replicate 8 (some 0) ++ List.replicate 11 (some 1))
    (s := famfsCopyFileData true false 3 4 (CP_CHUNKSIZE + 1))
    (P := fun s => stepTask s 0 ⟨3, 0, false⟩ = some (.error .useAfterFree)) (by decide +kernel)
  refine ⟨s, hrun, hstep, ?_⟩
  intro hall
  obtain ⟨len, hmem, hx⟩ := hall CP_CHUNKSIZE (Nat.lt_succ_self _)
  exact absurd ((munmapShort_run hrun).events _ len hmem) (not_le.2 hx)

end Famfs

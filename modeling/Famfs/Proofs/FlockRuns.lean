import Famfs.Lib.Runs
import Famfs.Spec.Flock

/-! The exclusive lock over all interleavings. The daemon keeps the lock exclusive as
long as no exclusive request is non-blocking and every unlock or release that finds
the lock of its inode held is one of the handle that took it. -/

namespace Famfs

open Relation

variable {d : Daemon} {t : ℕ} {h : FileHandle}

def FlockPc.unlocks : FlockPc → Bool
  | .icacheUnflock _ _ => true
  | .clearFlockHeld _ _ => true
  | .unlockFlockMutex _ _ => true
  | _ => false

/-- The lock was taken for a request of this handle and nobody is giving it up. -/
def Daemon.Owns (d : Daemon) (h : FileHandle) : Prop :=
  d.flockMutex = some h ∧ ∀ t pc, d.threads t = some pc → pc.unlocks = false

/-- No exclusive request with `LOCK_NB` is answered, and the lock that an unlock or a
release finds held is the handle's own. -/
def Proper (d : Daemon) (t : ℕ) : Prop :=
  match d.threads t with
  | some (.famfsFlock h op) =>
      op ≠ ⟨.ex, true⟩ ∧ (op = ⟨.un, false⟩ → d.flockHeld h.nodeid = true → d.Owns h)
  | some (.famfsRelease h) => d.flockHeld h.nodeid = true → d.Owns h
  | _ => True

/-- What `flock_held` of its inode must be while a thread takes or gives up the lock. -/
def FlockPc.flag : FlockPc → Option Bool
  | .setFlockHeld _ => some false
  | .icacheUnflock _ _ => some true
  | .clearFlockHeld _ _ => some true
  | .unlockFlockMutex _ _ => some false
  | _ => none

def FlockPc.status : FlockPc → HandleStatus
  | .famfsRelease _ => .released
  | .icacheUnflock _ true => .released
  | .clearFlockHeld _ true => .released
  | .unlockFlockMutex _ true => .released
  | .putref _ => .released
  | _ => .opened

/-- The mutex, the flags, the threads and the grants tell one story. -/
structure LockInv (d : Daemon) : Prop where
  held : ∀ n, d.flockHeld n = true → ∃ h, d.flockMutex = some h ∧ h.nodeid = n
  flag : ∀ t pc b, d.threads t = some pc → pc.flag = some b →
    d.flockMutex = some pc.handle ∧ d.flockHeld pc.handle.nodeid = b
  one : ∀ t t' pc pc', d.threads t = some pc → d.threads t' = some pc' → pc.flag ≠ none →
    pc'.flag ≠ none → t = t'
  status : ∀ t pc, d.threads t = some pc → d.status pc.handle = pc.status
  granted : ∀ h, d.granted h = true → d.status h = .opened ∧ d.flockMutex = some h ∧
    d.flockHeld h.nodeid = true ∧ ∀ t pc, d.threads t = some pc → pc.flag = none

theorem lockInv_init : LockInv Daemon.init := by
  refine ⟨?_, ?_, ?_, ?_, ?_⟩
  · intro n hn; cases hn
  · intro t pc b h; cases h
  · intro t t' pc pc' h; cases h
  · intro t pc h; cases h
  · intro h hg; cases hg

theorem thread_cases {t t' : ℕ} {x : Option FlockPc} {pc : FlockPc}
    (h : (d.thread t x).threads t' = some pc) : (t' = t ∧ x = some pc) ∨ (t' ≠ t ∧ d.threads t' = some pc) := by
  by_cases ht : t' = t
  · subst ht
    simp only [Daemon.thread, Function.update_self] at h
    exact Or.inl ⟨rfl, h⟩
  · simp only [Daemon.thread, Function.update_of_ne ht] at h
    exact Or.inr ⟨ht, h⟩

theorem LockInv.thread (hi : LockInv d) (t : ℕ) {x : Option FlockPc}
    (hx : ∀ pc, x = some pc → pc.flag = none ∧ d.status pc.handle = pc.status) :
    LockInv (d.thread t x) := by
  refine ⟨hi.held, ?_, ?_, ?_, ?_⟩
  · intro t' pc b h hb
    rcases thread_cases h with ⟨-, hpc⟩ | ⟨-, hpc⟩
    · rw [(hx pc hpc).1] at hb
      cases hb
    · exact hi.flag t' pc b hpc hb
  · intro t1 t2 pc1 pc2 h1 h2 hf1 hf2
    rcases thread_cases h1 with ⟨-, hpc1⟩ | ⟨-, hpc1⟩
    · exact absurd (hx pc1 hpc1).1 hf1
    · rcases thread_cases h2 with ⟨-, hpc2⟩ | ⟨-, hpc2⟩
      · exact absurd (hx pc2 hpc2).1 hf2
      · exact hi.one t1 t2 pc1 pc2 hpc1 hpc2 hf1 hf2
  · intro t' pc h
    rcases thread_cases h with ⟨-, hpc⟩ | ⟨-, hpc⟩
    · exact (hx pc hpc).2
    · exact hi.status t' pc hpc
  · intro h hg
    obtain ⟨h1, h2, h3, h4⟩ := hi.granted h hg
    refine ⟨h1, h2, h3, fun t' pc hpc => ?_⟩
    rcases thread_cases hpc with ⟨-, hpc⟩ | ⟨-, hpc⟩
    · exact (hx pc hpc).1
    · exact h4 t' pc hpc

theorem LockInv.ungrant (hi : LockInv d) (h : FileHandle) : LockInv (d.grant h false) := by
  refine ⟨hi.held, hi.flag, hi.one, hi.status, fun h' hg => hi.granted h' ?_⟩
  simp only [Daemon.grant] at hg
  by_cases hh : h' = h
  · subst hh
    rw [Function.update_self] at hg
    cases hg
  · rwa [Function.update_of_ne hh] at hg

theorem LockInv.critical {d d' : Daemon} (hi : LockInv d) {x : Option FlockPc}
    (hother : ∀ t' pc, t' ≠ t → d.threads t' = some pc → pc.flag = none)
    (hstatus : d'.status = d.status) (hthreads : d'.threads = Function.update d.threads t x)
    (hx : ∀ pc, x = some pc → d.status pc.handle = pc.status ∧ ∀ b, pc.flag = some b →
      d'.flockMutex = some pc.handle ∧ d'.flockHeld pc.handle.nodeid = b)
    (hheld : ∀ n, d'.flockHeld n = true → ∃ h, d'.flockMutex = some h ∧ h.nodeid = n)
    (hgranted : ∀ h, d'.granted h = true → d'.status h = .opened ∧ d'.flockMutex = some h ∧
      d'.flockHeld h.nodeid = true ∧ ∀ pc, x = some pc → pc.flag = none) : LockInv d' := by
  have hcases : ∀ t' pc, d'.threads t' = some pc →
      (t' = t ∧ x = some pc) ∨ (t' ≠ t ∧ d.threads t' = some pc) := by
    intro t' pc h
    rw [hthreads] at h
    exact thread_cases h
  refine ⟨hheld, ?_, ?_, ?_, ?_⟩
  · intro t' pc b h hb
    rcases hcases t' pc h with ⟨-, hpc⟩ | ⟨hne, hpc⟩
    · exact (hx pc hpc).2 b hb
    · rw [hother t' pc hne hpc] at hb
      cases hb
  · intro t1 t2 pc1 pc2 h1 h2 hf1 hf2
    rcases hcases t1 pc1 h1 with ⟨rfl, -⟩ | ⟨hne, hpc⟩
    · rcases hcases t2 pc2 h2 with ⟨rfl, -⟩ | ⟨hne, hpc⟩
      · rfl
      · exact absurd (hother t2 pc2 hne hpc) hf2
    · exact absurd (hother t1 pc1 hne hpc) hf1
  · intro t' pc h
    rw [hstatus]
    rcases hcases t' pc h with ⟨-, hpc⟩ | ⟨-, hpc⟩
    · exact (hx pc hpc).1
    · exact hi.status t' pc hpc
  · intro h hg
    obtain ⟨h1, h2, h3, h4⟩ := hgranted h hg
    refine ⟨h1, h2, h3, fun t' pc hpc => ?_⟩
    rcases hcases t' pc hpc with ⟨-, hpc⟩ | ⟨hne, hpc⟩
    · exact h4 pc hpc
    · exact hother t' pc hne hpc

theorem LockInv.others (hi : LockInv d) {pc : FlockPc} (hpc : d.threads t = some pc)
    (hf : pc.flag ≠ none) : ∀ t' pc', t' ≠ t → d.threads t' = some pc' → pc'.flag = none := by
  intro t' pc' hne hpc'
  by_contra hf'
  exact hne (hi.one t' t pc' pc hpc' hpc hf' hf)

theorem LockInv.not_granted (hi : LockInv d) {pc : FlockPc}
    (hpc : d.threads t = some pc) (hf : pc.flag ≠ none) (h : FileHandle) : d.granted h = false := by
  by_contra hg
  exact hf ((hi.granted h (by simpa using hg)).2.2.2 t pc hpc)

theorem LockInv.startUnflock (hi : LockInv d) {r : Bool}
    (hown : d.Owns h) (hheld : d.flockHeld h.nodeid = true) (hg : d.granted h = false)
    (hst : d.status h = (FlockPc.icacheUnflock h r).status) :
    LockInv (d.thread t (some (.icacheUnflock h r))) := by
  have hquiet : ∀ t' pc, d.threads t' = some pc → pc.flag = none := by
    intro t' pc hpc
    have hno := hown.2 t' pc hpc
    cases pc with
    | setFlockHeld h' =>
      -- its handle would own the mutex with the flag still clear
      obtain ⟨hm, hf⟩ := hi.flag t' _ false hpc rfl
      rw [hown.1] at hm
      cases hm
      exact absurd (hf.symm.trans hheld) Bool.false_ne_true
    | icacheUnflock => cases hno
    | clearFlockHeld => cases hno
    | unlockFlockMutex => cases hno
    | _ => rfl
  refine hi.critical (fun t' pc _ hpc => hquiet t' pc hpc) rfl rfl ?_ hi.held ?_
  · intro pc hpc
    cases hpc
    refine ⟨hst, fun b hb => ?_⟩
    cases hb
    exact ⟨hown.1, hheld⟩
  · intro h' hg'
    have hm := (hi.granted h' hg').2.1
    rw [hown.1] at hm
    cases hm
    rw [show d.granted h = true from hg'] at hg
    cases hg

theorem lockInv_famfsFlock (hi : LockInv d) {op : FlockOp}
    (hpc : d.threads t = some (.famfsFlock h op)) (hnb : op ≠ ⟨.ex, true⟩)
    (hown : op = ⟨.un, false⟩ → d.flockHeld h.nodeid = true → d.Owns h) :
    LockInv (famfsFlock d t h op) := by
  have hst : d.status h = .opened := hi.status t _ hpc
  have hidle : LockInv (d.thread t none) := hi.thread t fun pc hx => nomatch hx
  obtain ⟨kind, nb⟩ := op
  cases nb with
  | true =>
    cases kind with
    | ex => exact absurd rfl hnb
    | un => exact hidle.ungrant h
    | sh => exact hidle
  | false =>
    cases kind with
    | sh => exact hidle
    | ex =>
      simp only [famfsFlock]
      split_ifs with hheld
      · exact hidle
      · refine hi.thread t fun pc hx => ?_
        cases hx
        exact ⟨rfl, hst⟩
    | un =>
      simp only [famfsFlock]
      split_ifs with hheld
      · exact hidle
      · have hheld' : d.flockHeld h.nodeid = true := by simpa using hheld
        have hg : (d.grant h false).granted h = false := Function.update_self ..
        exact (hi.ungrant h).startUnflock (hown rfl hheld') hheld' hg hst

theorem LockInv.free (hi : LockInv d) (hm : d.flockMutex = none) (n : ℕ) :
    d.flockHeld n = false := by
  by_contra hn
  obtain ⟨h, hm', -⟩ := hi.held n (by simpa using hn)
  rw [hm] at hm'
  cases hm'

theorem LockInv.held_only (hi : LockInv d) (hm : d.flockMutex = some h)
    {n : ℕ} (hn : d.flockHeld n = true) : n = h.nodeid := by
  obtain ⟨h', hm', rfl⟩ := hi.held n hn
  rw [hm] at hm'
  cases hm'
  rfl

theorem lockInv_icacheFlock (hi : LockInv d)
    (hpc : d.threads t = some (.icacheFlock h)) (hm : d.flockMutex = none) :
    LockInv { d.thread t (some (.setFlockHeld h)) with flockMutex := some h } := by
  have hfree := hi.free hm
  have hst : d.status h = .opened := hi.status t _ hpc
  refine hi.critical (t := t) (x := some (.setFlockHeld h)) ?_ rfl rfl ?_ ?_ ?_
  · intro t' pc _ hpc'
    by_contra hf
    obtain ⟨b, hb⟩ := Option.ne_none_iff_exists'.mp hf
    have := (hi.flag t' pc b hpc' hb).1
    rw [hm] at this
    cases this
  · intro pc hx
    cases hx
    refine ⟨hst, fun b hb => ?_⟩
    cases hb
    exact ⟨rfl, hfree _⟩
  · intro n hn
    exact absurd ((hfree n).symm.trans hn) Bool.false_ne_true
  · intro h' hg
    have := (hi.granted h' hg).2.1
    rw [hm] at this
    cases this

theorem lockInv_setFlockHeld (hi : LockInv d)
    (hpc : d.threads t = some (.setFlockHeld h)) :
    LockInv ({ d with flockHeld := Function.update d.flockHeld h.nodeid true }.replyErr t h .ex 0) := by
  have hng := hi.not_granted hpc (by simp [FlockPc.flag])
  have hm : d.flockMutex = some h := (hi.flag t _ false hpc rfl).1
  have hst : d.status h = .opened := hi.status t _ hpc
  refine hi.critical (t := t) (x := none) (hi.others hpc (by simp [FlockPc.flag])) rfl rfl
    (fun pc hx => nomatch hx) ?_ ?_
  · intro n hn
    refine ⟨h, hm, ?_⟩
    by_contra hne
    have hn' : Function.update d.flockHeld h.nodeid true n = true := hn
    rw [Function.update_of_ne (Ne.symm hne)] at hn'
    exact hne (hi.held_only hm hn').symm
  · intro h' hg
    have hg' : Function.update d.granted h true h' = true := hg
    by_cases hh : h' = h
    · subst hh
      exact ⟨hst, hm, Function.update_self .., fun pc hx => nomatch hx⟩
    · rw [Function.update_of_ne hh, hng h'] at hg'
      cases hg'

theorem lockInv_clearFlockHeld (hi : LockInv d) {r : Bool}
    (hpc : d.threads t = some (.clearFlockHeld h r)) :
    LockInv { d.thread t (some (.unlockFlockMutex h r)) with
      flockHeld := Function.update d.flockHeld h.nodeid false } := by
  have hng := hi.not_granted hpc (by simp [FlockPc.flag])
  have hm : d.flockMutex = some h := (hi.flag t _ true hpc rfl).1
  have hst := hi.status t _ hpc
  refine hi.critical (t := t) (x := some (.unlockFlockMutex h r)) (hi.others hpc (by simp [FlockPc.flag]))
    rfl rfl ?_ ?_ ?_
  · intro pc hx
    cases hx
    refine ⟨by cases r <;> exact hst, fun b hb => ?_⟩
    cases hb
    exact ⟨hm, Function.update_self ..⟩
  · intro n hn
    have hn' : Function.update d.flockHeld h.nodeid false n = true := hn
    by_cases hne : n = h.nodeid
    · rw [hne, Function.update_self] at hn'
      cases hn'
    · rw [Function.update_of_ne hne] at hn'
      exact absurd (hi.held_only hm hn') hne
  · intro h' hg
    exact absurd ((hng h').symm.trans hg) Bool.false_ne_true

theorem lockInv_unlock (hi : LockInv d) {r : Bool}
    (hpc : d.threads t = some (.unlockFlockMutex h r)) :
    LockInv ({ d with flockMutex := none }.unflocked t h r) := by
  have hng := hi.not_granted hpc (by simp [FlockPc.flag])
  have hst := hi.status t _ hpc
  obtain ⟨hm, hf⟩ := hi.flag t _ false hpc rfl
  have hfree : ∀ x, (∀ pc, x = some pc → pc.flag = none ∧ d.status pc.handle = pc.status) →
      LockInv ({ d with flockMutex := none }.thread t x) := by
    intro x hx
    refine hi.critical (hi.others hpc (by simp [FlockPc.flag])) rfl rfl ?_ ?_ ?_
    · intro pc hpc'
      obtain ⟨hnone, hs⟩ := hx pc hpc'
      exact ⟨hs, fun b hb => by rw [hnone] at hb; cases hb⟩
    · intro n hn
      have := hi.held_only hm hn
      subst this
      exact absurd (hf.symm.trans hn) Bool.false_ne_true
    · intro h' hg
      exact absurd ((hng h').symm.trans hg) Bool.false_ne_true
  cases r with
  | true =>
    refine hfree (some (.putref h)) fun pc hx => ?_
    cases hx
    exact ⟨rfl, hst⟩
  | false => exact (hfree none fun pc hx => nomatch hx).ungrant h

theorem lockInv_run {d d' : Daemon} (hi : LockInv d) (hp : Proper d t)
    (h : runThread d t = some d') : LockInv d' := by
  unfold runThread at h
  unfold Proper at hp
  split at h
  · cases h
  · rename_i hd op hpc
    rw [hpc] at hp
    cases h
    exact lockInv_famfsFlock hi hpc hp.1 hp.2
  · rename_i hd hpc
    rw [hpc] at hp
    have hst := hi.status t _ hpc
    cases h
    split_ifs with hheld
    · refine hi.startUnflock (hp hheld) hheld ?_ hst
      by_contra hg
      have hopen := (hi.granted hd (by simpa using hg)).1
      rw [show d.status hd = .released from hst] at hopen
      cases hopen
    · refine hi.thread t fun pc hx => ?_
      cases hx
      exact ⟨rfl, hst⟩
  · rename_i hd hpc
    split_ifs at h with hm
    cases h
    exact lockInv_icacheFlock hi hpc hm
  · rename_i hd hpc
    cases h
    exact lockInv_setFlockHeld hi hpc
  · rename_i hd r hpc
    obtain ⟨hm, hf⟩ := hi.flag t _ true hpc rfl
    have hst := hi.status t _ hpc
    rw [if_neg (by rw [show d.flockHeld hd.nodeid = true from hf]; simp)] at h
    cases h
    refine hi.critical (t := t) (x := some (.clearFlockHeld hd r))
      (hi.others hpc (by simp [FlockPc.flag])) rfl rfl ?_ hi.held ?_
    · intro pc hx
      cases hx
      refine ⟨by cases r <;> exact hst, fun b hb => ?_⟩
      cases hb
      exact ⟨hm, hf⟩
    · intro h' hg
      exact absurd ((hi.not_granted hpc (by simp [FlockPc.flag]) h').symm.trans hg) Bool.false_ne_true
  · rename_i hd r hpc
    cases h
    exact lockInv_clearFlockHeld hi hpc
  · rename_i hd r hpc
    cases h
    exact lockInv_unlock hi hpc
  · cases h
    exact hi.thread t fun pc hx => nomatch hx

theorem lockInv_step {d d' : Daemon} (hi : LockInv d) (h : DaemonStep Proper d d') : LockInv d' := by
  cases h with
  | famfsOpen hnew =>
    rename_i hd
    have hkeep : ∀ h', d.status h' ≠ .unused → Function.update d.status hd .opened h' = d.status h' := by
      intro h' hne
      refine Function.update_of_ne (fun heq => hne ?_) ..
      rw [heq]
      exact hnew
    refine ⟨hi.held, hi.flag, hi.one, fun t pc hpc => ?_, fun h' hg => ?_⟩
    · have hst := hi.status t pc hpc
      refine (hkeep pc.handle ?_).trans hst
      rw [hst]
      cases pc with
      | icacheUnflock h r => cases r <;> simp [FlockPc.status]
      | clearFlockHeld h r => cases r <;> simp [FlockPc.status]
      | unlockFlockMutex h r => cases r <;> simp [FlockPc.status]
      | _ => simp [FlockPc.status]
    · obtain ⟨h1, h2, h3, h4⟩ := hi.granted h' hg
      exact ⟨(hkeep h' (by rw [h1]; simp)).trans h1, h2, h3, h4⟩
  | flock op hopen hidle =>
    refine hi.thread _ fun pc hx => ?_
    cases hx
    exact ⟨rfl, hopen⟩
  | release hopen hidle hquiet =>
    rename_i hd t
    have hclosed : LockInv { d.grant hd false with status := Function.update d.status hd .released } := by
      refine ⟨hi.held, hi.flag, hi.one, fun t' pc hpc => ?_, fun h' hg => ?_⟩
      · exact (Function.update_of_ne (hquiet t' pc hpc) ..).trans (hi.status t' pc hpc)
      · have hg' : Function.update d.granted hd false h' = true := hg
        have hne : h' ≠ hd := by
          rintro rfl
          rw [Function.update_self] at hg'
          cases hg'
        rw [Function.update_of_ne hne] at hg'
        obtain ⟨h1, h2, h3, h4⟩ := hi.granted h' hg'
        exact ⟨(Function.update_of_ne hne ..).trans h1, h2, h3, h4⟩
    refine hclosed.thread t fun pc hx => ?_
    cases hx
    exact ⟨rfl, Function.update_self ..⟩
  | run hmay hrun => exact lockInv_run hi hmay hrun

/-- In every interleaving whose steps are all proper, at most one handle holds a grant,
and a handle that holds one is open and still has the lock. -/
theorem exclusive_lock (hrun : ReflTransGen (DaemonStep Proper) Daemon.init d) :
    (∀ h h', d.granted h = true → d.granted h' = true → h = h') ∧
    ∀ h, d.granted h = true →
      d.status h = .opened ∧ d.flockHeld h.nodeid = true ∧ d.flockMutex = some h := by
  have hi : LockInv d :=
    Runs.invariant (P := LockInv) (fun _ _ hi hs => lockInv_step hi hs) hrun lockInv_init
  refine ⟨fun h h' hg hg' => ?_, fun h hg => ?_⟩
  · have h1 := (hi.granted h hg).2.1
    rw [(hi.granted h' hg').2.1] at h1
    exact (Option.some.inj h1).symm
  · obtain ⟨h1, h2, h3, -⟩ := hi.granted h hg
    exact ⟨h1, h3, h2⟩

/-- Two handles ask for the lock of the log. The first gets it, and the request of the second
waits for the mutex. -/
theorem exclusive_lock_second_waits :
    ∃ d, ReflTransGen (DaemonStep Proper) Daemon.init d ∧ d.granted ⟨1, 7⟩ = true ∧
      d.flockMutex = some ⟨1, 7⟩ ∧ d.threads 1 = some (.icacheFlock ⟨2, 7⟩) ∧ runThread d 1 = none ∧ d.granted ⟨2, 7⟩ = false := by
  have hopen := ((ReflTransGen.refl (r := DaemonStep Proper) (a := Daemon.init)).tail
    (.famfsOpen (h := ⟨1, 7⟩) rfl)).tail (.famfsOpen (h := ⟨2, 7⟩) rfl)
  have hasked := (hopen.tail (.flock ⟨.ex, false⟩ (h := ⟨1, 7⟩) (t := 0) rfl rfl)).tail
    (.flock ⟨.ex, false⟩ (h := ⟨2, 7⟩) (t := 1) rfl rfl)
  have hcalled := (hasked.tail (.run (t := 0) ⟨by decide, fun h => absurd h (by decide)⟩ rfl)).tail
    (.run (t := 1) ⟨by decide, fun h => absurd h (by decide)⟩ rfl)
  have hrun := (hcalled.tail (.run (t := 0) trivial rfl)).tail (.run (t := 0) trivial rfl)
  obtain ⟨hone, hheld⟩ := exclusive_lock hrun
  refine ⟨_, hrun, rfl, (hheld ⟨1, 7⟩ rfl).2.2, rfl, rfl, ?_⟩
  by_contra hsecond
  exact absurd (hone ⟨1, 7⟩ ⟨2, 7⟩ rfl (Bool.eq_true_of_not_eq_false hsecond)) (by decide)

/-- Two handles of the log get a success reply to `LOCK_EX | LOCK_NB`. And with no
such request at all, closing a second handle of the log takes away the lock that was
granted to the first. -/
theorem exclusive_lock_broken :
    (∃ d, ReflTransGen (DaemonStep fun _ _ => True) Daemon.init d ∧ d.granted ⟨1, 7⟩ = true ∧
      d.granted ⟨2, 7⟩ = true) ∧
    ∃ d, ReflTransGen (DaemonStep fun _ _ => True) Daemon.init d ∧ d.granted ⟨1, 7⟩ = true ∧
      d.flockHeld 7 = false ∧ d.flockMutex = none := by
  have hopen := ((ReflTransGen.refl (r := DaemonStep fun _ _ => True) (a := Daemon.init)).tail
    (.famfsOpen (h := ⟨1, 7⟩) rfl)).tail (.famfsOpen (h := ⟨2, 7⟩) rfl)
  refine ⟨?_, ?_⟩
  · have hfirst := (hopen.tail (.flock ⟨.ex, true⟩ (h := ⟨1, 7⟩) (t := 0) rfl rfl)).tail
      (.run (t := 0) trivial rfl)
    have hboth := (hfirst.tail (.flock ⟨.ex, true⟩ (h := ⟨2, 7⟩) (t := 0) rfl rfl)).tail
      (.run (t := 0) trivial rfl)
    exact ⟨_, hboth, rfl, rfl⟩
  · have hlocked := (((hopen.tail (.flock ⟨.ex, false⟩ (h := ⟨1, 7⟩) (t := 0) rfl rfl)).tail
      (.run (t := 0) trivial rfl)).tail (.run (t := 0) trivial rfl)).tail (.run (t := 0) trivial rfl)
    have hrelease := hlocked.tail (.release (h := ⟨2, 7⟩) (t := 0) rfl rfl (by
      intro t' pc hpc
      rcases t' with - | n <;> cases hpc))
    have hgone := (((hrelease.tail (.run (t := 0) trivial rfl)).tail (.run (t := 0) trivial rfl)).tail
      (.run (t := 0) trivial rfl)).tail (.run (t := 0) trivial rfl)
    exact ⟨_, hgone, rfl, rfl, rfl⟩

end Famfs

import Famfs.Proofs.IcacheRuns
import Famfs.Sanity.FusedOps

/-! Runs of the daemon with many threads. Under every interleaving of the handlers the list and the
counts of the cache stay right, and a handler that goes on finds every inode it looks at. There is one
exception: `famfs_setattr`, `famfs_opendir` and `famfs_get_fmap` drop their reference after the reply.
The kernel can have forgotten the inode by then, and the handler unlocks a mutex that it looks for in
an inode that it has just freed. -/

namespace Famfs.Fused

open Relation Runs Threads

section

variable {T : Type} [Fintype T] {s s' : Daemon T} {t : T} {L : List ℕ} {op : Op} {rest : List Op} {ans : Answer}

theorem DaemonOk.wellFormed (h : DaemonOk s L) : WellFormed s.icache := by
  have hok : FuseOk ⟨s.icache, s.lookups, s.opens⟩ L (fun a => s.leaked a + total (held a) s.todo) := by
    refine h.icache.reweigh fun a => ?_
    simp only [Daemon.weight, FuseState.weight]
    omega
  exact hok.wellFormed

def Above (c : FamfsIcache) (a b : ℕ) : Prop := ReflTransGen (fun x y => (c.node x).parent = some y) b a

theorem DaemonOk.holder (h : DaemonOk s L) {A B : List ℕ} {a : ℕ} (hL : L = A ++ a :: B) :
    ∃ b ∈ L, Above s.icache a b ∧ ((s.icache.node b).pinned = true ∨ 0 < s.weight b) := by
  -- children come before their parents, so what is before the inode gets shorter
  induction hlen : A.length using Nat.strong_induction_on generalizing A a B with
  | _ len ih =>
    have ha : a ∈ L := by simp [hL]
    by_cases hpin : (s.icache.node a).pinned = true
    · exact ⟨a, ha, .refl, .inl hpin⟩
    by_cases hweight : 0 < s.weight a
    · exact ⟨a, ha, .refl, .inr hweight⟩
    -- it is alive, so one of its children is
    have hlive := h.icache.counted.live a ha (by simpa using hpin)
    rw [h.icache.counted.refs a (List.mem_cons_of_mem _ ha)] at hlive
    have hchild : 0 < s.icache.children L a := by omega
    obtain ⟨d, hd, hparent⟩ := List.countP_pos_iff.1 hchild
    rw [decide_eq_true_eq] at hparent
    have hbefore : d ∈ A := by
      have hlater := h.rooted.later
      rw [hL, List.pairwise_append, List.pairwise_cons] at hlater
      rw [hL, List.mem_append, List.mem_cons] at hd
      rcases hd with hdA | rfl | hdB
      · exact hdA
      · exact absurd hparent (h.rooted.self d ha)
      · exact absurd hparent (hlater.2.1.1 d hdB)
    obtain ⟨A₁, A₂, rfl⟩ := List.append_of_mem hbefore
    obtain ⟨b, hb, habove, hholds⟩ := ih A₁.length (by simp [← hlen]) (A := A₁) (a := d) (B := A₂ ++ a :: B) (by simp [hL]) rfl
    exact ⟨b, hb, habove.tail hparent, hholds⟩

theorem DaemonOk.above (h : DaemonOk s L) {a b : ℕ} (hb : b ∈ FUSE_ROOT_ID :: L) (habove : Above s.icache a b) :
    a ∈ FUSE_ROOT_ID :: L := by
  refine Runs.invariant (P := (· ∈ FUSE_ROOT_ID :: L)) ?_ habove hb
  intro x y hx hparent
  rcases List.mem_cons.1 hx with rfl | hx
  · rw [h.icache.linked.rootParent] at hparent
    cases hparent
  · obtain ⟨p, hp, heq⟩ := h.icache.linked.parents x hx
    rw [heq, Option.some.injEq] at hparent
    exact hparent ▸ hp

theorem DaemonOk.pinned_mem (h : DaemonOk s L) {b : ℕ} (hpin : (s.icache.node b).pinned = true) : b ∈ FUSE_ROOT_ID :: L := by
  have hheap : (s.icache.heap b).isSome := by
    by_contra hnone
    rw [Option.not_isSome_iff_eq_none] at hnone
    simp [FamfsIcache.node, hnone] at hpin
  exact ((h.icache.linked.alloc b).1 hheap).resolve_right List.not_mem_nil

variable [DecidableEq T]

theorem DaemonOk.run (h : DaemonOk s L) (htodo : s.todo t = op :: rest)
    (hmem : ∀ a, ans.sys.inodeMem = some a → s.icache.heap a = none) :
    Served s t ans op rest ∨
    (∃ a, op = .lockMutex a ∧ s.icache.flockMutex = true ∧ op.run s.fuel ans s.icache rest = .error .blocked) ∨
    ∃ a, op = .putref a ∧ rest = [] ∧ s.icache.LastRefs a 1 ∧
      op.run s.fuel ans s.icache rest = .error (.trap .useAfterFree) := by
  cases op with
  | get a checked => exact .inl (h.get htodo ans)
  | getref a => exact .inl (h.getref htodo ans)
  | putref a =>
    rcases h.putref htodo ans with hserved | hlast
    · exact .inl hserved
    · exact .inr (.inr ⟨a, rfl, hlast⟩)
  | putrefLocked a n => exact .inl (h.putrefLocked htodo ans)
  | unref a n => exact .inl (h.unref htodo ans)
  | pin a => exact .inl (h.pin htodo ans)
  | dump a => exact .inl (h.dump htodo ans)
  | flock a => exact .inl (h.flock htodo ans)
  | lockMutex a =>
    rcases h.lockMutex htodo ans with hserved | hblocked
    · exact .inl hserved
    · exact .inr (.inl ⟨a, rfl, hblocked⟩)
  | setHeld a on => exact .inl (h.setHeld htodo ans)
  | tryUnflock a => exact .inl (h.tryUnflock htodo ans)
  | unflock a => exact .inl (h.unflock htodo ans)
  | unlockMutex => exact .inl (h.unlockMutex htodo ans)
  | search parent plus => exact .inl (h.search htodo hmem)
  | fit parent a granted => exact .inl (h.fit htodo ans)
  | dirplus parent granted => exact .inl (h.dirplus htodo ans)
  | reply a gain => exact .inl (h.reply htodo ans)

theorem DaemonOk.start (h : DaemonOk s L) (hidle : s.todo t = []) {ops : List Op} (hsound : Sound ops)
    {lookups opens : ℕ → ℕ} (hpaid : ∀ a, lookups a + opens a + held a ops = s.lookups a + s.opens a)
    (hopens : ∀ a, 0 < opens a → 0 < s.opens a) (hnamed : ∀ a, s.Kept a → a = FUSE_ROOT_ID ∨ 0 < lookups a)
    (hawaits : ∀ a, Awaits ops a → a = FUSE_ROOT_ID ∨ 0 < lookups a) :
    DaemonOk { s.goto t ops with lookups := lookups, opens := opens } L := by
  refine ⟨h.icache.reweigh fun a => ?_, h.rooted, fun u => ?_, ?_⟩
  · have hgoto := weight_goto s t ops a
    rw [hidle] at hgoto
    have hpaid := hpaid a
    simp only [Daemon.weight, Daemon.goto, held] at hgoto ⊢
    omega
  · change Sound (Function.update s.todo t ops u)
    by_cases hu : u = t
    · subst hu
      rw [Function.update_self]
      exact hsound
    · rw [Function.update_of_ne hu]
      exact h.sound u
  · rintro a (hopen | ⟨u, hu⟩)
    · exact hnamed a (.inl (hopens a hopen))
    · change Awaits (Function.update s.todo t ops u) a at hu
      by_cases hut : u = t
      · subst hut
        rw [Function.update_self] at hu
        exact hawaits a hu
      · rw [Function.update_of_ne hut] at hu
        exact hnamed a (.inr ⟨u, hu⟩)

theorem DaemonOk.step (h : DaemonOk s L) (hstep : DaemonStep s s') : ∃ L', DaemonOk s' L' := by
  cases hstep with
  | @send t call hidle hnamed =>
    obtain ⟨hheld, hsound, hawaits⟩ := call_starts call
    refine ⟨L, h.start hidle hsound (fun a => ?_) (fun a ha => ha) h.kept fun a ha => ?_⟩
    · rw [hheld a, Nat.add_zero]
    · rw [hawaits a ha]
      exact hnamed
  | @forget t forgets hidle hpos hle hkept =>
    refine ⟨L, h.start hidle (sound_forgetMulti hpos) (fun a => ?_) (fun a ha => ha) (fun a ha => ?_)
      fun a ha => absurd ha (awaits_forgetMulti forgets a)⟩
    · have := hle a
      simp only [Daemon.goto, held_forgetMulti]
      omega
    · rcases h.kept a ha with hroot | hlookups
      · exact .inl hroot
      · refine .inr ?_
        rcases Nat.eq_zero_or_pos (forgotten forgets a) with hzero | hsome
        · omega
        · have := hkept a hsome ha
          omega
  | @release t a hidle hopen =>
    refine ⟨L, h.start hidle (sound_release a) (fun b => ?_) (fun b hb => ?_) h.kept fun b hb => ?_⟩
    · simp only [Daemon.goto, held_release, Function.update_apply]
      split_ifs with hb
      · subst hb
        omega
      · omega
    · rw [Function.update_apply] at hb
      split_ifs at hb with hba
      · subst hba
        exact hopen
      · exact hb
    · rw [awaits_release hb]
      exact h.kept a (.inl hopen)
  | @run t op rest ops ans c htodo hmem hrun =>
    rcases h.run htodo hmem with ⟨ops', c', L', hrun', hok⟩ | ⟨a, -, -, hblocked⟩ | ⟨a, -, -, -, htrap⟩
    · rw [hrun] at hrun'
      cases hrun'
      exact ⟨L', hok⟩
    · rw [hrun] at hblocked
      cases hblocked
    · rw [hrun] at htrap
      cases htrap

theorem daemon_run {rootFd : ℤ} (hrun : ReflTransGen DaemonStep (Daemon.init T rootFd) s) : ∃ L, DaemonOk s L := by
  refine Runs.invariant (P := fun s => ∃ L, DaemonOk s L) ?_ hrun ⟨[], daemonOk_init T rootFd⟩
  rintro s s' ⟨L, h⟩ hstep
  exact h.step hstep

/-- In every state that the threads can come to, the cache is in order and every count is what is owed
to the kernel, to the cached children and to the handlers under way. A handler that goes on completes
its operation, or it waits for the mutex of the file locks, or it drops the last reference to an inode
after its reply and looks for the mutex in what it has freed. -/
theorem fused_threads_safe (rootFd : ℤ) (hrun : ReflTransGen DaemonStep (Daemon.init T rootFd) s) :
    WellFormed s.icache ∧
    (∀ a ∈ FUSE_ROOT_ID :: s.icache.cached, (s.icache.node a).refcount =
      (if a = FUSE_ROOT_ID then 2 else 0) + s.lookups a + s.opens a + s.leaked a + total (held a) s.todo +
        s.icache.children s.icache.cached a) ∧
    ∀ t op rest ans, s.todo t = op :: rest → (∀ a, ans.sys.inodeMem = some a → s.icache.heap a = none) →
      (∃ r, op.run s.fuel ans s.icache rest = .ok r) ∨
      ((∃ a, op = .lockMutex a) ∧ s.icache.flockMutex = true ∧ op.run s.fuel ans s.icache rest = .error .blocked) ∨
      ∃ a, op = .putref a ∧ rest = [] ∧ s.icache.LastRefs a 1 ∧
        op.run s.fuel ans s.icache rest = .error (.trap .useAfterFree) := by
  obtain ⟨L, h⟩ := daemon_run hrun
  refine ⟨h.wellFormed, fun a ha => ?_, fun t op rest ans htodo hmem => ?_⟩
  · rw [h.icache.linked.cached_eq] at ha ⊢
    exact h.icache.counted.refs a ha
  · rcases h.run htodo hmem with ⟨ops, c, -, hok, -⟩ | ⟨a, rfl, hblocked⟩ | htrap
    · exact .inl ⟨_, hok⟩
    · exact .inr (.inl ⟨⟨a, rfl⟩, hblocked⟩)
    · exact .inr (.inr htrap)

/-- When no handler is under way, an inode is in the cache exactly if it or something below it is
pinned, is known to the kernel or open, or was opened or asked for a lock at any time before. -/
theorem cache_keeps_exactly (rootFd : ℤ) (hrun : ReflTransGen DaemonStep (Daemon.init T rootFd) s)
    (hquiet : ∀ t, s.todo t = []) {a : ℕ} (ha : a ≠ FUSE_ROOT_ID) :
    a ∈ s.icache.cached ↔ ∃ b, Above s.icache a b ∧
      ((s.icache.node b).pinned = true ∨ 0 < s.lookups b ∨ 0 < s.opens b ∨ 0 < s.leaked b) := by
  obtain ⟨L, h⟩ := daemon_run hrun
  rw [h.icache.linked.cached_eq]
  constructor
  · intro hmem
    obtain ⟨A, B, hL⟩ := List.append_of_mem hmem
    obtain ⟨b, hb, habove, hpin | hweight⟩ := h.holder hL
    · exact ⟨b, habove, .inl hpin⟩
    · refine ⟨b, habove, .inr ?_⟩
      have hroot : b ≠ FUSE_ROOT_ID := fun heq => (List.nodup_cons.1 h.icache.linked.ring.nodup).1 (heq ▸ hb)
      have hnone : total (held b) s.todo = 0 := total_eq_zero fun t => by rw [hquiet t]; rfl
      rw [Daemon.weight, if_neg hroot, hnone] at hweight
      omega
  · rintro ⟨b, habove, hkept⟩
    have hb : b ∈ FUSE_ROOT_ID :: L := by
      rcases hkept with hpin | howed
      · exact h.pinned_mem hpin
      · refine (owed_alive h.icache ?_).1
        rw [Daemon.weight]
        omega
    exact (List.mem_cons.1 (h.above hb habove)).resolve_left ha

end

section

variable {T : Type} [DecidableEq T]

def Daemon.play (s : Daemon T) (t : T) : List Answer → Option (Daemon T)
  | [] => some s
  | ans :: answers =>
    match s.todo t with
    | [] => none
    | op :: rest =>
      if ans.sys.inodeMem.all fun a => (s.icache.heap a).isNone then
        match op.run s.fuel ans s.icache rest with
        | .ok (ops, c) => Daemon.play { (s.account op).goto t ops with icache := c } t answers
        | .error _ => none
      else none

theorem play_run {s s' : Daemon T} {t : T} {answers : List Answer} (h : s.play t answers = some s') :
    ReflTransGen DaemonStep s s' := by
  induction answers generalizing s with
  | nil =>
    cases h
    exact .refl
  | cons ans answers ih =>
    rw [Daemon.play] at h
    cases htodo : s.todo t with
    | nil =>
      rw [htodo] at h
      cases h
    | cons op rest =>
      rw [htodo] at h
      simp only at h
      by_cases hmem : (ans.sys.inodeMem.all fun a => (s.icache.heap a).isNone) = true
      swap
      · rw [if_neg hmem] at h
        cases h
      rw [if_pos hmem] at h
      cases hop : op.run s.fuel ans s.icache rest with
      | error e =>
        rw [hop] at h
        cases h
      | ok r =>
        obtain ⟨ops, c⟩ := r
        rw [hop] at h
        refine .head (.run htodo (fun a ha => ?_) hop) (ih h)
        rw [ha] at hmem
        simpa using hmem

theorem play_getD {s : Daemon T} {t : T} {answers : List Answer} (h : (s.play t answers).isSome) :
    ReflTransGen DaemonStep s ((s.play t answers).getD s) := by
  obtain ⟨s', hs'⟩ := Option.isSome_iff_exists.1 h
  rw [hs']
  exact play_run hs'

end

/-! One thread looks a directory up and then answers an `opendir`. Before it drops its reference the
other thread forgets the directory. -/

/-- The answers of the system, with memory for a new inode or without. -/
def answerDir (mem : Option ℕ) : Answer := ⟨{ lookupNew .dir 20 16 with inodeMem := mem }, true, .stop⟩

def dirAsked : Daemon Bool := (Daemon.init Bool 3).goto true (famfsLookupOps FUSE_ROOT_ID none)

def dirAnswers : List Answer :=
  [answerDir none, answerDir (some 16), answerDir none, answerDir none, answerDir none, answerDir none]

def dirLooked : Daemon Bool := (dirAsked.play true dirAnswers).getD dirAsked

theorem dirLooked_run : ReflTransGen DaemonStep (Daemon.init Bool 3) dirLooked := by
  have hsome : (dirAsked.play true dirAnswers).isSome := by decide
  exact .head (.send (.lookup FUSE_ROOT_ID) rfl (.inl rfl)) (play_getD hsome)

/-- The directory that the kernel knows is in the cache. -/
theorem cache_keeps_exactly_dir : 0 < dirLooked.lookups 16 ∧ 16 ∈ dirLooked.icache.cached := by
  have hquiet : ∀ t, dirLooked.todo t = [] := by decide
  have hlookups : 0 < dirLooked.lookups 16 := by decide
  refine ⟨hlookups, (cache_keeps_exactly 3 dirLooked_run hquiet (by decide)).2 ⟨16, .refl, .inr (.inl hlookups)⟩⟩

def dirOpening : Daemon Bool := dirLooked.goto true (famfsOpendirOps 16 true)

def dirOpened : Daemon Bool := (dirOpening.play true [answerDir none, answerDir none]).getD dirOpening

def dirForgetting : Daemon Bool :=
  { dirOpened.goto false (famfsForgetMultiOps [(16, 1)]) with
    lookups := fun a => dirOpened.lookups a - forgotten [(16, 1)] a }

def dirForgotten : Daemon Bool := (dirForgetting.play false [answerDir none, answerDir none]).getD dirForgetting

theorem dirForgotten_run : ReflTransGen DaemonStep (Daemon.init Bool 3) dirForgotten := by
  have hopened : (dirOpening.play true [answerDir none, answerDir none]).isSome := by decide
  have hforgotten : (dirForgetting.play false [answerDir none, answerDir none]).isSome := by decide
  have hone : ∀ a, forgotten [(16, 1)] a = if a = 16 then 1 else 0 := by
    intro a
    simp [forgotten, eq_comm (a := 16)]
  have hforget : DaemonStep dirOpened dirForgetting := by
    refine .forget (by decide) (by decide) (fun a => ?_) fun a hpos hkept => ?_
    · rw [hone]
      split_ifs with ha
      · subst ha
        decide
      · exact Nat.zero_le _
    · rw [hone] at hpos
      have ha : a = 16 := by
        by_contra hne
        simp [hne] at hpos
      subst ha
      -- the kernel has the reply, and nothing is open
      have htodo : ∀ t, ∀ op ∈ dirOpened.todo t, op.awaits ≠ some 16 := by decide
      rcases hkept with hopen | ⟨t, op, hop, hawaits⟩
      · exact absurd hopen (by decide)
      · exact absurd hawaits (htodo t op hop)
  have hopen : DaemonStep dirLooked dirOpening := .send (.opendir 16 true) (by decide) (.inr (by decide))
  exact dirLooked_run.trans (.head hopen ((play_getD hopened).trans (.head hforget (play_getD hforgotten))))

/-- The cache is in order, and the handler of the `opendir` goes on to read what it frees. -/
theorem fused_threads_safe_opendir : ∃ s, ReflTransGen DaemonStep (Daemon.init Bool 3) s ∧ WellFormed s.icache ∧
    s.todo true = [.putref 16] ∧
    (Op.putref 16).run s.fuel (answerDir none) s.icache [] = .error (.trap .useAfterFree) := by
  have htodo : dirForgotten.todo true = [.putref 16] := by decide
  obtain ⟨hwell, -, hnext⟩ := fused_threads_safe 3 dirForgotten_run
  refine ⟨dirForgotten, dirForgotten_run, hwell, htodo, ?_⟩
  have hstops : ((Op.putref 16).run dirForgotten.fuel (answerDir none) dirForgotten.icache []).toOption.isNone := by decide
  rcases hnext true (.putref 16) [] (answerDir none) htodo (by decide) with ⟨r, hok⟩ | ⟨⟨a, ha⟩, -⟩ | ⟨a, -, -, -, htrap⟩
  · rw [hok] at hstops
    cases hstops
  · cases ha
  · exact htrap

end Famfs.Fused

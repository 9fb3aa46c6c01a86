import Famfs.Lib.Runs
import Famfs.Sanity.IcacheRequests
import Famfs.Spec.FusedThreads

/-! What the operations of the handlers do to a cache whose counts are owed to the kernel and to the
handlers that are under way. -/

namespace Famfs.Fused

open Runs Threads

/-- References that an operation drops or hands over to the kernel. -/
def Op.gives (b : ℕ) : Op → ℕ
  | .putref a => if b = a then 1 else 0
  | .putrefLocked a n | .unref a n => if b = a then n else 0
  | .search parent plus => (if b = parent then 1 else 0) + (plus.getD []).count b
  | .fit _ a granted => (if b = a then 1 else 0) + granted.count b
  | .dirplus _ granted => granted.count b
  | .reply _ (.entries granted) => granted.count b
  | .reply nodeid .opened => if b = nodeid then 2 else 0
  | .reply nodeid .locked => if b = nodeid then 1 else 0
  | _ => 0

def Op.takes (b : ℕ) : Op → ℕ
  | .get a _ | .getref a => if b = a then 1 else 0
  | _ => 0

/-- The references to `b` of a handler that has these operations before it. -/
def held (b : ℕ) : List Op → ℕ
  | [] => 0
  | op :: rest => held b rest + op.gives b - op.takes b

/-- What an operation relies on: whoever takes a reference or looks into an inode has one afterwards,
and an inode that is asked for by its nodeid is kept by the kernel or by the handler. A reference is
dropped before the reply, or last. -/
def Op.Sound (rest : List Op) : Op → Prop
  | .get a _ => 1 ≤ held a rest ∧ (Awaits rest a ∨ 2 ≤ held a rest)
  | .getref a => 2 ≤ held a rest
  | .putref a => rest = [] ∨ Awaits rest a ∨ 1 ≤ held a rest
  | .pin a | .dump a | .flock a | .lockMutex a | .setHeld a _ | .tryUnflock a | .unflock a => 1 ≤ held a rest
  | .search _ _ | .fit _ _ _ | .dirplus _ _ => rest = []
  | .putrefLocked _ n | .unref _ n => 0 < n
  | .unlockMutex | .reply _ _ => True

def Sound : List Op → Prop
  | [] => True
  | op :: rest => op.Sound rest ∧ Sound rest

theorem awaits_cons {op : Op} {rest : List Op} {a : ℕ} : Awaits (op :: rest) a ↔ op.awaits = some a ∨ Awaits rest a := by
  simp [Awaits]

theorem awaits_skip {op : Op} {rest : List Op} {a : ℕ} (hop : op.awaits = none) : Awaits (op :: rest) a ↔ Awaits rest a := by
  simp [awaits_cons, hop]

theorem awaits_nil {a : ℕ} : ¬ Awaits [] a := by
  simp [Awaits]

theorem held_forgetOne (b a n : ℕ) (rest : List Op) :
    held b (famfsForgetOneOps a n ++ rest) = held b rest + if a = b then n else 0 := by
  simp only [famfsForgetOneOps, List.cons_append, List.nil_append, held, Op.gives, Op.takes, eq_comm (a := a)]
  split_ifs <;> omega

theorem sound_forgetOne {a n : ℕ} {rest : List Op} (hn : 0 < n) (h : Sound rest) : Sound (famfsForgetOneOps a n ++ rest) := by
  have hheld : held a (.unref a (n + 1) :: rest) = held a rest + (n + 1) := by
    simp [held, Op.gives, Op.takes]
  refine ⟨⟨?_, .inr ?_⟩, Nat.succ_pos n, h⟩
  · exact hheld ▸ by omega
  · exact hheld ▸ by omega

theorem held_forgetMulti (b : ℕ) (forgets : List (ℕ × ℕ)) : held b (famfsForgetMultiOps forgets) = forgotten forgets b := by
  induction forgets with
  | nil => rfl
  | cons f forgets ih =>
    rw [famfsForgetMultiOps, List.flatMap_cons, held_forgetOne, ← famfsForgetMultiOps, ih, forgotten, forgotten,
      List.map_cons, List.sum_cons]
    omega

theorem sound_forgetMulti {forgets : List (ℕ × ℕ)} (hpos : ∀ f ∈ forgets, 0 < f.2) : Sound (famfsForgetMultiOps forgets) := by
  induction forgets with
  | nil => trivial
  | cons f forgets ih =>
    rw [List.forall_mem_cons] at hpos
    exact sound_forgetOne hpos.1 (ih hpos.2)

theorem awaits_forgetMulti (forgets : List (ℕ × ℕ)) (a : ℕ) : ¬ Awaits (famfsForgetMultiOps forgets) a := by
  rintro ⟨op, hop, heq⟩
  obtain ⟨f, -, hf⟩ := List.mem_flatMap.1 hop
  simp only [famfsForgetOneOps, List.mem_cons, List.not_mem_nil, or_false] at hf
  rcases hf with rfl | rfl
  · cases heq
  · cases heq

theorem call_starts (call : KernelCall) :
    (∀ b, held b call.ops = 0) ∧ Sound call.ops ∧ ∀ a, Awaits call.ops a → a = call.nodeid := by
  -- one case for every list of operations that a handler can have
  rcases call with nodeid | nodeid | nodeid | ⟨nodeid, _ | _⟩ | ⟨nodeid, _ | _⟩ | ⟨nodeid, _ | _ | _⟩ | nodeid |
    ⟨nodeid, ⟨_ | _ | _, _ | _⟩⟩
  all_goals
    refine ⟨fun b => ?_, ?_, ?_⟩
    · by_cases hb : b = nodeid <;>
        simp [KernelCall.ops, famfsLookupOps, famfsReaddirplusOps, famfsGetattrOps, famfsSetattrOps, famfsOpendirOps,
          famfsGetFmapOps, famfsOpenOps, famfsFlockOps, held, Op.gives, Op.takes, hb]
    · simp [KernelCall.ops, famfsLookupOps, famfsReaddirplusOps, famfsGetattrOps, famfsSetattrOps, famfsOpendirOps,
        famfsGetFmapOps, famfsOpenOps, famfsFlockOps, Sound, Op.Sound, held, Op.gives, Op.takes, Awaits, Op.awaits]
    · simp [KernelCall.ops, famfsLookupOps, famfsReaddirplusOps, famfsGetattrOps, famfsSetattrOps, famfsOpendirOps,
        famfsGetFmapOps, famfsOpenOps, famfsFlockOps, Awaits, Op.awaits, KernelCall.nodeid]

theorem held_release (a b : ℕ) : held b (famfsReleaseOps a) = if b = a then 1 else 0 := by
  simp only [famfsReleaseOps, held, Op.gives, Op.takes]
  split_ifs <;> rfl

theorem sound_release (a : ℕ) : Sound (famfsReleaseOps a) := by
  simp [famfsReleaseOps, Sound, Op.Sound, held, Op.gives, Op.takes]

theorem awaits_release {a b : ℕ} (h : Awaits (famfsReleaseOps a) b) : b = a := by
  simpa [famfsReleaseOps, Awaits, Op.awaits, eq_comm] using h

/-- New inodes come first in the list, and no inode is the parent of itself or of one after it. -/
structure Rooted (c : FamfsIcache) (L : List ℕ) : Prop where
  later : L.Pairwise fun a b => (c.node b).parent ≠ some a
  self : ∀ a ∈ L, (c.node a).parent ≠ some a

theorem Rooted.sub {c c' : FamfsIcache} {L L' : List ℕ} (h : Rooted c L) (hsub : L'.Sublist L)
    (hparent : ∀ a ∈ L', (c'.node a).parent = (c.node a).parent) : Rooted c' L' := by
  refine ⟨(h.later.sublist hsub).imp_of_mem ?_, ?_⟩
  · intro a b _ hb hne
    rw [hparent b hb]
    exact hne
  · intro a ha
    rw [hparent a ha]
    exact h.self a (hsub.subset ha)

theorem Rooted.insert {c c' : FamfsIcache} {L pending : List ℕ} {a p : ℕ} (h : Rooted c L) (hl : Linked c L pending)
    (ha : a ∉ FUSE_ROOT_ID :: L) (hp : p ∈ FUSE_ROOT_ID :: L) (hnew : (c'.node a).parent = some p)
    (hparent : ∀ b ∈ L, (c'.node b).parent = (c.node b).parent) : Rooted c' (a :: L) := by
  have hold := h.sub (List.Sublist.refl L) hparent
  refine ⟨List.pairwise_cons.2 ⟨fun b hb heq => ?_, hold.later⟩, List.forall_mem_cons.2 ⟨fun heq => ?_, hold.self⟩⟩
  · obtain ⟨q, hq, hbq⟩ := hl.parents b hb
    rw [hparent b hb, hbq, Option.some.injEq] at heq
    exact ha (heq ▸ hq)
  · rw [hnew, Option.some.injEq] at heq
    exact ha (heq ▸ hp)

section

variable {c : FamfsIcache} {L : List ℕ} {w : ℕ → ℕ} {a : ℕ}

theorem owed_alive (h : IcacheOk c L [] w) (ha : 0 < w a) : a ∈ FUSE_ROOT_ID :: L ∧ w a ≤ (c.node a).refcount := by
  have hmem : a ∈ FUSE_ROOT_ID :: L := by
    by_contra hout
    rw [h.counted.outside a hout] at ha
    omega
  exact ⟨hmem, by rw [h.counted.refs a hmem]; omega⟩

theorem parent_setRef (c : FamfsIcache) (a b r : ℕ) : ((c.setRef a r).node b).parent = (c.node b).parent :=
  congrArg (·.2.2.2.2.1) (FamfsIcache.rest_setRef c a b r)

theorem putref_keep {fuel : ℕ} {pending : List ℕ} (h : Linked c L pending) (ha : a ∈ FUSE_ROOT_ID :: L)
    (hpos : 1 ≤ (c.node a).refcount) (hkeep : ¬ c.LastRefs a 1) :
    famfsInodePutref (fuel + 1) c a = .ok (c.setRef a ((c.node a).refcount - 1)) := by
  have hheap := h.heap ha
  have hcached := h.cached a ha
  have hlocked : famfsInodePutrefLocked (fuel + 1) c a 1 = .ok (c.setRef a ((c.node a).refcount - 1)) := by
    refine putrefLocked_keep hheap hpos ?_
    rintro ⟨hzero, hrest⟩
    exact hkeep ⟨by omega, hrest⟩
  have hheap' : ((c.setRef a ((c.node a).refcount - 1)).heap a).isSome := (FamfsIcache.heap_put ..).2 (.inl rfl)
  have hcached' : ((c.setRef a ((c.node a).refcount - 1)).node a).icache = true := by
    simpa [FamfsIcache.setRef, FamfsIcache.node_put] using hcached
  simp [famfsInodePutref, FamfsIcache.deref_eq hheap, hcached, hlocked, FamfsIcache.deref_eq hheap', hcached']

theorem putref_last {fuel : ℕ} (h : IcacheOk c L [] w) (ha : a ∈ FUSE_ROOT_ID :: L) (howns : 1 ≤ w a)
    (hlast : c.LastRefs a 1) (hfuel : L.length < fuel) : famfsInodePutref fuel c a = .error (.trap .useAfterFree) := by
  obtain ⟨c', L', chain, top, hrun, hok, hdropped, -⟩ := h.drop ha howns hfuel
  have hchain : a ∈ chain := by
    rcases hdropped.chained with hkeep | ⟨-, -, -⟩
    · exact absurd hlast hkeep
    · exact List.mem_cons_self
  have hfreed : c'.heap a = none := by
    rw [← Option.not_isSome_iff_eq_none, hok.linked.alloc, hdropped.list]
    have hroot : a ≠ FUSE_ROOT_ID := fun heq => hlast.2.2 ((h.linked.ino_eq ha).2 heq)
    simp [hroot, hchain]
  have hderef : c'.deref a = .error (.trap .useAfterFree) := by
    rw [FamfsIcache.deref, hfreed]
  simp [famfsInodePutref, FamfsIcache.deref_eq (h.linked.heap ha), h.linked.cached a ha, hrun, hderef]

end

section

variable {T : Type} [Fintype T]

/-- What is owed to the root's two references, to the kernel, to nobody and to the handlers. -/
def Daemon.weight (s : Daemon T) (a : ℕ) : ℕ :=
  (if a = FUSE_ROOT_ID then 2 else 0) + s.lookups a + s.opens a + s.leaked a + total (held a) s.todo

structure DaemonOk (s : Daemon T) (L : List ℕ) : Prop where
  icache : IcacheOk s.icache L [] s.weight
  rooted : Rooted s.icache L
  sound : ∀ t, Sound (s.todo t)
  kept : ∀ a, s.Kept a → s.Named a

variable {s : Daemon T} {t : T} {L L' : List ℕ} {op : Op} {rest ops : List Op} {c : FamfsIcache} {w : ℕ → ℕ} {a n : ℕ}

theorem daemonOk_init (T : Type) [Fintype T] (rootFd : ℤ) : DaemonOk (Daemon.init T rootFd) [] := by
  refine ⟨(icacheOk_init rootFd).reweigh fun b => ?_, ⟨List.Pairwise.nil, by simp⟩, fun t => trivial, ?_⟩
  · have hnone : total (held b) (Daemon.init T rootFd).todo = 0 := total_eq_zero fun t => rfl
    rw [Daemon.weight, hnone]
    simp [Daemon.init]
  · rintro a (hopen | ⟨t, hawaits⟩)
    · cases hopen
    · exact absurd hawaits awaits_nil

theorem held_le_weight (s : Daemon T) (t : T) (a : ℕ) : held a (s.todo t) ≤ s.weight a := by
  have := le_total (held a) s.todo t
  rw [Daemon.weight]
  omega

theorem DaemonOk.fuel (h : DaemonOk s L) : L.length < s.fuel := by
  rw [Daemon.fuel, h.icache.linked.count]
  omega

theorem DaemonOk.todo_sound (h : DaemonOk s L) (htodo : s.todo t = op :: rest) : op.Sound rest ∧ Sound rest := by
  have hsound := h.sound t
  rw [htodo] at hsound
  exact hsound

theorem DaemonOk.has (h : DaemonOk s L) (htodo : s.todo t = op :: rest) (hone : 1 ≤ held a (op :: rest)) :
    a ∈ FUSE_ROOT_ID :: L := by
  have hweight := held_le_weight s t a
  rw [htodo] at hweight
  exact (owed_alive h.icache (by omega : 0 < s.weight a)).1

theorem named_weight (s : Daemon T) (t : T) (ha : s.Named a) : held a (s.todo t) + 1 ≤ s.weight a := by
  have := le_total (held a) s.todo t
  rw [Daemon.weight]
  rcases ha with rfl | hlookups
  · rw [if_pos rfl]
    omega
  · omega

variable [DecidableEq T]

theorem weight_goto (s : Daemon T) (t : T) (ops : List Op) (b : ℕ) :
    (s.goto t ops).weight b + held b (s.todo t) = s.weight b + held b ops := by
  have := total_update (held b) s.todo t ops
  simp only [Daemon.weight, Daemon.goto]
  omega

theorem DaemonOk.next (h : DaemonOk s L) (htodo : s.todo t = op :: rest) (hc : IcacheOk c L' [] w)
    (hw : ∀ b, w b + held b (op :: rest) = s.weight b + held b ops) (hrooted : Rooted c L') (hsound : Sound ops)
    (hawaits : ∀ a, Awaits ops a → Awaits (op :: rest) a) : DaemonOk { s.goto t ops with icache := c } L' := by
  refine ⟨hc.reweigh fun b => ?_, hrooted, fun u => ?_, fun a hkept => h.kept a ?_⟩
  · have hgoto := weight_goto s t ops b
    have hw := hw b
    rw [htodo] at hgoto
    have hsame : ({ s.goto t ops with icache := c } : Daemon T).weight b = (s.goto t ops).weight b := rfl
    omega
  · change Sound (Function.update s.todo t ops u)
    by_cases hu : u = t
    · subst hu
      rw [Function.update_self]
      exact hsound
    · rw [Function.update_of_ne hu]
      exact h.sound u
  · rcases hkept with hopen | ⟨u, hu⟩
    · exact .inl hopen
    · refine .inr ?_
      change Awaits (Function.update s.todo t ops u) a at hu
      by_cases hut : u = t
      · subst hut
        rw [Function.update_self] at hu
        exact ⟨u, htodo ▸ hawaits a hu⟩
      · rw [Function.update_of_ne hut] at hu
        exact ⟨u, hu⟩

/-- The operation completes, and the daemon keeps its invariant. -/
def Served (s : Daemon T) (t : T) (ans : Answer) (op : Op) (rest : List Op) : Prop :=
  ∃ ops c L', op.run s.fuel ans s.icache rest = .ok (ops, c) ∧ DaemonOk { (s.account op).goto t ops with icache := c } L'

theorem DaemonOk.get {checked : Bool} (h : DaemonOk s L) (htodo : s.todo t = .get a checked :: rest) (ans : Answer) :
    Served s t ans (.get a checked) rest := by
  obtain ⟨⟨hone, hkept⟩, hsound⟩ := h.todo_sound htodo
  have hheld : ∀ b, held b (.get a checked :: rest) = held b rest - if b = a then 1 else 0 := fun b => rfl
  have hweight : 0 < s.weight a := by
    rcases hkept with hawaits | htwo
    · have := named_weight s t (h.kept a (.inr ⟨t, htodo ▸ awaits_cons.2 (.inr hawaits)⟩))
      omega
    · have := held_le_weight s t a
      rw [htodo, hheld, if_pos rfl] at this
      omega
  obtain ⟨hmem, hrefs⟩ := owed_alive h.icache hweight
  have hget := (h.icache.getref hmem).2
  refine ⟨rest, _, L, ?_, h.next htodo hget (fun b => ?_) (h.rooted.sub (.refl _) fun b _ => parent_setRef ..) hsound
    fun b hb => awaits_cons.2 (.inr hb)⟩
  · rw [Op.run, getInodeFromNodeid_some h.icache.linked hmem (by omega), ok_bind]
  · rw [Function.update_apply, hheld]
    split_ifs with hb
    · subst hb
      omega
    · omega

theorem DaemonOk.getref (h : DaemonOk s L) (htodo : s.todo t = .getref a :: rest) (ans : Answer) :
    Served s t ans (.getref a) rest := by
  obtain ⟨htwo, hsound⟩ := h.todo_sound htodo
  change 2 ≤ held a rest at htwo
  have hheld : ∀ b, held b (.getref a :: rest) = held b rest - if b = a then 1 else 0 := fun b => rfl
  have hweight := held_le_weight s t a
  rw [htodo, hheld, if_pos rfl] at hweight
  obtain ⟨hmem, -⟩ := owed_alive h.icache (by omega : 0 < s.weight a)
  obtain ⟨hrun, hget⟩ := h.icache.getref hmem
  refine ⟨rest, _, L, ?_, h.next htodo hget (fun b => ?_) (h.rooted.sub (.refl _) fun b _ => parent_setRef ..) hsound
    fun b hb => awaits_cons.2 (.inr hb)⟩
  · rw [Op.run, hrun, ok_bind]
  · rw [Function.update_apply, hheld]
    split_ifs with hb
    · subst hb
      omega
    · omega

theorem DaemonOk.touch (h : DaemonOk s L) (htodo : s.todo t = op :: rest) (hheld : ∀ b, held b (op :: rest) = held b rest)
    (hone : 1 ≤ held a rest) (f : FamfsInode → FamfsInode) (hlinks : ∀ inode, (f inode).links = inode.links)
    (hrefs : ∀ inode, (f inode).refcount = inode.refcount) (hpin : ∀ inode, (f inode).pinned = false → inode.pinned = false) :
    a ∈ FUSE_ROOT_ID :: L ∧ DaemonOk { s.goto t rest with icache := s.icache.put a f } L := by
  have hweight := held_le_weight s t a
  rw [htodo, hheld] at hweight
  obtain ⟨hmem, -⟩ := owed_alive h.icache (by omega : 0 < s.weight a)
  refine ⟨hmem, h.next htodo (h.icache.put hmem f hlinks hrefs hpin) (fun b => by rw [hheld b])
    (h.rooted.sub (.refl _) fun b _ => ?_) (h.todo_sound htodo).2 fun b hb => awaits_cons.2 (.inr hb)⟩
  rw [FamfsIcache.node_put]
  split_ifs
  · exact congrArg (·.2.2.2.2) (hlinks _)
  · rfl

theorem DaemonOk.drop (h : DaemonOk s L) (htodo : s.todo t = op :: rest)
    (hheld : ∀ b, held b (op :: rest) = held b rest + if b = a then n else 0) (hn : 0 < n) :
    a ∈ FUSE_ROOT_ID :: L ∧ n ≤ (s.icache.node a).refcount ∧
    ∃ c L', famfsInodePutrefLocked s.fuel s.icache a n = .ok c ∧ DaemonOk { s.goto t rest with icache := c } L' := by
  have hweight := held_le_weight s t a
  rw [htodo, hheld, if_pos rfl] at hweight
  obtain ⟨hmem, hrefs⟩ := owed_alive h.icache (by omega : 0 < s.weight a)
  obtain ⟨c, L', chain, top, hrun, hok, hdropped, -⟩ := h.icache.drop (n := n) hmem (by omega) h.fuel
  have hrooted : Rooted c L' := by
    refine h.rooted.sub (hdropped.list ▸ List.filter_sublist) fun b hb => ?_
    exact congrArg (·.2.2.2.2.1) (hdropped.rest b (List.mem_cons_of_mem _ hb))
  refine ⟨hmem, by omega, c, L', hrun, h.next htodo hok (fun b => ?_) hrooted (h.todo_sound htodo).2
    fun b hb => awaits_cons.2 (.inr hb)⟩
  rw [Function.update_apply, hheld]
  split_ifs with hb
  · subst hb
    omega
  · omega

theorem DaemonOk.putrefLocked (h : DaemonOk s L) (htodo : s.todo t = .putrefLocked a n :: rest) (ans : Answer) :
    Served s t ans (.putrefLocked a n) rest := by
  obtain ⟨-, -, c, L', hrun, hok⟩ := h.drop htodo (fun b => rfl) (h.todo_sound htodo).1
  exact ⟨rest, c, L', by rw [Op.run, hrun, ok_bind], hok⟩

theorem DaemonOk.unref (h : DaemonOk s L) (htodo : s.todo t = .unref a n :: rest) (ans : Answer) :
    Served s t ans (.unref a n) rest := by
  obtain ⟨hmem, hle, c, L', hrun, hok⟩ := h.drop htodo (fun b => rfl) (h.todo_sound htodo).1
  refine ⟨rest, c, L', ?_, hok⟩
  have hgood : ¬ ((s.icache.node a).refcount < n ∨ (s.icache.node a).icache = false) := by
    rw [h.icache.linked.cached a hmem]
    simpa using hle
  rw [Op.run, famfsIcacheUnrefInode, FamfsIcache.deref_eq (h.icache.linked.heap hmem), ok_bind, if_neg hgood, hrun, ok_bind]

theorem DaemonOk.putref (h : DaemonOk s L) (htodo : s.todo t = .putref a :: rest) (ans : Answer) :
    Served s t ans (.putref a) rest ∨
    (rest = [] ∧ s.icache.LastRefs a 1 ∧ (Op.putref a).run s.fuel ans s.icache rest = .error (.trap .useAfterFree)) := by
  have hheld : ∀ b, held b (.putref a :: rest) = held b rest + if b = a then 1 else 0 := fun b => rfl
  have hweight := held_le_weight s t a
  rw [htodo, hheld, if_pos rfl] at hweight
  obtain ⟨hmem, hrefs⟩ := owed_alive h.icache (by omega : 0 < s.weight a)
  by_cases hlast : s.icache.LastRefs a 1
  · -- every reference is this one, so nothing after it waits for the inode or has it
    refine .inr ⟨?_, hlast, ?_⟩
    · have hone := hlast.1
      rcases (h.todo_sound htodo).1 with hnil | hawaits | hmore
      · exact hnil
      · have := named_weight s t (h.kept a (.inr ⟨t, htodo ▸ awaits_cons.2 (.inr hawaits)⟩))
        rw [htodo, hheld, if_pos rfl] at this
        omega
      · omega
    · rw [Op.run, putref_last h.icache hmem (by omega) hlast h.fuel, error_bind]
  · obtain ⟨-, -, c, L', hrun, hok⟩ := h.drop htodo hheld Nat.one_pos
    have hput : famfsInodePutref s.fuel s.icache a = .ok (s.icache.setRef a ((s.icache.node a).refcount - 1)) :=
      putref_keep h.icache.linked hmem (by omega) hlast
    have hlocked : famfsInodePutrefLocked s.fuel s.icache a 1 = .ok (s.icache.setRef a ((s.icache.node a).refcount - 1)) := by
      refine putrefLocked_keep (h.icache.linked.heap hmem) (by omega) ?_
      rintro ⟨hzero, hrest⟩
      exact hlast ⟨by omega, hrest⟩
    rw [hlocked] at hrun
    cases hrun
    exact .inl ⟨rest, _, L', by rw [Op.run, hput, ok_bind], hok⟩

theorem DaemonOk.pin (h : DaemonOk s L) (htodo : s.todo t = .pin a :: rest) (ans : Answer) :
    Served s t ans (.pin a) rest := by
  obtain ⟨hmem, hok⟩ := h.touch htodo (fun b => rfl) (h.todo_sound htodo).1
    (fun inode => { inode with pinned := true }) (fun _ => rfl) (fun _ => rfl) nofun
  exact ⟨rest, _, L, by rw [Op.run, FamfsIcache.modify_eq (h.icache.linked.heap hmem), ok_bind], hok⟩

theorem DaemonOk.setHeld {on : Bool} (h : DaemonOk s L) (htodo : s.todo t = .setHeld a on :: rest) (ans : Answer) :
    Served s t ans (.setHeld a on) rest := by
  obtain ⟨hmem, hok⟩ := h.touch htodo (fun b => rfl) (h.todo_sound htodo).1
    (fun inode => { inode with flockHeld := on }) (fun _ => rfl) (fun _ => rfl) fun _ hpin => hpin
  exact ⟨rest, _, L, by rw [Op.run, FamfsIcache.modify_eq (h.icache.linked.heap hmem), ok_bind], hok⟩

theorem DaemonOk.read (h : DaemonOk s L) (htodo : s.todo t = op :: rest) (ops : List Op) (hheld : ∀ b, held b (op :: rest) = held b ops)
    (hsound : Sound ops) (hawaits : ∀ a, Awaits ops a → Awaits (op :: rest) a) :
    DaemonOk { s.goto t ops with icache := s.icache } L :=
  h.next htodo h.icache (fun b => by rw [hheld b]) h.rooted hsound hawaits

theorem DaemonOk.dump (h : DaemonOk s L) (htodo : s.todo t = .dump a :: rest) (ans : Answer) :
    Served s t ans (.dump a) rest := by
  obtain ⟨hone, hsound⟩ := h.todo_sound htodo
  have hmem := h.has htodo hone
  refine ⟨rest, s.icache, L, ?_, h.read htodo _ (fun b => rfl) hsound fun b hb => awaits_cons.2 (.inr hb)⟩
  rw [Op.run, dumpInode_eq h.icache.linked hmem, ok_bind]

theorem DaemonOk.flock (h : DaemonOk s L) (htodo : s.todo t = .flock a :: rest) (ans : Answer) :
    Served s t ans (.flock a) rest := by
  obtain ⟨hone, hsound⟩ := h.todo_sound htodo
  refine ⟨if (s.icache.node a).flockHeld then rest else .lockMutex a :: rest, s.icache, L, ?_, ?_⟩
  · rw [Op.run, FamfsIcache.deref_eq (h.icache.linked.heap (h.has htodo hone)), ok_bind]
  · split_ifs
    · exact h.read htodo _ (fun b => rfl) hsound fun b hb => awaits_cons.2 (.inr hb)
    · exact h.read htodo _ (fun b => rfl) ⟨hone, hsound⟩ fun b hb => (awaits_skip rfl).2 ((awaits_skip rfl).1 hb)

theorem DaemonOk.tryUnflock (h : DaemonOk s L) (htodo : s.todo t = .tryUnflock a :: rest) (ans : Answer) :
    Served s t ans (.tryUnflock a) rest := by
  obtain ⟨hone, hsound⟩ := h.todo_sound htodo
  refine ⟨if (s.icache.node a).flockHeld then .unflock a :: rest else rest, s.icache, L, ?_, ?_⟩
  · rw [Op.run, FamfsIcache.deref_eq (h.icache.linked.heap (h.has htodo hone)), ok_bind]
  · split_ifs
    · exact h.read htodo _ (fun b => rfl) ⟨hone, hsound⟩ fun b hb => (awaits_skip rfl).2 ((awaits_skip rfl).1 hb)
    · exact h.read htodo _ (fun b => rfl) hsound fun b hb => awaits_cons.2 (.inr hb)

theorem DaemonOk.unflock (h : DaemonOk s L) (htodo : s.todo t = .unflock a :: rest) (ans : Answer) :
    Served s t ans (.unflock a) rest := by
  obtain ⟨hone, hsound⟩ := h.todo_sound htodo
  refine ⟨if (s.icache.node a).flockHeld then .setHeld a false :: .unlockMutex :: rest else rest, s.icache, L, ?_, ?_⟩
  · rw [Op.run, FamfsIcache.deref_eq (h.icache.linked.heap (h.has htodo hone)), ok_bind]
  · split_ifs
    · exact h.read htodo _ (fun b => rfl) ⟨hone, trivial, hsound⟩ fun b hb =>
        (awaits_skip rfl).2 ((awaits_skip rfl).1 ((awaits_skip rfl).1 hb))
    · exact h.read htodo _ (fun b => rfl) hsound fun b hb => awaits_cons.2 (.inr hb)

theorem DaemonOk.unlockMutex (h : DaemonOk s L) (htodo : s.todo t = .unlockMutex :: rest) (ans : Answer) :
    Served s t ans .unlockMutex rest := by
  refine ⟨rest, { s.icache with flockMutex := false }, L, rfl, ?_⟩
  exact h.next htodo (h.icache.congr rfl rfl) (fun b => rfl) (h.rooted.sub (.refl _) fun b _ => rfl)
    (h.todo_sound htodo).2 fun b hb => awaits_cons.2 (.inr hb)

theorem DaemonOk.lockMutex (h : DaemonOk s L) (htodo : s.todo t = .lockMutex a :: rest) (ans : Answer) :
    Served s t ans (.lockMutex a) rest ∨
    (s.icache.flockMutex = true ∧ (Op.lockMutex a).run s.fuel ans s.icache rest = .error .blocked) := by
  obtain ⟨hone, hsound⟩ := h.todo_sound htodo
  cases hmutex : s.icache.flockMutex with
  | true => exact .inr ⟨rfl, by simp [Op.run, hmutex]⟩
  | false =>
    refine .inl ⟨.setHeld a true :: rest, { s.icache with flockMutex := true }, L, by simp [Op.run, hmutex], ?_⟩
    exact h.next htodo (h.icache.congr rfl rfl) (fun b => rfl) (h.rooted.sub (.refl _) fun b _ => rfl)
      ⟨hone, hsound⟩ fun b hb => (awaits_skip rfl).2 ((awaits_skip rfl).1 hb)

theorem held_lookupDone (parent a b : ℕ) (plus : Option (List ℕ)) :
    held b (lookupDone parent a plus) = held b [.search parent plus] + if b = a then 2 else 0 := by
  cases plus with
  | none =>
    simp only [lookupDone, held, Op.gives, Op.takes, Option.getD_none, List.count_nil, List.count_singleton, beq_iff_eq,
      eq_comm (a := a)]
    split_ifs <;> omega
  | some granted =>
    simp only [lookupDone, held, Op.gives, Op.takes, Option.getD_some]
    split_ifs <;> omega

theorem sound_lookupDone (parent a : ℕ) (plus : Option (List ℕ)) : Sound (lookupDone parent a plus) := by
  have hone : ∀ ops, 1 ≤ held a (.putref parent :: .putref a :: ops) := by
    intro ops
    simp only [held, Op.gives, Op.takes, if_true]
    omega
  cases plus with
  | none =>
    refine ⟨hone _, .inr (.inl ?_), .inr (.inr ?_), trivial, trivial⟩
    · simp [Awaits, Op.awaits]
    · simp [held, Op.gives, Op.takes]
  | some granted =>
    refine ⟨hone _, .inr (.inl ?_), .inr (.inr ?_), rfl, trivial⟩
    · simp [Awaits, Op.awaits]
    · simp [held, Op.gives, Op.takes]

theorem awaits_lookupDone {parent a b : ℕ} {plus : Option (List ℕ)} (h : Awaits (lookupDone parent a plus) b) :
    Awaits [.search parent plus] b := by
  cases plus with
  | none => simpa [lookupDone, Awaits, Op.awaits] using h
  | some granted => simpa [lookupDone, Awaits, Op.awaits] using h

theorem DaemonOk.search {parent : ℕ} {plus : Option (List ℕ)} (h : DaemonOk s L)
    (htodo : s.todo t = .search parent plus :: rest) {ans : Answer}
    (hmem : ∀ a, ans.sys.inodeMem = some a → s.icache.heap a = none) : Served s t ans (.search parent plus) rest := by
  obtain ⟨hrest, -⟩ := h.todo_sound htodo
  change rest = [] at hrest
  subst hrest
  have hheld : ∀ b, held b [.search parent plus] = (if b = parent then 1 else 0) + (plus.getD []).count b := by
    intro b
    simp [held, Op.gives, Op.takes]
  have hp : parent ∈ FUSE_ROOT_ID :: L := by
    refine h.has htodo ?_
    rw [hheld, if_pos rfl]
    omega
  have hfailed : DaemonOk { s.goto t (lookupFailed ans parent plus) with icache := s.icache } L := by
    have hcases : ∃ op, lookupFailed ans parent plus = [.putref parent, op] ∧
        (op = .dirplus parent (plus.getD []) ∨ op = .reply parent (.entries (plus.getD []))) := by
      unfold lookupFailed
      cases plus with
      | none => exact ⟨_, rfl, .inr rfl⟩
      | some granted =>
        by_cases hon : ans.sys.errno = 0 ∧ ans.fits = true
        · exact ⟨_, rfl, .inl (if_pos hon)⟩
        · exact ⟨_, rfl, .inr (if_neg hon)⟩
    obtain ⟨op, hops, hop⟩ := hcases
    rw [hops]
    refine h.read htodo _ (fun b => ?_) ?_ fun b hb => ?_
    · rw [hheld]
      rcases hop with rfl | rfl <;> simp [held, Op.gives, Op.takes, add_comm]
    · rcases hop with rfl | rfl <;> simp [Sound, Op.Sound, Awaits, Op.awaits]
    · rcases hop with rfl | rfl <;> simpa [Awaits, Op.awaits] using hb
  have hderef := FamfsIcache.deref_eq (h.icache.linked.heap hp)
  by_cases hsearch : ans.sys.searches (s.icache.node parent).fd = true
  swap
  · exact ⟨_, s.icache, L, by rw [Op.run, hderef, ok_bind, if_neg hsearch], hfailed⟩
  rcases h.icache.find ans.sys.ino h.fuel with ⟨hnone, hinos⟩ | ⟨a, ha, -, hfound⟩
  · cases hnew : ans.sys.inodeMem with
    | none => exact ⟨_, s.icache, L, by simp [Op.run, hderef, hnone, hnew], hfailed⟩
    | some a =>
      have hfree := hmem a hnew
      have hout : a ∉ FUSE_ROOT_ID :: L := fun hin => by simpa [hfree] using h.icache.linked.heap hin
      obtain ⟨c, hrun, hok, ⟨-, hrest⟩, hold⟩ := h.icache.insert (newInode ans.sys parent) hfree hp rfl hinos
      have hrooted : Rooted c (a :: L) := h.rooted.insert h.icache.linked hout hp (congrArg (·.2.2.2.2.1) hrest)
        fun b hb => congrArg (·.2.2.2.2.1) (hold b (List.mem_cons_of_mem _ hb)).2
      refine ⟨lookupDone parent a plus, c, a :: L, ?_, h.next htodo hok (fun b => ?_) hrooted (sound_lookupDone ..)
        fun b hb => awaits_lookupDone hb⟩
      · simp [Op.run, hderef, hsearch, hnone, hnew, famfsInodeAlloc, hrun]
      · rw [Function.update_apply, held_lookupDone]
        split_ifs with hb
        · subst hb
          rw [h.icache.counted.outside b hout]
          omega
        · omega
  · have hone := (h.icache.getref ha).2
    obtain ⟨hrun, htwo⟩ := hone.getref ha
    refine ⟨lookupDone parent a plus, _, L, ?_, h.next htodo htwo (fun b => ?_) (h.rooted.sub (.refl _) fun b _ => ?_)
      (sound_lookupDone ..) fun b hb => awaits_lookupDone hb⟩
    · simp [Op.run, hderef, hsearch, hfound, hrun]
    · rw [Function.update_apply, Function.update_self, Function.update_apply, held_lookupDone]
      split_ifs with hb
      · subst hb
        omega
      · omega
    · rw [parent_setRef, parent_setRef]

theorem DaemonOk.fit {parent : ℕ} {granted : List ℕ} (h : DaemonOk s L) (htodo : s.todo t = .fit parent a granted :: rest)
    (ans : Answer) : Served s t ans (.fit parent a granted) rest := by
  obtain ⟨hrest, -⟩ := h.todo_sound htodo
  change rest = [] at hrest
  subst hrest
  cases hfits : ans.fits with
  | true =>
    refine ⟨[.dirplus parent (granted ++ [a])], s.icache, L, by simp [Op.run, hfits], h.read htodo _ (fun b => ?_) ?_ fun b hb => ?_⟩
    · simp only [held, Op.gives, Op.takes, List.count_append, List.count_singleton, beq_iff_eq, eq_comm (a := a)]
      omega
    · simp [Sound, Op.Sound]
    · simpa [Awaits, Op.awaits] using hb
  | false =>
    refine ⟨famfsForgetOneOps a 1 ++ [.reply parent (.entries granted)], s.icache, L, by simp [Op.run, hfits],
      h.read htodo _ (fun b => ?_) (sound_forgetOne Nat.one_pos ?_) fun b hb => ?_⟩
    · rw [held_forgetOne]
      simp only [held, Op.gives, Op.takes, eq_comm (a := a)]
      omega
    · exact ⟨trivial, trivial⟩
    · simpa [famfsForgetOneOps, Awaits, Op.awaits] using hb

theorem DaemonOk.dirplus {parent : ℕ} {granted : List ℕ} (h : DaemonOk s L)
    (htodo : s.todo t = .dirplus parent granted :: rest) (ans : Answer) : Served s t ans (.dirplus parent granted) rest := by
  obtain ⟨hrest, hsound⟩ := h.todo_sound htodo
  change rest = [] at hrest
  subst hrest
  cases hnext : ans.next with
  | stop =>
    refine ⟨[.reply parent (.entries granted)], s.icache, L, by simp [Op.run, hnext], h.read htodo _ (fun b => rfl) ⟨trivial, trivial⟩ fun b hb => ?_⟩
    simpa [Awaits, Op.awaits] using hb
  | dots =>
    exact ⟨[.dirplus parent granted], s.icache, L, by simp [Op.run, hnext], h.read htodo _ (fun b => rfl) ⟨rfl, trivial⟩
      fun b hb => hb⟩
  | name =>
    refine ⟨famfsLookupOps parent (some granted), s.icache, L, by simp [Op.run, hnext], h.read htodo _ (fun b => ?_) ?_ fun b hb => ?_⟩
    · simp only [famfsLookupOps, held, Op.gives, Op.takes, Option.getD_some]
      omega
    · simp [famfsLookupOps, Sound, Op.Sound, held, Op.gives, Op.takes, Awaits, Op.awaits]
    · simpa [famfsLookupOps, Awaits, Op.awaits] using hb

theorem DaemonOk.reply {gain : Gain} (h : DaemonOk s L) (htodo : s.todo t = .reply a gain :: rest) (ans : Answer) :
    Served s t ans (.reply a gain) rest := by
  have hnamed : s.Named a := h.kept a (.inr ⟨t, htodo ▸ awaits_cons.2 (.inl rfl)⟩)
  -- the handler without the reply, as far as the counts do not change
  have hgoto : ∀ b, (s.goto t rest).weight b + (Op.reply a gain).gives b = s.weight b := by
    intro b
    have := weight_goto s t rest b
    rw [htodo] at this
    have hheld : held b (.reply a gain :: rest) = held b rest + (Op.reply a gain).gives b := rfl
    omega
  have hsound : ∀ u, Sound ((s.goto t rest).todo u) := by
    intro u
    change Sound (Function.update s.todo t rest u)
    by_cases hu : u = t
    · subst hu
      rw [Function.update_self]
      exact (h.todo_sound htodo).2
    · rw [Function.update_of_ne hu]
      exact h.sound u
  have hawaits : ∀ b u, Awaits ((s.goto t rest).todo u) b → s.Named b := by
    intro b u hu
    refine h.kept b (.inr ?_)
    change Awaits (Function.update s.todo t rest u) b at hu
    by_cases hut : u = t
    · subst hut
      rw [Function.update_self] at hu
      exact ⟨u, htodo ▸ awaits_cons.2 (.inr hu)⟩
    · rw [Function.update_of_ne hut] at hu
      exact ⟨u, hu⟩
  refine ⟨rest, s.icache, L, rfl, ?_⟩
  cases gain with
  | nothing =>
    refine ⟨h.icache.reweigh fun b => (hgoto b).symm, h.rooted, hsound, ?_⟩
    rintro b (hopen | ⟨u, hu⟩)
    · exact h.kept b (.inl hopen)
    · exact hawaits b u hu
  | entries granted =>
    refine ⟨h.icache.reweigh fun b => ?_, h.rooted, hsound, ?_⟩
    · rw [← hgoto b]
      simp only [Daemon.weight, Daemon.account, Daemon.goto, Op.gives]
      omega
    · have hmore : ∀ b, s.Named b → b = FUSE_ROOT_ID ∨ 0 < s.lookups b + granted.count b := by
        rintro b (hroot | hlookups)
        · exact .inl hroot
        · exact .inr (by omega)
      rintro b (hopen | ⟨u, hu⟩)
      · exact hmore b (h.kept b (.inl hopen))
      · exact hmore b (hawaits b u hu)
  | opened =>
    refine ⟨h.icache.reweigh fun b => ?_, h.rooted, hsound, ?_⟩
    · rw [← hgoto b]
      simp only [Daemon.weight, Daemon.account, Daemon.goto, Op.gives, Function.update_apply]
      split_ifs <;> subst_vars <;> omega
    · rintro b (hopen | ⟨u, hu⟩)
      · by_cases hb : b = a
        · subst hb
          exact hnamed
        · refine h.kept b (.inl ?_)
          change 0 < Function.update s.opens a (s.opens a + 1) b at hopen
          rwa [Function.update_of_ne hb] at hopen
      · exact hawaits b u hu
  | locked =>
    refine ⟨h.icache.reweigh fun b => ?_, h.rooted, hsound, ?_⟩
    · rw [← hgoto b]
      simp only [Daemon.weight, Daemon.account, Daemon.goto, Op.gives, Function.update_apply]
      split_ifs <;> subst_vars <;> omega
    · rintro b (hopen | ⟨u, hu⟩)
      · exact h.kept b (.inl hopen)
      · exact hawaits b u hu

end

end Famfs.Fused

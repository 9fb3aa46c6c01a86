import Famfs.Sanity.IcacheSteps

/-! Runs of the FUSE daemon over its inode cache. The list, the count, the inode numbers
and the parents stay in order in every run, and no request touches memory that is not
in use. The reference counts are those the kernel expects as long as no file is opened
and no lock requested; `famfs_open` takes two references and `famfs_release` drops one
besides its own, and `famfs_flock` never drops the one it takes. -/

namespace Famfs.Fused

open Runs Relation

variable {s t : FuseState} {L : List ℕ} {extra : ℕ → ℕ} {req : Request}

structure WellFormed (c : FamfsIcache) : Prop where
  ring : Links.IsRing (fun a => (c.node a).next) (fun a => (c.node a).prev) FUSE_ROOT_ID c.cached
  count : c.count = c.cached.length
  inUse : ∀ a, (c.heap a).isSome ↔ a ∈ FUSE_ROOT_ID :: c.cached
  inos : (c.cached.map fun a => (c.node a).ino).Nodup
  parents : ∀ a ∈ c.cached, ∃ p ∈ FUSE_ROOT_ID :: c.cached, (c.node a).parent = some p

theorem FuseOk.wellFormed (h : FuseOk s L extra) : WellFormed s.icache := by
  have hcached := h.linked.cached_eq
  have hinos := h.linked.inos
  rw [List.map_cons, List.nodup_cons] at hinos
  refine ⟨?_, ?_, ?_, ?_, ?_⟩
  · rw [hcached]
    exact h.linked.ring
  · rw [hcached]
    exact h.linked.count
  · intro a
    simpa [hcached] using h.linked.alloc a
  · rw [hcached]
    exact hinos.2
  · rw [hcached]
    exact h.linked.parents

theorem FuseOk.root_alive (h : FuseOk s L extra) : 2 ≤ (s.icache.node FUSE_ROOT_ID).refcount := by
  rw [h.counted.refs _ List.mem_cons_self, FuseState.weight, if_pos rfl]
  omega

/-- A pinned inode that nobody holds stays in the cache and has no reference left to give:
the handlers then read through a null pointer. Every other request completes. -/
theorem icache_structural_safety (rootFd : ℤ)
    (hrun : ReflTransGen (fun s t => ∃ req, FuseStep s req t) (FuseState.init rootFd) s) :
    WellFormed s.icache ∧ ∀ req, s.Allowed req → req.isFlock = false → (∃ t, s.serve req = some t) ∨
      (handle s.fuel s.icache req = .error (.trap .nullPointer) ∧ req.nodeid ∈ s.icache.cached ∧
        (s.icache.node req.nodeid).pinned = true ∧ (s.icache.node req.nodeid).refcount = 0) := by
  obtain ⟨L, extra, h⟩ : ∃ L extra, FuseOk s L extra := by
    refine Runs.invariant (P := fun s => ∃ L extra, FuseOk s L extra) ?_ hrun ⟨[], _, fuseOk_init rootFd⟩
    rintro s t ⟨L, extra, h⟩ ⟨req, hstep⟩
    exact h.step hstep
  refine ⟨h.wellFormed, ?_⟩
  intro req hallowed hflock
  rcases Nat.eq_zero_or_pos (s.icache.node req.nodeid).refcount with hdead | halive
  · rcases h.serve_dead hallowed hdead with herror | ⟨hlock, -⟩
    · have hroot : req.nodeid ≠ FUSE_ROOT_ID := by
        intro heq
        have := h.root_alive
        rw [heq] at hdead
        omega
      have hmem : req.nodeid ∈ L := (List.mem_cons.1 (h.named hallowed.named)).resolve_left hroot
      refine .inr ⟨herror, h.linked.cached_eq ▸ hmem, ?_, hdead⟩
      by_contra hpin
      have := h.counted.live _ hmem (by simpa using hpin)
      omega
    · simp [hflock] at hlock
  · rcases h.serve_alive hallowed halive with ⟨hlock, -⟩ | ⟨t, -, hserve, -⟩
    · simp [hflock] at hlock
    · exact .inl ⟨t, hserve⟩

/-- A lookup that finds a directory or a file and has memory for it. -/
def lookupNew (kind : ShadowKind) (ino a : ℕ) : LookupSys :=
  ⟨true, true, kind, true, true, true, true, ino, 5, some a, 0⟩

theorem icache_structural_safety_cascade : ∃ l,
    (FuseState.init 3).trace [.lookup 1 (lookupNew .dir 20 16), .lookup 16 (lookupNew .reg 21 32), .setattr 16 true,
      .forget 16 1, .forget 32 1] = some l ∧
    l.map (·.2.icache.cached) = [[16], [32, 16], [32, 16], [32, 16], []] ∧ ∀ e ∈ l, WellFormed e.2.icache := by
  have hcached : ((FuseState.init 3).trace [.lookup 1 (lookupNew .dir 20 16), .lookup 16 (lookupNew .reg 21 32),
      .setattr 16 true, .forget 16 1, .forget 32 1]).map (·.map (·.2.icache.cached)) =
      some [[16], [32, 16], [32, 16], [32, 16], []] := by decide
  obtain ⟨l, hl, hmap⟩ := Option.map_eq_some_iff.1 hcached
  exact ⟨l, hl, hmap, fun e he => (icache_structural_safety 3 ((trace_sound hl).1.reaches he)).1⟩

def FuseState.owed (s : FuseState) (a : ℕ) : ℕ :=
  s.lookups a + s.opens a + s.icache.cached.countP fun b => (s.icache.node b).parent = some a

def FuseState.Balanced (s : FuseState) : Prop :=
  ∀ a ∈ s.icache.cached, (s.icache.node a).refcount = s.owed a ∧ s.owed a ≠ 0

instance (s : FuseState) : Decidable s.Balanced := by
  unfold FuseState.Balanced
  infer_instance

def Request.leaks : Request → Bool
  | .openFile nodeid | .flock nodeid _ => nodeid != FUSE_ROOT_ID
  | .lookup _ _ | .forget _ _ | .getattr _ | .setattr _ _ | .release _ => false

theorem FuseOk.balanced_iff (h : FuseOk s L extra) (hpin : ∀ a ∈ L, (s.icache.node a).pinned = false) :
    s.Balanced ↔ ∀ a, a ≠ FUSE_ROOT_ID → extra a = 0 := by
  have hrefs : ∀ a ∈ L, (s.icache.node a).refcount = s.owed a + extra a := by
    intro a ha
    have hroot : a ≠ FUSE_ROOT_ID := fun heq => (List.nodup_cons.1 h.linked.ring.nodup).1 (heq ▸ ha)
    rw [h.counted.refs a (List.mem_cons_of_mem _ ha), FuseState.weight, if_neg hroot, FuseState.owed, h.linked.cached_eq,
      FamfsIcache.children]
    omega
  unfold FuseState.Balanced
  rw [h.linked.cached_eq]
  constructor
  · intro hbalanced a hroot
    by_cases ha : a ∈ L
    · have := hrefs a ha
      have := (hbalanced a ha).1
      omega
    · have := h.counted.outside a (by simp [hroot, ha])
      rw [FuseState.weight] at this
      omega
  · intro hextra a ha
    have hroot : a ≠ FUSE_ROOT_ID := fun heq => (List.nodup_cons.1 h.linked.ring.nodup).1 (heq ▸ ha)
    have hcount := hrefs a ha
    rw [hextra a hroot, Nat.add_zero] at hcount
    have := h.counted.live a ha (hpin a ha)
    exact ⟨hcount, by omega⟩

theorem surplus_eq_zero (hextra : ∀ a, a ≠ FUSE_ROOT_ID → extra a = 0) :
    (∀ a, a ≠ FUSE_ROOT_ID → req.surplus extra a = 0) ↔ req.leaks = false := by
  have hupdate : ∀ nodeid, (∀ a, a ≠ FUSE_ROOT_ID → Function.update extra nodeid (extra nodeid + 1) a = 0) ↔
      (nodeid != FUSE_ROOT_ID) = false := by
    intro nodeid
    rw [bne_eq_false_iff_eq]
    constructor
    · intro hall
      by_contra hne
      simpa using hall nodeid hne
    · rintro rfl a ha
      rw [Function.update_of_ne ha]
      exact hextra a ha
  cases req with
  | openFile nodeid => exact hupdate nodeid
  | flock nodeid op => exact hupdate nodeid
  | _ => exact iff_of_true hextra rfl

theorem FuseOk.step_unpinned (h : FuseOk s L extra) (hpin : ∀ a ∈ L, (s.icache.node a).pinned = false)
    (hstep : FuseStep s req t) (hset : req.isSetattr = false) :
    ∃ L', FuseOk t L' (req.surplus extra) ∧ ∀ a ∈ L', (t.icache.node a).pinned = false := by
  have halive : 1 ≤ (s.icache.node req.nodeid).refcount := by
    rcases List.mem_cons.1 (h.named hstep.1.named) with hroot | hmem
    · rw [hroot]
      have := h.root_alive
      omega
    · exact h.counted.live _ hmem (hpin _ hmem)
  rcases h.serve_alive hstep.1 halive with ⟨-, hblocked⟩ | ⟨u, L', hserve, hok, hkeep⟩
  · have hserve := hstep.2
    simp [FuseState.serve, hblocked] at hserve
  · rw [hstep.2, Option.some.injEq] at hserve
    subst hserve
    exact ⟨L', hok, hkeep hset hpin⟩

theorem balanced_from {l : List (Request × FuseState)} (hrun : Trace FuseStep s l)
    (hset : ∀ req ∈ l.map Prod.fst, req.isSetattr = false) (h : FuseOk s L extra)
    (hpin : ∀ a ∈ L, (s.icache.node a).pinned = false) (hextra : ∀ a, a ≠ FUSE_ROOT_ID → extra a = 0) :
    (∀ t ∈ l.map Prod.snd, t.Balanced) ↔ ∀ req ∈ l.map Prod.fst, req.leaks = false := by
  induction l generalizing s L extra with
  | nil => simp
  | cons first rest ih =>
    obtain ⟨req, t⟩ := first
    obtain ⟨hstep, hrest⟩ := hrun
    simp only [List.map_cons, List.forall_mem_cons] at hset ⊢
    obtain ⟨L', hok, hpin'⟩ := h.step_unpinned hpin hstep hset.1
    have hleaks : t.Balanced ↔ req.leaks = false := (hok.balanced_iff hpin').trans (surplus_eq_zero hextra)
    constructor
    · rintro ⟨hfirst, hall⟩
      have hnone := (hok.balanced_iff hpin').1 hfirst
      exact ⟨hleaks.1 hfirst, (ih hrest hset.2 hok hpin' hnone).1 hall⟩
    · rintro ⟨hfirst, hall⟩
      have hbalanced := hleaks.2 hfirst
      exact ⟨hbalanced, (ih hrest hset.2 hok hpin' ((hok.balanced_iff hpin').1 hbalanced)).2 hall⟩

/-- The counts are right after each request exactly if none of them leaves a reference behind. -/
theorem refcounts_balanced_iff (rootFd : ℤ) {l : List (Request × FuseState)}
    (hrun : Trace FuseStep (FuseState.init rootFd) l) (hset : ∀ req ∈ l.map Prod.fst, req.isSetattr = false) :
    (∀ t ∈ l.map Prod.snd, t.Balanced) ↔ ∀ req ∈ l.map Prod.fst, req.leaks = false :=
  balanced_from hrun hset (fuseOk_init rootFd) (by simp) fun _ _ => rfl

theorem refcounts_balanced_iff_lookups : ∃ l,
    (FuseState.init 3).trace [.lookup 1 (lookupNew .dir 20 16), .lookup 16 (lookupNew .reg 21 32),
      .lookup 16 (lookupNew .reg 21 48), .getattr 32, .openFile 1, .forget 16 1, .forget 32 2] = some l ∧
    ∀ t ∈ l.map Prod.snd, t.Balanced := by
  obtain ⟨l, hl⟩ := Option.isSome_iff_exists.1 (show ((FuseState.init 3).trace [.lookup 1 (lookupNew .dir 20 16),
    .lookup 16 (lookupNew .reg 21 32), .lookup 16 (lookupNew .reg 21 48), .getattr 32, .openFile 1, .forget 16 1,
    .forget 32 2]).isSome by decide)
  obtain ⟨hrun, hlabels⟩ := trace_sound hl
  refine ⟨l, hl, (refcounts_balanced_iff 3 hrun ?_).2 ?_⟩
  · rw [hlabels]
    decide
  · rw [hlabels]
    decide

/-- A file that was looked up once and then opened, or asked for a lock. -/
theorem open_leaks_reference : ∃ s t u,
    (FuseState.init 3).trace [.lookup 1 (lookupNew .reg 21 16)] = some [(.lookup 1 (lookupNew .reg 21 16), s)] ∧ s.Balanced ∧
      s.Allowed (.openFile 16) ∧ s.serve (.openFile 16) = some t ∧ ¬ t.Balanced ∧
      s.Allowed (.flock 16 ⟨.ex, false⟩) ∧ s.serve (.flock 16 ⟨.ex, false⟩) = some u ∧ ¬ u.Balanced :=
  ⟨_, _, _, rfl, by decide, by decide, rfl, by decide, by decide, rfl, by decide⟩

end Famfs.Fused

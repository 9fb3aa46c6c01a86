import Famfs.Proofs.FusedRuns

/-! `famfs_icache_destroy` at the end of a run. It follows `next` from the root and leaves `prev`
alone, so the list it works on is no ring any more. -/

namespace Famfs

open Relation Runs

variable {c : FamfsIcache} {L : List ℕ} {a b fuel : ℕ}

/-- What the loop relies on: `next` goes through `L` and back, and nothing else is in use. -/
structure Strung (c : FamfsIcache) (L : List ℕ) : Prop where
  next : (FUSE_ROOT_ID :: L).map (fun a => (c.node a).next) = L ++ [FUSE_ROOT_ID]
  nodup : (FUSE_ROOT_ID :: L).Nodup
  alloc : ∀ a, (c.heap a).isSome ↔ a ∈ FUSE_ROOT_ID :: L
  inos : ∀ a ∈ L, (c.node a).ino ≠ FUSE_ROOT_ID

theorem Linked.strung (h : Linked c L []) : Strung c L := by
  refine ⟨h.ring.next_eq, h.ring.nodup, fun a => ?_, fun a ha heq => ?_⟩
  · simpa using h.alloc a
  · rw [h.ino_eq (List.mem_cons_of_mem _ ha)] at heq
    exact (List.nodup_cons.1 h.ring.nodup).1 (heq ▸ ha)

def FamfsIcache.popped (c : FamfsIcache) (a : ℕ) : FamfsIcache :=
  (c.store FUSE_ROOT_ID { c.node FUSE_ROOT_ID with next := (c.node a).next }).freed a

theorem FamfsIcache.node_popped (hba : b ≠ a) (hroot : b ≠ FUSE_ROOT_ID) : (c.popped a).node b = c.node b := by
  rw [popped, node_freed hba, node_store, if_neg hroot]

theorem FamfsIcache.root_popped (ha : a ≠ FUSE_ROOT_ID) :
    (c.popped a).node FUSE_ROOT_ID = { c.node FUSE_ROOT_ID with next := (c.node a).next } := by
  rw [popped, node_freed ha.symm, node_store, if_pos rfl]

theorem FamfsIcache.heap_popped (hba : b ≠ a) : ((c.popped a).heap b).isSome ↔ b = FUSE_ROOT_ID ∨ (c.heap b).isSome := by
  simp only [popped, freed, Function.update_of_ne hba]
  exact heap_store ..

theorem Strung.apart (h : Strung c (a :: L)) : a ≠ FUSE_ROOT_ID ∧ ∀ b ∈ L, b ≠ a ∧ b ≠ FUSE_ROOT_ID := by
  obtain ⟨hroot, hnodup⟩ := List.nodup_cons.1 h.nodup
  refine ⟨fun heq => hroot (heq ▸ List.mem_cons_self), fun b hb => ⟨fun heq => ?_, fun heq => ?_⟩⟩
  · exact (List.nodup_cons.1 hnodup).1 (heq ▸ hb)
  · exact hroot (List.mem_cons_of_mem _ (heq ▸ hb))

theorem Strung.first (h : Strung c (a :: L)) :
    (c.node FUSE_ROOT_ID).next = a ∧ (c.node a).next :: L.map (fun a => (c.node a).next) = L ++ [FUSE_ROOT_ID] := by
  simpa using h.next

theorem Strung.pop (h : Strung c (a :: L)) : Strung (c.popped a) L := by
  obtain ⟨ha, hL⟩ := h.apart
  refine ⟨?_, ?_, fun b => ?_, fun b hb => ?_⟩
  · rw [List.map_cons, FamfsIcache.root_popped ha, ← h.first.2]
    congr 1
    apply List.map_congr_left
    intro b hb
    rw [FamfsIcache.node_popped (hL b hb).1 (hL b hb).2]
  · have hnodup := h.nodup
    simp only [List.nodup_cons, List.mem_cons, not_or] at hnodup ⊢
    exact ⟨hnodup.1.2, hnodup.2.2⟩
  · by_cases hba : b = a
    · subst hba
      have hout : b ∉ L := fun hb => (hL b hb).1 rfl
      simp [FamfsIcache.popped, FamfsIcache.freed, ha, hout]
    · rw [FamfsIcache.heap_popped hba, h.alloc b]
      simp [hba]
  · rw [FamfsIcache.node_popped (hL b hb).1 (hL b hb).2]
    exact h.inos b (List.mem_cons_of_mem _ hb)

theorem inodeFree_eq (hheap : (c.heap a).isSome) (hino : (c.node a).ino ≠ FUSE_ROOT_ID) :
    famfsInodeFree c a = .ok (c.freed a) := by
  rw [famfsInodeFree, FamfsIcache.deref_eq hheap, ok_bind, if_neg hino]
  rfl

theorem destroyLoop_cons (h : Strung c (a :: L)) {closed : List ℤ} {c' : FamfsIcache}
    (hrest : destroyLoop fuel (c.popped a) = .ok (closed, c')) :
    destroyLoop (fuel + 1) c = .ok ((c.node a).openFd ++ closed, c') := by
  obtain ⟨ha, -⟩ := h.apart
  have hheap : (c.heap a).isSome := (h.alloc a).2 (by simp)
  have hfree : famfsInodeFree (c.store FUSE_ROOT_ID { c.node FUSE_ROOT_ID with next := (c.node a).next }) a =
      .ok (c.popped a) := by
    refine inodeFree_eq ((FamfsIcache.heap_store ..).2 (.inr hheap)) ?_
    rw [FamfsIcache.node_store, if_neg ha]
    exact h.inos a List.mem_cons_self
  rw [destroyLoop, FamfsIcache.deref_eq ((h.alloc _).2 List.mem_cons_self), ok_bind, h.first.1, if_neg ha,
    FamfsIcache.deref_eq hheap, ok_bind]
  simp only [hfree, ok_bind, hrest]

theorem destroyLoop_eq (h : Strung c L) (hfuel : L.length < fuel) :
    ∃ c', destroyLoop fuel c = .ok (L.flatMap fun a => (c.node a).openFd, c') ∧
      (∀ a, (c'.heap a).isSome ↔ a = FUSE_ROOT_ID) ∧ (c'.node FUSE_ROOT_ID).fd = (c.node FUSE_ROOT_ID).fd := by
  induction L generalizing c fuel with
  | nil =>
    obtain ⟨fuel, rfl⟩ := Nat.exists_eq_add_one.2 hfuel
    have hnext : (c.node FUSE_ROOT_ID).next = FUSE_ROOT_ID := by simpa using h.next
    refine ⟨c, ?_, fun a => by simpa using h.alloc a, rfl⟩
    rw [destroyLoop, FamfsIcache.deref_eq ((h.alloc _).2 List.mem_cons_self), ok_bind, if_pos hnext]
    rfl
  | cons a L ih =>
    obtain ⟨fuel, rfl⟩ := Nat.exists_eq_add_one.2 (Nat.zero_lt_of_lt hfuel)
    obtain ⟨ha, hL⟩ := h.apart
    have hless : L.length < fuel := by simpa using hfuel
    obtain ⟨c', hrun, halloc, hfd⟩ := ih h.pop hless
    have hsame : (L.flatMap fun b => ((c.popped a).node b).openFd) = L.flatMap fun b => (c.node b).openFd := by
      apply List.flatMap_congr
      intro b hb
      rw [FamfsIcache.node_popped (hL b hb).1 (hL b hb).2]
    refine ⟨c', ?_, halloc, ?_⟩
    · rw [destroyLoop_cons h hrun, hsame, List.flatMap_cons]
    · rw [hfd, FamfsIcache.root_popped ha]

namespace Fused

/-- After any run, wherever its handlers are, the cache is given back: each cached inode is freed once
and nothing that has been freed is looked at, every file descriptor of the cache is closed once, and
only the root stays. -/
theorem icache_destroy_complete {T : Type} [Fintype T] [DecidableEq T] (rootFd : ℤ) {s : Daemon T}
    (hrun : ReflTransGen DaemonStep (Daemon.init T rootFd) s) :
    ∃ c, famfsIcacheDestroy (s.icache.count + 1) s.icache =
        .ok ((s.icache.cached.flatMap fun a => if 0 < (s.icache.node a).fd then [(s.icache.node a).fd] else []) ++
          if 0 ≤ (s.icache.node FUSE_ROOT_ID).fd then [(s.icache.node FUSE_ROOT_ID).fd] else [], c) ∧
      ∀ a, (c.heap a).isSome ↔ a = FUSE_ROOT_ID := by
  obtain ⟨L, h⟩ := daemon_run hrun
  have hstrung := h.icache.linked.strung
  obtain ⟨c, hloop, halloc, hfd⟩ := destroyLoop_eq hstrung (show L.length < s.icache.count + 1 by rw [h.icache.linked.count]; omega)
  have hclosed : (L.flatMap fun a => (s.icache.node a).openFd) =
      L.flatMap fun a => if 0 < (s.icache.node a).fd then [(s.icache.node a).fd] else [] := by
    apply List.flatMap_congr
    intro a ha
    simp [FamfsInode.openFd, hstrung.inos a ha]
  refine ⟨c, ?_, halloc⟩
  simp only [famfsIcacheDestroy, hloop, ok_bind, FamfsIcache.deref_eq ((halloc _).2 rfl), hfd, hclosed,
    h.icache.linked.cached_eq]

/-- The directory that was looked up is given back with its descriptor and that of the root. -/
theorem icache_destroy_complete_dir : ∃ c, famfsIcacheDestroy (dirLooked.icache.count + 1) dirLooked.icache = .ok ([5, 3], c) ∧
    ∀ a, (c.heap a).isSome ↔ a = FUSE_ROOT_ID := by
  obtain ⟨c, hrun, halloc⟩ := icache_destroy_complete 3 dirLooked_run
  refine ⟨c, hrun.trans ?_, halloc⟩
  have hclosed : ((dirLooked.icache.cached.flatMap fun a => if 0 < (dirLooked.icache.node a).fd then [(dirLooked.icache.node a).fd] else []) ++
      if 0 ≤ (dirLooked.icache.node FUSE_ROOT_ID).fd then [(dirLooked.icache.node FUSE_ROOT_ID).fd] else []) = [5, 3] := by decide
  rw [hclosed]

end Fused

end Famfs

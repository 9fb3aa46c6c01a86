import Famfs.Lib.Links
import Famfs.Lib.Runs
import Famfs.Spec.Icache

/-! The invariant of the inode cache. The cached inodes form the ring `L` around the root;
`pending` are the inodes that a cascade has unlinked and not yet freed. Each count is a
`weight`, what is owed to the outside, and one for every cached child. -/

namespace Famfs

open Runs

namespace FamfsIcache

variable {c : FamfsIcache} {a : ℕ}

def node (c : FamfsIcache) (a : ℕ) : FamfsInode := (c.heap a).getD {}

theorem deref_eq (h : (c.heap a).isSome) : c.deref a = .ok (c.node a) := by
  obtain ⟨inode, heq⟩ := Option.isSome_iff_exists.1 h
  simp [deref, node, heq]

theorem node_store (c : FamfsIcache) (a b : ℕ) (inode : FamfsInode) :
    (c.store a inode).node b = if b = a then inode else c.node b := by
  unfold node store
  split_ifs with h
  · simp [h]
  · simp [h]

theorem heap_store (c : FamfsIcache) (a b : ℕ) (inode : FamfsInode) :
    ((c.store a inode).heap b).isSome ↔ b = a ∨ (c.heap b).isSome := by
  unfold store
  by_cases h : b = a
  · simp [h]
  · simp [h]

def put (c : FamfsIcache) (a : ℕ) (f : FamfsInode → FamfsInode) : FamfsIcache := c.store a (f (c.node a))

theorem modify_eq (h : (c.heap a).isSome) (f : FamfsInode → FamfsInode) : c.modify a f = .ok (c.put a f) := by
  simp [modify, deref_eq h, put]

theorem node_put (c : FamfsIcache) (a b : ℕ) (f : FamfsInode → FamfsInode) :
    (c.put a f).node b = if b = a then f (c.node b) else c.node b := by
  rw [put, node_store]
  split_ifs with h
  · rw [h]
  · rfl

theorem heap_put (c : FamfsIcache) (a b : ℕ) (f : FamfsInode → FamfsInode) :
    ((c.put a f).heap b).isSome ↔ b = a ∨ (c.heap b).isSome :=
  heap_store c a b _

@[simp] theorem store_store (c : FamfsIcache) (a : ℕ) (i j : FamfsInode) : (c.store a i).store a j = c.store a j := by
  simp [store]

theorem store_node (h : (c.heap a).isSome) : c.store a (c.node a) = c := by
  obtain ⟨inode, heq⟩ := Option.isSome_iff_exists.1 h
  have hup : Function.update c.heap a (some (c.node a)) = c.heap := by
    rw [show some (c.node a) = c.heap a by simp [node, heq]]
    exact Function.update_eq_self a c.heap
  simp [store, hup]

def setRef (c : FamfsIcache) (a r : ℕ) : FamfsIcache := c.put a fun inode => { inode with refcount := r }

def children (c : FamfsIcache) (L : List ℕ) (a : ℕ) : ℕ := L.countP fun b => (c.node b).parent = some a

end FamfsIcache

namespace FamfsInode

def links (inode : FamfsInode) : ℕ × ℕ × ℕ × Bool × Option ℕ :=
  (inode.next, inode.prev, inode.ino, inode.icache, inode.parent)

def rest (inode : FamfsInode) : ℤ × ℕ × Bool × Bool × Option ℕ × Bool :=
  (inode.fd, inode.ino, inode.icache, inode.pinned, inode.parent, inode.flockHeld)

end FamfsInode

structure Linked (c : FamfsIcache) (L pending : List ℕ) : Prop where
  ring : Links.IsRing (fun a => (c.node a).next) (fun a => (c.node a).prev) FUSE_ROOT_ID L
  alloc : ∀ a, (c.heap a).isSome ↔ a ∈ FUSE_ROOT_ID :: L ∨ a ∈ pending
  apart : ∀ a ∈ pending, a ∉ FUSE_ROOT_ID :: L
  nodup : pending.Nodup
  count : c.count = L.length
  rootIno : (c.node FUSE_ROOT_ID).ino = FUSE_ROOT_ID
  rootParent : (c.node FUSE_ROOT_ID).parent = none
  cached : ∀ a ∈ FUSE_ROOT_ID :: L, (c.node a).icache = true
  inos : ((FUSE_ROOT_ID :: L).map fun a => (c.node a).ino).Nodup
  parents : ∀ a ∈ L, ∃ p ∈ FUSE_ROOT_ID :: L, (c.node a).parent = some p

structure Counted (c : FamfsIcache) (L : List ℕ) (weight : ℕ → ℕ) : Prop where
  refs : ∀ a ∈ FUSE_ROOT_ID :: L, (c.node a).refcount = weight a + c.children L a
  live : ∀ a ∈ L, (c.node a).pinned = false → 0 < (c.node a).refcount
  outside : ∀ a, a ∉ FUSE_ROOT_ID :: L → weight a = 0

structure IcacheOk (c : FamfsIcache) (L pending : List ℕ) (weight : ℕ → ℕ) : Prop where
  linked : Linked c L pending
  counted : Counted c L weight

variable {c c' : FamfsIcache} {L pending : List ℕ} {weight : ℕ → ℕ} {a p v r : ℕ}

theorem Linked.heap (h : Linked c L pending) (ha : a ∈ FUSE_ROOT_ID :: L) : (c.heap a).isSome :=
  (h.alloc a).2 (.inl ha)

theorem Linked.ino_eq (h : Linked c L pending) (ha : a ∈ FUSE_ROOT_ID :: L) : (c.node a).ino = FUSE_ROOT_ID ↔ a = FUSE_ROOT_ID := by
  constructor
  · intro hino
    exact List.inj_on_of_nodup_map h.inos ha List.mem_cons_self (hino.trans h.rootIno.symm)
  · rintro rfl
    exact h.rootIno

theorem Linked.congr (h : Linked c L pending) (hheap : ∀ b, (c'.heap b).isSome ↔ (c.heap b).isSome)
    (hlinks : ∀ b, (c'.node b).links = (c.node b).links) (hcount : c'.count = c.count) : Linked c' L pending := by
  simp only [FamfsInode.links, Prod.mk.injEq] at hlinks
  have hnext : (fun a => (c'.node a).next) = fun a => (c.node a).next := funext fun b => (hlinks b).1
  have hprev : (fun a => (c'.node a).prev) = fun a => (c.node a).prev := funext fun b => (hlinks b).2.1
  have hino : (fun a => (c'.node a).ino) = fun a => (c.node a).ino := funext fun b => (hlinks b).2.2.1
  have hicache : ∀ b, (c'.node b).icache = (c.node b).icache := fun b => (hlinks b).2.2.2.1
  have hparent : ∀ b, (c'.node b).parent = (c.node b).parent := fun b => (hlinks b).2.2.2.2
  exact
    { ring := by rw [hnext, hprev]; exact h.ring
      alloc := fun b => (hheap b).trans (h.alloc b)
      apart := h.apart
      nodup := h.nodup
      count := hcount.trans h.count
      rootIno := (congrFun hino _).trans h.rootIno
      rootParent := (hparent _).trans h.rootParent
      cached := fun b hb => (hicache b).trans (h.cached b hb)
      inos := by rw [hino]; exact h.inos
      parents := fun b hb => by rw [hparent]; exact h.parents b hb }

theorem FamfsIcache.children_congr (hparent : ∀ b ∈ L, (c'.node b).parent = (c.node b).parent) :
    c'.children L a = c.children L a := by
  apply List.countP_congr
  intro b hb
  rw [hparent b hb]

theorem IcacheOk.store (h : IcacheOk c L pending weight) (ha : a ∈ FUSE_ROOT_ID :: L) {inode : FamfsInode}
    (hlinks : inode.links = (c.node a).links) (hrefs : inode.refcount + weight a = (c.node a).refcount + v)
    (hlive : a ∈ L → inode.pinned = false → 0 < inode.refcount) :
    IcacheOk (c.store a inode) L pending (Function.update weight a v) := by
  have hsame : ∀ b, ((c.store a inode).node b).links = (c.node b).links := by
    intro b
    rw [FamfsIcache.node_store]
    split_ifs with hb
    · rw [hlinks, hb]
    · rfl
  refine ⟨h.linked.congr ?_ hsame rfl, ?_, ?_, ?_⟩
  · intro b
    rw [FamfsIcache.heap_store]
    constructor
    · rintro (rfl | hb)
      · exact h.linked.heap ha
      · exact hb
    · exact .inr
  · intro b hb
    have hchildren : (c.store a inode).children L b = c.children L b :=
      FamfsIcache.children_congr fun d _ => congrArg (·.2.2.2.2) (hsame d)
    have hold := h.counted.refs b hb
    rw [hchildren, FamfsIcache.node_store]
    split_ifs with hba
    · subst hba
      rw [Function.update_self]
      omega
    · rw [Function.update_of_ne hba, hold]
  · intro b hb hpin
    rw [FamfsIcache.node_store] at hpin ⊢
    split_ifs at hpin ⊢ with hba
    · exact hlive (hba ▸ hb) hpin
    · exact h.counted.live b hb hpin
  · intro b hb
    rw [Function.update_of_ne (fun heq : b = a => hb (heq ▸ ha))]
    exact h.counted.outside b hb

theorem IcacheOk.put (h : IcacheOk c L pending weight) (ha : a ∈ FUSE_ROOT_ID :: L) (f : FamfsInode → FamfsInode)
    (hlinks : ∀ inode, (f inode).links = inode.links) (hrefs : ∀ inode, (f inode).refcount = inode.refcount)
    (hpin : ∀ inode, (f inode).pinned = false → inode.pinned = false) : IcacheOk (c.put a f) L pending weight := by
  have hstore : IcacheOk (c.put a f) L pending (Function.update weight a (weight a)) := by
    refine h.store ha (hlinks _) (by rw [hrefs]) ?_
    intro haL hunpinned
    rw [hrefs]
    exact h.counted.live a haL (hpin _ hunpinned)
  rwa [Function.update_eq_self] at hstore

theorem IcacheOk.setRef (h : IcacheOk c L pending weight) (ha : a ∈ FUSE_ROOT_ID :: L)
    (hrefs : r + weight a = (c.node a).refcount + v) (hlive : a ∈ L → (c.node a).pinned = false → 0 < r) :
    IcacheOk (c.setRef a r) L pending (Function.update weight a v) :=
  h.store ha rfl hrefs hlive

theorem IcacheOk.reweigh (h : IcacheOk c L pending weight) {weight' : ℕ → ℕ} (hweight : ∀ b, weight b = weight' b) :
    IcacheOk c L pending weight' :=
  (funext hweight : weight = weight') ▸ h

theorem IcacheOk.congr (h : IcacheOk c L pending weight) (hheap : c'.heap = c.heap) (hcount : c'.count = c.count) :
    IcacheOk c' L pending weight := by
  have hnode : c'.node = c.node := by
    unfold FamfsIcache.node
    rw [hheap]
  refine ⟨h.linked.congr (by simp [hheap]) (by simp [hnode]) hcount, ?_, ?_, h.counted.outside⟩
  · intro b hb
    rw [FamfsIcache.children_congr (c := c) fun d _ => by rw [hnode], hnode]
    exact h.counted.refs b hb
  · rw [hnode]
    exact h.counted.live

@[simp] theorem FamfsIcache.rest_setRef (c : FamfsIcache) (a b r : ℕ) : ((c.setRef a r).node b).rest = (c.node b).rest := by
  rw [FamfsIcache.setRef, FamfsIcache.node_put]
  split_ifs with h
  · rfl
  · rfl

theorem FamfsIcache.refcount_setRef (c : FamfsIcache) (a b r : ℕ) :
    ((c.setRef a r).node b).refcount = if b = a then r else (c.node b).refcount := by
  rw [FamfsIcache.setRef, FamfsIcache.node_put]
  split_ifs with h
  · rfl
  · rfl

theorem getrefLocked_eq (h : (c.heap a).isSome) :
    famfsInodeGetrefLocked c a = .ok (c.setRef a ((c.node a).refcount + 1)) :=
  FamfsIcache.modify_eq h _

theorem IcacheOk.getref (h : IcacheOk c L pending weight) (ha : a ∈ FUSE_ROOT_ID :: L) :
    famfsInodeGetrefLocked c a = .ok (c.setRef a ((c.node a).refcount + 1)) ∧
      IcacheOk (c.setRef a ((c.node a).refcount + 1)) L pending (Function.update weight a (weight a + 1)) :=
  ⟨getrefLocked_eq (h.linked.heap ha), h.setRef ha (by omega) (by omega)⟩

theorem icacheOk_init (rootFd : ℤ) :
    IcacheOk (famfsIcacheInit rootFd) [] [] fun a => if a = FUSE_ROOT_ID then 2 else 0 := by
  have hnode : (famfsIcacheInit rootFd).node FUSE_ROOT_ID =
      { next := FUSE_ROOT_ID, prev := FUSE_ROOT_ID, fd := rootFd, ino := FUSE_ROOT_ID, refcount := 2, icache := true } := rfl
  refine ⟨⟨Links.isRing_nil rfl rfl, ?_, by simp, by simp, rfl, rfl, rfl, ?_, by simp, by simp⟩, ?_, by simp, ?_⟩
  · intro a
    by_cases ha : a = FUSE_ROOT_ID
    · simp [famfsIcacheInit, ha]
    · simp [famfsIcacheInit, ha]
  · simp [hnode]
  · simp [hnode, FamfsIcache.children]
  · intro a ha
    simpa using ha

end Famfs

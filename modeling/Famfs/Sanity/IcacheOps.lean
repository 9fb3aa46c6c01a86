import Famfs.Sanity.IcacheHeap

/-! The operations of the inode cache keep its invariant: the search, the insertion, and
the drop of references, whose cascade takes one inode out of the ring at a time. -/

namespace Famfs

open Runs

variable {c c' : FamfsIcache} {L A B pending : List ℕ} {weight : ℕ → ℕ} {a p n fuel ino : ℕ}

theorem findLoop_eq (h : IcacheOk c (A ++ B) pending weight) (hfuel : B.length < fuel) :
    (findLoop ino fuel c (B.headD FUSE_ROOT_ID) = .ok (none, c) ∧ ∀ b ∈ B, (c.node b).ino ≠ ino) ∨
      ∃ a ∈ B, (c.node a).ino = ino ∧
        findLoop ino fuel c (B.headD FUSE_ROOT_ID) = .ok (some a, c.setRef a ((c.node a).refcount + 1)) := by
  induction B generalizing A fuel with
  | nil =>
    obtain ⟨fuel, rfl⟩ := Nat.exists_eq_add_one.2 hfuel
    exact .inl ⟨by simp [findLoop], by simp⟩
  | cons b B ih =>
    obtain ⟨fuel, rfl⟩ := Nat.exists_eq_add_one.2 (Nat.zero_lt_of_lt hfuel)
    have hmem : b ∈ A ++ b :: B := by simp
    have hroot : b ≠ FUSE_ROOT_ID := fun heq => (List.nodup_cons.1 h.linked.ring.nodup).1 (heq ▸ hmem)
    have hheap := h.linked.heap (List.mem_cons_of_mem _ hmem)
    by_cases hino : (c.node b).ino = ino
    · have hlive : ¬ ((c.node b).refcount = 0 ∧ (c.node b).pinned = false) := by
        rintro ⟨hzero, hpin⟩
        have := h.counted.live b hmem hpin
        omega
      refine .inr ⟨b, by simp, hino, ?_⟩
      simp [findLoop, hroot, FamfsIcache.deref_eq hheap, hino, if_neg hlive, getrefLocked_eq hheap]
    · have hassoc : A ++ b :: B = (A ++ [b]) ++ B := by simp
      rw [hassoc] at h
      have hnext : (c.node b).next = B.headD FUSE_ROOT_ID := by simpa using h.linked.ring.next_split
      have hstep : findLoop ino (fuel + 1) c b = findLoop ino fuel c (B.headD FUSE_ROOT_ID) := by
        simp [findLoop, hroot, FamfsIcache.deref_eq hheap, hino, hnext]
      simp only [List.headD_cons, hstep]
      rcases ih h (by simpa using hfuel) with ⟨hnone, hall⟩ | ⟨a, ha, hfound⟩
      · exact .inl ⟨hnone, by simpa [hino] using hall⟩
      · exact .inr ⟨a, by simp [ha], hfound⟩

theorem FamfsIcache.node_next (hheap : (c.heap a).isSome) : (c.heap a).elim 0 (·.next) = (c.node a).next := by
  obtain ⟨inode, heq⟩ := Option.isSome_iff_exists.1 hheap
  simp [node, heq]

theorem dumpLoop_eq (h : Linked c (A ++ B) pending) (hfuel : B.length < fuel) :
    dumpLoop c fuel (B.headD FUSE_ROOT_ID) = B := by
  induction B generalizing A fuel with
  | nil =>
    obtain ⟨fuel, rfl⟩ := Nat.exists_eq_add_one.2 hfuel
    simp [dumpLoop]
  | cons b B ih =>
    obtain ⟨fuel, rfl⟩ := Nat.exists_eq_add_one.2 (Nat.zero_lt_of_lt hfuel)
    have hmem : b ∈ A ++ b :: B := by simp
    have hroot : b ≠ FUSE_ROOT_ID := fun heq => (List.nodup_cons.1 h.ring.nodup).1 (heq ▸ hmem)
    have hheap := h.heap (List.mem_cons_of_mem _ hmem)
    rw [show A ++ b :: B = (A ++ [b]) ++ B by simp] at h
    have hnext : (c.node b).next = B.headD FUSE_ROOT_ID := by simpa using h.ring.next_split
    rw [List.headD_cons, dumpLoop, if_neg hroot, FamfsIcache.node_next hheap, hnext, ih h (by simpa using hfuel)]

theorem Linked.cached_eq (h : Linked c L pending) : c.cached = L := by
  have hring : Linked c ([] ++ L) pending := h
  have hhead : (c.node FUSE_ROOT_ID).next = L.headD FUSE_ROOT_ID := hring.ring.next_split
  rw [FamfsIcache.cached, FamfsIcache.node_next (h.heap List.mem_cons_self), hhead, h.count]
  exact dumpLoop_eq hring (Nat.lt_succ_self _)

theorem IcacheOk.find (h : IcacheOk c L pending weight) (ino : ℕ) (hfuel : L.length < fuel) :
    (famfsIcacheFindGetFromInoLocked fuel c ino = .ok (none, c) ∧ ∀ b ∈ FUSE_ROOT_ID :: L, (c.node b).ino ≠ ino) ∨
      ∃ a ∈ FUSE_ROOT_ID :: L, (c.node a).ino = ino ∧
        famfsIcacheFindGetFromInoLocked fuel c ino = .ok (some a, c.setRef a ((c.node a).refcount + 1)) := by
  have hroot := h.linked.heap List.mem_cons_self
  by_cases hino : ino = FUSE_ROOT_ID
  · refine .inr ⟨FUSE_ROOT_ID, List.mem_cons_self, by rw [h.linked.rootIno, hino], ?_⟩
    simp [famfsIcacheFindGetFromInoLocked, hino, getrefLocked_eq hroot]
  · have hhead : (c.node FUSE_ROOT_ID).next = L.headD FUSE_ROOT_ID := by
      have hring : Links.IsRing _ _ _ ([] ++ L) := h.linked.ring
      exact hring.next_split
    have hstart : famfsIcacheFindGetFromInoLocked fuel c ino = findLoop ino fuel c (L.headD FUSE_ROOT_ID) := by
      simp [famfsIcacheFindGetFromInoLocked, hino, FamfsIcache.deref_eq hroot, hhead]
    have hloop : IcacheOk c ([] ++ L) pending weight := h
    rw [hstart]
    rcases findLoop_eq hloop hfuel with ⟨hnone, hall⟩ | ⟨a, ha, hfound⟩
    · refine .inl ⟨hnone, ?_⟩
      intro b hb
      rcases List.mem_cons.1 hb with rfl | hb
      · rw [h.linked.rootIno]
        exact fun heq => hino heq.symm
      · exact hall b hb
    · exact .inr ⟨a, List.mem_cons_of_mem _ ha, hfound⟩

theorem putrefLocked_keep (hheap : (c.heap a).isSome) (hle : n ≤ (c.node a).refcount)
    (hkeep : ¬ ((c.node a).refcount - n = 0 ∧ (c.node a).pinned = false ∧ (c.node a).ino ≠ FUSE_ROOT_ID)) :
    famfsInodePutrefLocked (fuel + 1) c a n = .ok (c.setRef a ((c.node a).refcount - n)) := by
  simp only [famfsInodePutrefLocked, FamfsIcache.deref_eq hheap, ok_bind]
  rw [if_neg (by omega), if_neg hkeep]
  rfl

/-- The cache after the last reference is gone and the inode is out of the list. -/
def FamfsIcache.unlinked (c : FamfsIcache) (a : ℕ) : FamfsIcache :=
  let inode := c.node a
  let c := c.setRef a 0
  let c := c.put inode.next fun next => { next with prev := inode.prev }
  let c := c.put inode.prev fun prev => { prev with next := inode.next }
  let c := { c with count := c.count - 1 }
  c.put a fun inode => { inode with icache := false }

theorem FamfsIcache.node_unlinked (c : FamfsIcache) (a b : ℕ) :
    (c.unlinked a).node b =
      { c.node b with
        next := Function.update (fun x => (c.node x).next) (c.node a).prev (c.node a).next b
        prev := Function.update (fun x => (c.node x).prev) (c.node a).next (c.node a).prev b
        refcount := if b = a then 0 else (c.node b).refcount
        icache := if b = a then false else (c.node b).icache } := by
  have hcount : ∀ (c : FamfsIcache) (k b : ℕ), ({ c with count := k } : FamfsIcache).node b = c.node b := fun _ _ _ => rfl
  simp only [unlinked, setRef, node_put, hcount, Function.update_apply]
  split_ifs <;> rfl

theorem FamfsIcache.heap_unlinked (ha : (c.heap a).isSome) (hnext : (c.heap (c.node a).next).isSome)
    (hprev : (c.heap (c.node a).prev).isSome) (b : ℕ) : ((c.unlinked a).heap b).isSome ↔ (c.heap b).isSome := by
  simp only [unlinked, setRef, heap_put]
  constructor
  · rintro (rfl | rfl | rfl | rfl | hb)
    · exact ha
    · exact hprev
    · exact hnext
    · exact ha
    · exact hb
  · intro hb
    simp [hb]

theorem Linked.unlink (h : Linked c (A ++ a :: B) pending) (hchild : ∀ b ∈ A ++ a :: B, (c.node b).parent ≠ some a) :
    Linked (c.unlinked a) (A ++ B) (a :: pending) := by
  have hmem : ∀ b, b ∈ FUSE_ROOT_ID :: (A ++ a :: B) ↔ b = a ∨ b ∈ FUSE_ROOT_ID :: (A ++ B) := by
    intro b
    simp only [List.mem_cons, List.mem_append]
    tauto
  have hperm : (FUSE_ROOT_ID :: (A ++ a :: B)).Perm (a :: FUSE_ROOT_ID :: (A ++ B)) :=
    (List.perm_middle.cons _).trans (List.Perm.swap ..)
  have ha := (hmem a).2 (.inl rfl)
  have hout : a ∉ FUSE_ROOT_ID :: (A ++ B) := (List.nodup_cons.1 (hperm.nodup_iff.1 h.ring.nodup)).1
  have hino : ∀ b, ((c.unlinked a).node b).ino = (c.node b).ino := fun b => by rw [FamfsIcache.node_unlinked]
  have hparent : ∀ b, ((c.unlinked a).node b).parent = (c.node b).parent := fun b => by rw [FamfsIcache.node_unlinked]
  exact
    { ring := by
        simp only [FamfsIcache.node_unlinked]
        exact h.ring.unlink
      alloc := by
        intro b
        rw [FamfsIcache.heap_unlinked (h.heap ha) (h.heap (h.ring.next_mem ha)) (h.heap (h.ring.prev_mem ha)), h.alloc, hmem]
        simp only [List.mem_cons]
        tauto
      apart := by
        intro b hb
        rcases List.mem_cons.1 hb with rfl | hb
        · exact hout
        · exact fun hin => h.apart b hb ((hmem b).2 (.inr hin))
      nodup := List.nodup_cons.2 ⟨fun hin => h.apart a hin ha, h.nodup⟩
      count := by
        show c.count - 1 = _
        rw [h.count]
        simp
      rootIno := (hino _).trans h.rootIno
      rootParent := (hparent _).trans h.rootParent
      cached := by
        intro b hb
        have hba : b ≠ a := fun heq => hout (heq ▸ hb)
        rw [FamfsIcache.node_unlinked]
        simp only [hba, if_false]
        exact h.cached b ((hmem b).2 (.inr hb))
      inos := by
        simp only [hino]
        exact (List.nodup_cons.1 ((hperm.map _).nodup_iff.1 h.inos)).2
      parents := by
        intro b hb
        have hbL : b ∈ A ++ a :: B := by
          simp only [List.mem_append, List.mem_cons] at hb ⊢
          tauto
        obtain ⟨p, hp, heq⟩ := h.parents b hbL
        have hpa : p ≠ a := fun hpa => hchild b hbL (hpa ▸ heq)
        exact ⟨p, ((hmem p).1 hp).resolve_left hpa, (hparent b).trans heq⟩ }

theorem Counted.unlink (hl : Linked c (A ++ a :: B) pending) (h : Counted c (A ++ a :: B) weight)
    (hp : p ∈ FUSE_ROOT_ID :: (A ++ B)) (hparent : (c.node a).parent = some p) :
    Counted (c.unlinked a) (A ++ B) (Function.update (Function.update weight a 0) p (weight p + 1)) := by
  have hperm : (FUSE_ROOT_ID :: (A ++ a :: B)).Perm (a :: FUSE_ROOT_ID :: (A ++ B)) :=
    (List.perm_middle.cons _).trans (List.Perm.swap ..)
  have hout : a ∉ FUSE_ROOT_ID :: (A ++ B) := (List.nodup_cons.1 (hperm.nodup_iff.1 hl.ring.nodup)).1
  have hsub : ∀ b ∈ FUSE_ROOT_ID :: (A ++ B), b ∈ FUSE_ROOT_ID :: (A ++ a :: B) := fun b hb =>
    hperm.mem_iff.2 (List.mem_cons_of_mem _ hb)
  have hne : ∀ b ∈ FUSE_ROOT_ID :: (A ++ B), b ≠ a := fun b hb heq => hout (heq ▸ hb)
  refine ⟨?_, ?_, ?_⟩
  · intro b hb
    have hchildren : c.children (A ++ a :: B) b = (c.unlinked a).children (A ++ B) b + if p = b then 1 else 0 := by
      simp only [FamfsIcache.children, FamfsIcache.node_unlinked, List.countP_append, List.countP_cons, hparent,
        Option.some.injEq, decide_eq_true_eq]
      omega
    have hold := h.refs b (hsub b hb)
    have hcount : ((c.unlinked a).node b).refcount = (c.node b).refcount := by
      simp [FamfsIcache.node_unlinked, hne b hb]
    rw [hcount, hold, hchildren]
    by_cases hbp : b = p
    · subst hbp
      rw [Function.update_self, if_pos rfl]
      omega
    · rw [Function.update_of_ne hbp, Function.update_of_ne (hne b hb), if_neg (fun heq => hbp heq.symm), Nat.add_zero]
  · intro b hb hpin
    have hba := hne b (List.mem_cons_of_mem _ hb)
    have hbL : b ∈ A ++ a :: B := by
      simp only [List.mem_append, List.mem_cons] at hb ⊢
      tauto
    simp only [FamfsIcache.node_unlinked, hba, if_false] at hpin ⊢
    exact h.live b hbL hpin
  · intro b hb
    rw [Function.update_of_ne (fun heq : b = p => hb (heq ▸ hp))]
    by_cases hba : b = a
    · rw [hba, Function.update_self]
    · rw [Function.update_of_ne hba]
      refine h.outside b (fun hin => ?_)
      exact (List.mem_cons.1 (hperm.mem_iff.1 hin)).elim hba hb

def FamfsIcache.freed (c : FamfsIcache) (a : ℕ) : FamfsIcache := { c with heap := Function.update c.heap a none }

theorem FamfsIcache.node_freed {b : ℕ} (hb : b ≠ a) : (c.freed a).node b = c.node b := by
  simp [node, freed, hb]

theorem IcacheOk.free (h : IcacheOk c L (a :: pending) weight) : IcacheOk (c.freed a) L pending weight := by
  have hout := h.linked.apart a List.mem_cons_self
  have hne : ∀ b ∈ FUSE_ROOT_ID :: L, b ≠ a := fun b hb heq => hout (heq ▸ hb)
  have hnode : ∀ b ∈ FUSE_ROOT_ID :: L, (c.freed a).node b = c.node b := fun b hb => FamfsIcache.node_freed (hne b hb)
  have hmap : ∀ {β : Type} (f : FamfsInode → β) (l : List ℕ), (∀ b ∈ l, b ∈ FUSE_ROOT_ID :: L) →
      l.map (fun b => f ((c.freed a).node b)) = l.map fun b => f (c.node b) := by
    intro β f l hl
    exact List.map_congr_left fun b hb => by rw [hnode b (hl b hb)]
  have hL : ∀ b ∈ L, b ∈ FUSE_ROOT_ID :: L := fun b hb => List.mem_cons_of_mem _ hb
  refine ⟨?_, ?_, ?_, h.counted.outside⟩
  · exact
      { ring :=
          ⟨(hmap _ _ fun _ hb => hb).trans h.linked.ring.next_eq,
            (hmap _ _ fun b hb => by simpa [or_comm] using hb).trans h.linked.ring.prev_eq, h.linked.ring.nodup⟩
        alloc := by
          intro b
          have hall := h.linked.alloc b
          by_cases hb : b = a
          · subst hb
            have hpend := (List.nodup_cons.1 h.linked.nodup).1
            simp [FamfsIcache.freed, hpend, hout]
          · simpa [FamfsIcache.freed, hb] using hall
        apart := fun b hb => h.linked.apart b (List.mem_cons_of_mem _ hb)
        nodup := (List.nodup_cons.1 h.linked.nodup).2
        count := h.linked.count
        rootIno := by rw [hnode _ List.mem_cons_self]; exact h.linked.rootIno
        rootParent := by rw [hnode _ List.mem_cons_self]; exact h.linked.rootParent
        cached := fun b hb => by rw [hnode b hb]; exact h.linked.cached b hb
        inos := by
          rw [hmap (·.ino) _ fun _ hb => hb]
          exact h.linked.inos
        parents := fun b hb => by rw [hnode b (hL b hb)]; exact h.linked.parents b hb }
  · intro b hb
    have hchildren : (c.freed a).children L b = c.children L b :=
      FamfsIcache.children_congr fun d hd => by rw [hnode d (hL d hd)]
    rw [hchildren, hnode b hb]
    exact h.counted.refs b hb
  · intro b hb
    rw [hnode b (hL b hb)]
    exact h.counted.live b hb

theorem putrefLocked_last (hl : Linked c L pending) (ha : a ∈ FUSE_ROOT_ID :: L) (hn : n ≤ (c.node a).refcount)
    (hlast : (c.node a).refcount - n = 0 ∧ (c.node a).pinned = false ∧ (c.node a).ino ≠ FUSE_ROOT_ID) :
    famfsInodePutrefLocked (fuel + 1) c a n = (do
      let c' ← match (c.node a).parent with
        | some p => famfsInodePutrefLocked fuel (c.unlinked a) p 1
        | none => .ok (c.unlinked a)
      let c' ← c'.modify a fun inode => { inode with parent := none }
      famfsInodeFree c' a) := by
  have hheap := hl.heap ha
  have hnext := hl.heap (hl.ring.next_mem ha)
  have hprev := hl.heap (hl.ring.prev_mem ha)
  have hsome : ∀ {c : FamfsIcache} {b d : ℕ} {inode : FamfsInode}, (c.heap b).isSome → ((c.store d inode).heap b).isSome :=
    fun h => (FamfsIcache.heap_store ..).2 (.inr h)
  have hput : ∀ {c : FamfsIcache} {b d : ℕ} {f : FamfsInode → FamfsInode}, (c.heap b).isSome → ((c.put d f).heap b).isSome :=
    fun h => (FamfsIcache.heap_put ..).2 (.inr h)
  have hicache : (c.node a).icache = true := hl.cached a ha
  simp only [famfsInodePutrefLocked, FamfsIcache.deref_eq hheap, ok_bind]
  rw [if_neg (by omega), if_pos hlast, FamfsIcache.modify_eq (hsome hnext), ok_bind,
    FamfsIcache.modify_eq (hput (hsome hprev)), ok_bind, if_neg (by simp [hicache]), FamfsIcache.modify_eq, ok_bind, hlast.1]
  · rfl
  · dsimp only
    exact hput (hput (hsome hheap))

/-- Nothing keeps the inode once `n` references are dropped. -/
def FamfsIcache.LastRefs (c : FamfsIcache) (a n : ℕ) : Prop :=
  (c.node a).refcount = n ∧ (c.node a).pinned = false ∧ (c.node a).ino ≠ FUSE_ROOT_ID

/-- The inode, its parent and so on, as far as each loses what kept it, and the inode
above them. -/
inductive DropChain (c : FamfsIcache) : ℕ → ℕ → List ℕ → ℕ → Prop where
  | stop {a n : ℕ} (hkeep : ¬ c.LastRefs a n) : DropChain c a n [] a
  | step {a n p top : ℕ} {chain : List ℕ} (hlast : c.LastRefs a n) (hparent : (c.node a).parent = some p)
      (hrest : DropChain c p 1 chain top) : DropChain c a n (a :: chain) top

theorem DropChain.congr {S chain : List ℕ} {top : ℕ} (h : DropChain c a n chain top) (ha : a ∈ S)
    (hup : ∀ b ∈ S, ∀ p, (c.node b).parent = some p → p ∈ S)
    (hsame : ∀ b ∈ S, (c'.node b).rest = (c.node b).rest ∧ (c'.node b).refcount = (c.node b).refcount) :
    DropChain c' a n chain top := by
  have hlast : ∀ b ∈ S, ∀ m, c'.LastRefs b m ↔ c.LastRefs b m := by
    intro b hb m
    obtain ⟨hrest, hrefs⟩ := hsame b hb
    simp only [FamfsInode.rest, Prod.mk.injEq] at hrest
    rw [FamfsIcache.LastRefs, FamfsIcache.LastRefs, hrefs, hrest.2.2.2.1, hrest.2.1]
  induction h with
  | stop hkeep => exact .stop fun hl => hkeep ((hlast _ ha _).1 hl)
  | step hl hparent _ ih =>
    refine .step ((hlast _ ha _).2 hl) ?_ (ih (hup _ ha _ hparent))
    exact (congrArg (·.2.2.2.2.1) (hsame _ ha).1).trans hparent

/-- What dropping `n` references to `a` leaves: the chain is out of the list and one inode
has lost references. -/
structure Dropped (c : FamfsIcache) (L : List ℕ) (a n : ℕ) (chain : List ℕ) (top : ℕ) (c' : FamfsIcache) (L' : List ℕ) : Prop where
  chained : DropChain c a n chain top
  sub : chain ⊆ L
  list : L' = L.filter (· ∉ chain)
  rest : ∀ b ∈ FUSE_ROOT_ID :: L', (c'.node b).rest = (c.node b).rest
  refs : ∀ b ∈ FUSE_ROOT_ID :: L',
    (c'.node b).refcount = (c.node b).refcount - if b = top then (if chain = [] then n else 1) else 0

theorem IcacheOk.drop (h : IcacheOk c L pending weight) (ha : a ∈ FUSE_ROOT_ID :: L) (hn : n ≤ weight a)
    (hfuel : L.length < fuel) :
    ∃ c' L' chain top, famfsInodePutrefLocked fuel c a n = .ok c' ∧
      IcacheOk c' L' pending (Function.update weight a (weight a - n)) ∧ Dropped c L a n chain top c' L' ∧
      ∀ d ∈ pending, c'.heap d = c.heap d := by
  -- every inode the cascade frees leaves the ring, so the length of the ring bounds its depth
  induction fuel generalizing c L pending weight a n with
  | zero => omega
  | succ fuel ih =>
    have hheap := h.linked.heap ha
    have hrefs := h.counted.refs a ha
    have hpend : ∀ d ∈ pending, d ≠ a := fun d hd heq => h.linked.apart d hd (heq ▸ ha)
    by_cases hlast : (c.node a).refcount - n = 0 ∧ (c.node a).pinned = false ∧ (c.node a).ino ≠ FUSE_ROOT_ID
    · have hroot : a ≠ FUSE_ROOT_ID := fun heq => hlast.2.2 ((h.linked.ino_eq ha).2 heq)
      have haL : a ∈ L := (List.mem_cons.1 ha).resolve_left hroot
      obtain ⟨p, hp, hparent⟩ := h.linked.parents a haL
      have hnone : c.children L a = 0 := by omega
      have hchild : ∀ b ∈ L, (c.node b).parent ≠ some a := by
        intro b hb heq
        exact List.countP_eq_zero.1 hnone b hb (by simpa using heq)
      have hpa : p ≠ a := fun heq => hchild a haL (heq ▸ hparent)
      rw [putrefLocked_last h.linked ha (by omega) hlast, hparent]
      obtain ⟨A, B, rfl⟩ := List.append_of_mem haL
      have hpAB : p ∈ FUSE_ROOT_ID :: (A ++ B) := by
        simp only [List.mem_cons, List.mem_append] at hp ⊢
        tauto
      have hmid : IcacheOk (c.unlinked a) (A ++ B) (a :: pending)
          (Function.update (Function.update weight a 0) p (weight p + 1)) :=
        ⟨h.linked.unlink hchild, h.counted.unlink h.linked hpAB hparent⟩
      have hone : 1 ≤ Function.update (Function.update weight a 0) p (weight p + 1) p := by simp
      obtain ⟨c', L', chain, top, hrun, hok, hdrop, hframe⟩ := ih hmid hpAB hone (by simp at hfuel ⊢; omega)
      have hheap' : (c'.heap a).isSome := (hok.linked.alloc a).2 (.inr List.mem_cons_self)
      have hino : (c'.node a).ino ≠ FUSE_ROOT_ID := by
        have hsame : c'.node a = (c.unlinked a).node a := by
          unfold FamfsIcache.node
          rw [hframe a List.mem_cons_self]
        rw [hsame, FamfsIcache.node_unlinked]
        exact hlast.2.2
      have hout := hok.linked.apart a List.mem_cons_self
      have haAB := hmid.linked.apart a List.mem_cons_self
      have hkept : ∀ b, b ≠ a → ((c.unlinked a).node b).rest = (c.node b).rest ∧
          ((c.unlinked a).node b).refcount = (c.node b).refcount := by
        intro b hb
        rw [FamfsIcache.node_unlinked]
        simp [FamfsInode.rest, hb]
      refine ⟨c'.freed a, L', a :: chain, top, ?_, ?_, ?_, ?_⟩
      · simp only [hrun, ok_bind, FamfsIcache.modify_eq hheap', famfsInodeFree,
          FamfsIcache.deref_eq ((FamfsIcache.heap_put ..).2 (.inl rfl)), FamfsIcache.node_put, if_true, if_neg hino]
        simp [FamfsIcache.freed, FamfsIcache.put, FamfsIcache.store]
      · have hweight : Function.update (Function.update (Function.update weight a 0) p (weight p + 1)) p
            (Function.update (Function.update weight a 0) p (weight p + 1) p - 1) =
            Function.update weight a (weight a - n) := by
          rw [Function.update_self, Function.update_idem, Nat.add_sub_cancel, show weight a - n = 0 by omega,
            Function.update_eq_self_iff, Function.update_of_ne hpa]
        exact hweight ▸ hok.free
      · have hne : ∀ b ∈ FUSE_ROOT_ID :: (A ++ B), b ≠ a := fun b hb heq => haAB (heq ▸ hb)
        have hne' : ∀ b ∈ FUSE_ROOT_ID :: L', b ≠ a := fun b hb heq => hout (heq ▸ hb)
        refine ⟨.step ⟨by omega, hlast.2⟩ hparent (hdrop.chained.congr (S := FUSE_ROOT_ID :: (A ++ B)) hpAB ?_ ?_), ?_, ?_, ?_, ?_⟩
        · intro b hb q hq
          rcases List.mem_cons.1 hb with rfl | hb
          · rw [hmid.linked.rootParent] at hq
            cases hq
          · obtain ⟨r, hr, heq⟩ := hmid.linked.parents b hb
            rw [heq] at hq
            cases hq
            exact hr
        · intro b hb
          exact ⟨(hkept b (hne b hb)).1.symm, (hkept b (hne b hb)).2.symm⟩
        · intro b hb
          rcases List.mem_cons.1 hb with rfl | hb
          · exact haL
          · have := hdrop.sub hb
            simp only [List.mem_append, List.mem_cons] at this ⊢
            tauto
        · rw [hdrop.list, List.filter_append, List.filter_append, List.filter_cons_of_neg (by simp)]
          congr 1
          all_goals
            apply List.filter_congr
            intro b hb
            have := hne b (by simp [hb])
            simp [this]
        · intro b hb
          rw [FamfsIcache.node_freed (hne' b hb), hdrop.rest b hb, (hkept b (hne' b hb)).1]
        · intro b hb
          rw [FamfsIcache.node_freed (hne' b hb), hdrop.refs b hb, (hkept b (hne' b hb)).2]
          simp
      · intro d hd
        have hda := hpend d hd
        have hstep := hframe d (List.mem_cons_of_mem _ hd)
        have hnext : d ≠ (c.node a).next := fun heq => h.linked.apart d hd (heq ▸ h.linked.ring.next_mem ha)
        have hprev : d ≠ (c.node a).prev := fun heq => h.linked.apart d hd (heq ▸ h.linked.ring.prev_mem ha)
        simpa [FamfsIcache.freed, FamfsIcache.unlinked, FamfsIcache.setRef, FamfsIcache.put, FamfsIcache.store, hda, hnext, hprev] using hstep
    · refine ⟨c.setRef a ((c.node a).refcount - n), L, [], a, putrefLocked_keep hheap (by omega) hlast, ?_, ?_, ?_⟩
      · refine h.setRef ha (by omega) (fun haL hpin => ?_)
        have hroot : (c.node a).ino ≠ FUSE_ROOT_ID := fun hino =>
          (List.nodup_cons.1 h.linked.ring.nodup).1 ((h.linked.ino_eq ha).1 hino ▸ haL)
        by_contra hzero
        exact hlast ⟨by omega, hpin, hroot⟩
      · refine ⟨.stop fun hl => hlast ⟨by have := hl.1; omega, hl.2⟩, by simp, by simp, by simp, ?_⟩
        intro b _
        rw [FamfsIcache.refcount_setRef, if_pos rfl]
        split_ifs with hb
        · rw [hb]
        · rfl
      · intro d hd
        simp [FamfsIcache.setRef, FamfsIcache.put, FamfsIcache.store, hpend d hd]

theorem IcacheOk.putref (h : IcacheOk c L pending weight) (ha : a ∈ FUSE_ROOT_ID :: L) (hn : n ≤ weight a)
    (hfuel : L.length < fuel) :
    ∃ c' L', famfsInodePutrefLocked fuel c a n = .ok c' ∧
      IcacheOk c' L' pending (Function.update weight a (weight a - n)) ∧ L' ⊆ L ∧
      (∀ b ∈ FUSE_ROOT_ID :: L', (c'.node b).rest = (c.node b).rest) ∧ ∀ d ∈ pending, c'.heap d = c.heap d := by
  obtain ⟨c', L', chain, top, hrun, hok, hdrop, hframe⟩ := h.drop ha hn hfuel
  refine ⟨c', L', hrun, hok, ?_, hdrop.rest, hframe⟩
  rw [hdrop.list]
  exact List.filter_subset_self _

section

variable {inode : FamfsInode}

def FamfsIcache.inserted (c : FamfsIcache) (a : ℕ) (inode : FamfsInode) : FamfsIcache :=
  let next := (c.node FUSE_ROOT_ID).next
  let c := (c.store a inode).put a fun inode => { inode with refcount := 2 }
  let c := c.put next fun inode => { inode with prev := a }
  let c := c.put a fun inode => { inode with next := next, prev := FUSE_ROOT_ID }
  let c := c.put FUSE_ROOT_ID fun inode => { inode with next := a }
  c.put a fun inode => { inode with icache := true }

theorem FamfsIcache.node_inserted (ha : a ≠ FUSE_ROOT_ID) (b : ℕ) :
    (c.inserted a inode).node b =
      { (if b = a then inode else c.node b) with
        next := Function.update (Function.update (fun x => (c.node x).next) a (c.node FUSE_ROOT_ID).next) FUSE_ROOT_ID a b
        prev := Function.update (Function.update (fun x => (c.node x).prev) (c.node FUSE_ROOT_ID).next a) a FUSE_ROOT_ID b
        refcount := if b = a then 2 else (c.node b).refcount
        icache := if b = a then true else (c.node b).icache } := by
  simp only [inserted, node_put, node_store, Function.update_apply]
  by_cases hb : b = a
  · subst hb
    split_ifs <;> rfl
  · simp only [hb, if_false]
    split_ifs <;> rfl

theorem FamfsIcache.heap_inserted (hl : Linked c L pending) (b : ℕ) :
    ((c.inserted a inode).heap b).isSome ↔ b = a ∨ (c.heap b).isSome := by
  simp only [inserted, heap_put, heap_store]
  constructor
  · rintro (rfl | rfl | rfl | rfl | rfl | rfl | hb)
    · exact .inl rfl
    · exact .inr (hl.heap List.mem_cons_self)
    · exact .inl rfl
    · exact .inr (hl.heap (hl.ring.next_mem List.mem_cons_self))
    · exact .inl rfl
    · exact .inl rfl
    · exact .inr hb
  · rintro (rfl | hb)
    · simp
    · simp [hb]

theorem insertLocked_eq (hl : Linked c L pending) (ha : c.heap a = none) (hp : p ∈ FUSE_ROOT_ID :: L)
    (hparent : inode.parent = some p) :
    famfsIcacheInsertLocked (c.store a inode) a = .ok
      { (c.inserted a inode).put p fun inode => { inode with refcount := inode.refcount + 1 } with count := c.count + 1 } := by
  have hroot : a ≠ FUSE_ROOT_ID := by
    rintro rfl
    simpa [ha] using hl.heap List.mem_cons_self
  have hheap : ∀ b, b = a ∨ (c.heap b).isSome → ((c.store a inode).heap b).isSome := fun b => (FamfsIcache.heap_store ..).2
  have hput : ∀ {c : FamfsIcache} {b d : ℕ} {f : FamfsInode → FamfsInode}, (c.heap b).isSome → ((c.put d f).heap b).isSome :=
    fun h => (FamfsIcache.heap_put ..).2 (.inr h)
  have hsa := hheap a (.inl rfl)
  have hsr := hheap _ (.inr (hl.heap List.mem_cons_self))
  have hsn := hheap _ (.inr (hl.heap (hl.ring.next_mem List.mem_cons_self)))
  have hnext : (((c.store a inode).put a fun i => { i with refcount := 2 }).node FUSE_ROOT_ID).next = (c.node FUSE_ROOT_ID).next := by
    simp [FamfsIcache.node_put, FamfsIcache.node_store, hroot.symm]
  have hup : ((c.inserted a inode).node a).parent = some p := by
    simp [FamfsIcache.node_inserted hroot, hparent]
  have hsp : ((c.inserted a inode).heap p).isSome := (FamfsIcache.heap_inserted hl p).2 (.inr (hl.heap hp))
  simp only [famfsIcacheInsertLocked, FamfsIcache.modify_eq hsa, ok_bind, FamfsIcache.deref_eq (hput hsr), hnext,
    FamfsIcache.modify_eq (hput hsn), FamfsIcache.modify_eq (hput (hput hsa)), FamfsIcache.modify_eq (hput (hput (hput hsr))),
    FamfsIcache.modify_eq (hput (hput (hput (hput hsa)))), FamfsIcache.deref_eq (hput (hput (hput (hput (hput hsa)))))]
  simp only [FamfsIcache.inserted] at hup hsp
  simp only [hup, getrefLocked_eq hsp, ok_bind]
  rfl

theorem Linked.insert (h : Linked c L pending) (ha : c.heap a = none) (hp : p ∈ FUSE_ROOT_ID :: L)
    (hparent : inode.parent = some p) (hino : ∀ b ∈ FUSE_ROOT_ID :: L, (c.node b).ino ≠ inode.ino) :
    Linked { c.inserted a inode with count := c.count + 1 } (a :: L) pending := by
  have hne : ∀ b ∈ FUSE_ROOT_ID :: L, b ≠ a := by
    rintro b hb rfl
    simpa [ha] using h.heap hb
  have hroot := (hne _ List.mem_cons_self).symm
  have hmem : ∀ b, b ∈ FUSE_ROOT_ID :: a :: L ↔ b = a ∨ b ∈ FUSE_ROOT_ID :: L := by
    intro b
    simp only [List.mem_cons]
    tauto
  have hnode : ∀ b, ({ c.inserted a inode with count := c.count + 1 } : FamfsIcache).node b = (c.inserted a inode).node b :=
    fun _ => rfl
  have hold : ∀ b ∈ FUSE_ROOT_ID :: L, (c.inserted a inode).node b =
      { c.node b with next := ((c.inserted a inode).node b).next, prev := ((c.inserted a inode).node b).prev } := by
    intro b hb
    simp [FamfsIcache.node_inserted hroot, hne b hb]
  have hnew : ((c.inserted a inode).node a).ino = inode.ino ∧ ((c.inserted a inode).node a).icache = true ∧
      ((c.inserted a inode).node a).parent = some p := by
    simp [FamfsIcache.node_inserted hroot, hparent]
  exact
    { ring := by
        simp only [hnode, FamfsIcache.node_inserted hroot]
        exact h.ring.insert fun hin => hne a hin rfl
      alloc := by
        intro b
        rw [hmem, or_assoc, ← h.alloc]
        exact FamfsIcache.heap_inserted h b
      apart := by
        intro b hb hin
        rcases (hmem b).1 hin with rfl | hin
        · simpa [ha] using (h.alloc b).2 (.inr hb)
        · exact h.apart b hb hin
      nodup := h.nodup
      count := by simp [h.count]
      rootIno := by
        rw [hnode, hold _ List.mem_cons_self]
        exact h.rootIno
      rootParent := by
        rw [hnode, hold _ List.mem_cons_self]
        exact h.rootParent
      cached := by
        intro b hb
        rcases (hmem b).1 hb with rfl | hb
        · exact hnew.2.1
        · rw [hnode, hold b hb]
          exact h.cached b hb
      inos := by
        have hperm : (FUSE_ROOT_ID :: a :: L).Perm (a :: FUSE_ROOT_ID :: L) := List.Perm.swap ..
        have hsame : (FUSE_ROOT_ID :: L).map (fun b => ((c.inserted a inode).node b).ino) =
            (FUSE_ROOT_ID :: L).map fun b => (c.node b).ino := by
          apply List.map_congr_left
          intro b hb
          rw [hold b hb]
        simp only [hnode]
        rw [(hperm.map _).nodup_iff, List.map_cons, hsame, List.nodup_cons, hnew.1]
        refine ⟨?_, h.inos⟩
        rw [List.mem_map]
        rintro ⟨b, hb, heq⟩
        exact hino b hb heq
      parents := by
        intro b hb
        rcases List.mem_cons.1 hb with rfl | hb
        · exact ⟨p, (hmem p).2 (.inr hp), hnew.2.2⟩
        · have hbL := List.mem_cons_of_mem FUSE_ROOT_ID hb
          obtain ⟨q, hq, heq⟩ := h.parents b hb
          refine ⟨q, (hmem q).2 (.inr hq), ?_⟩
          rw [hnode, hold b hbL]
          exact heq }

theorem IcacheOk.insert (h : IcacheOk c L pending weight) (inode : FamfsInode) (ha : c.heap a = none) (hp : p ∈ FUSE_ROOT_ID :: L)
    (hparent : inode.parent = some p) (hino : ∀ b ∈ FUSE_ROOT_ID :: L, (c.node b).ino ≠ inode.ino) :
    ∃ c', famfsIcacheInsertLocked (c.store a inode) a = .ok c' ∧
      IcacheOk c' (a :: L) pending (Function.update weight a 2) ∧
      ((c'.node a).refcount = 2 ∧ (c'.node a).rest = { inode with icache := true }.rest) ∧
      ∀ b ∈ FUSE_ROOT_ID :: L, (c.node b).refcount ≤ (c'.node b).refcount ∧ (c'.node b).rest = (c.node b).rest := by
  have hne : ∀ b ∈ FUSE_ROOT_ID :: L, b ≠ a := by
    rintro b hb rfl
    simpa [ha] using h.linked.heap hb
  have hroot := (hne _ List.mem_cons_self).symm
  have hlinked := h.linked.insert ha hp hparent hino
  refine ⟨_, insertLocked_eq h.linked ha hp hparent, ?_⟩
  generalize hc' : ({ (c.inserted a inode).put p fun inode => { inode with refcount := inode.refcount + 1 } with
    count := c.count + 1 } : FamfsIcache) = c'
  have hnode : ∀ b, c'.node b = if b = p then { (c.inserted a inode).node b with refcount := ((c.inserted a inode).node b).refcount + 1 }
      else (c.inserted a inode).node b := by
    intro b
    rw [← hc']
    exact FamfsIcache.node_put (c.inserted a inode) p b fun inode => { inode with refcount := inode.refcount + 1 }
  have hlinks : ∀ b, (c'.node b).links = ((c.inserted a inode).node b).links := by
    intro b
    rw [hnode]
    split_ifs with hbp
    · rfl
    · rfl
  have hrest : ∀ b ∈ FUSE_ROOT_ID :: L, (c'.node b).rest = (c.node b).rest := by
    intro b hb
    rw [hnode, FamfsIcache.node_inserted hroot]
    simp only [hne b hb, if_false]
    split_ifs with hbp
    · rfl
    · rfl
  have hnew : (c'.node a).refcount = 2 ∧ (c'.node a).parent = some p ∧ (c'.node a).rest = { inode with icache := true }.rest := by
    simp [hnode, (hne p hp).symm, FamfsIcache.node_inserted hroot, hparent, FamfsInode.rest]
  have hparents : ∀ b ∈ FUSE_ROOT_ID :: L, (c'.node b).parent = (c.node b).parent := fun b hb =>
    congrArg (·.2.2.2.2.1) (hrest b hb)
  have hrefs : ∀ b ∈ FUSE_ROOT_ID :: L, (c'.node b).refcount = (c.node b).refcount + if p = b then 1 else 0 := by
    intro b hb
    rw [hnode, FamfsIcache.node_inserted hroot]
    by_cases hbp : b = p
    · simp [hbp, hne p hp]
    · simp [hbp, hne b hb, Ne.symm hbp]
  have hchildren : ∀ b, c'.children (a :: L) b = c.children L b + if p = b then 1 else 0 := by
    intro b
    have hL : c'.children L b = c.children L b :=
      FamfsIcache.children_congr fun d hd => hparents d (List.mem_cons_of_mem _ hd)
    unfold FamfsIcache.children at hL ⊢
    rw [List.countP_cons, hL, hnew.2.1]
    simp
  refine ⟨⟨hlinked.congr ?_ hlinks ?_, ?_, ?_, ?_⟩, ⟨hnew.1, hnew.2.2⟩, ?_⟩
  · intro b
    rw [← hc']
    refine (FamfsIcache.heap_put (c.inserted a inode) p b fun inode => { inode with refcount := inode.refcount + 1 }).trans ⟨?_, .inr⟩
    rintro (rfl | hb)
    · exact (FamfsIcache.heap_inserted h.linked b).2 (.inr (h.linked.heap hp))
    · exact hb
  · rw [← hc']
  · intro b hb
    rw [hchildren]
    by_cases hba : b = a
    · have hnone : c.children L a = 0 := by
        apply List.countP_eq_zero.2
        intro d hd
        obtain ⟨q, hq, heq⟩ := h.linked.parents d hd
        simpa [heq] using hne q hq
      rw [hba, Function.update_self, hnew.1, hnone, if_neg (hne p hp)]
    · have hbL : b ∈ FUSE_ROOT_ID :: L := by
        simp only [List.mem_cons] at hb ⊢
        tauto
      rw [Function.update_of_ne hba, hrefs b hbL, h.counted.refs b hbL, Nat.add_assoc]
  · intro b hb hpin
    rcases List.mem_cons.1 hb with rfl | hb
    · omega
    · have hbL := List.mem_cons_of_mem FUSE_ROOT_ID hb
      have hpin' : (c.node b).pinned = false := (congrArg (·.2.2.2.1) (hrest b hbL)).symm.trans hpin
      have hpos := h.counted.live b hb hpin'
      rw [hrefs b hbL]
      omega
  · intro b hb
    simp only [List.mem_cons, not_or] at hb
    rw [Function.update_of_ne hb.2.1]
    exact h.counted.outside b (by simp [hb.1, hb.2.2])
  · intro b hb
    exact ⟨by rw [hrefs b hb]; omega, hrest b hb⟩

end

end Famfs

import Famfs.Sanity.IcacheRequests
import Famfs.Spec.Lookup

/-! Dropping a reference to a cached inode. With the mutex held the cascade frees the
inode and those ancestors that it kept alive, and takes one reference from the inode
above them. `famfs_inode_putref` then looks for its mutex in the inode: after a last
reference it reads memory that has been freed. -/

namespace Famfs

open Runs

variable {c c' : FamfsIcache} {L : List ℕ} {weight : ℕ → ℕ} {a n fuel : ℕ}

structure RefDropped (c : FamfsIcache) (a : ℕ) (chain : List ℕ) (top : ℕ) (c' : FamfsIcache) : Prop where
  chained : DropChain c a 1 chain top
  freed : ∀ b ∈ chain, c'.heap b = none
  list : c'.cached = c.cached.filter (· ∉ chain)
  kept : ∀ b ∈ FUSE_ROOT_ID :: c.cached, b ∉ chain → (c'.heap b).isSome ∧ (c'.node b).rest = (c.node b).rest ∧
    (c'.node b).refcount = (c.node b).refcount - if b = top then 1 else 0

theorem Dropped.refDropped {chain L' : List ℕ} {top : ℕ} {weight' : ℕ → ℕ} (h : IcacheOk c L [] weight)
    (hok : IcacheOk c' L' [] weight') (hd : Dropped c L a 1 chain top c' L') : RefDropped c a chain top c' := by
  have hmem : ∀ b, b ∈ FUSE_ROOT_ID :: L → b ∉ chain → b ∈ FUSE_ROOT_ID :: L' := by
    intro b hb hout
    rw [hd.list]
    simpa [hout] using hb
  refine ⟨hd.chained, ?_, ?_, ?_⟩
  · intro b hb
    have hroot : b ≠ FUSE_ROOT_ID := fun heq => (List.nodup_cons.1 h.linked.ring.nodup).1 (heq ▸ hd.sub hb)
    rw [← Option.not_isSome_iff_eq_none, hok.linked.alloc, hd.list]
    simp [hroot, hb]
  · rw [hok.linked.cached_eq, h.linked.cached_eq, hd.list]
  · intro b hb hout
    rw [h.linked.cached_eq] at hb
    have hb' := hmem b hb hout
    refine ⟨hok.linked.heap hb', hd.rest b hb', ?_⟩
    rw [hd.refs b hb', ite_self]

/-- With the mutex held, a reference that the caller owns is dropped as it should be. -/
theorem putrefLocked_drops (h : IcacheOk c L [] weight) (ha : a ∈ FUSE_ROOT_ID :: L) (howns : 1 ≤ weight a) :
    ∃ c' chain top, famfsInodePutrefLocked (c.count + 2) c a 1 = .ok c' ∧ RefDropped c a chain top c' := by
  obtain ⟨c', L', chain, top, hrun, hok, hd, -⟩ := h.drop ha howns (show L.length < c.count + 2 by rw [h.linked.count]; omega)
  exact ⟨c', chain, top, hrun, hd.refDropped h hok⟩

def KeepsInos (c c' : FamfsIcache) : Prop :=
  ∀ b inode', c'.heap b = some inode' → ∃ inode, c.heap b = some inode ∧ inode.ino = inode'.ino

theorem KeepsInos.trans {c₁ c₂ c₃ : FamfsIcache} (h₁ : KeepsInos c₁ c₂) (h₂ : KeepsInos c₂ c₃) : KeepsInos c₁ c₃ := by
  intro b inode' hb
  obtain ⟨inode, hb, hino⟩ := h₂ b inode' hb
  obtain ⟨inode₁, hb, hino₁⟩ := h₁ b inode hb
  exact ⟨inode₁, hb, hino₁.trans hino⟩

theorem keepsInos_store {inode inode' : FamfsInode} (ha : c.heap a = some inode) (hino : inode'.ino = inode.ino) :
    KeepsInos c (c.store a inode') := by
  intro b inode₁ hb
  by_cases hba : b = a
  · subst hba
    simp only [FamfsIcache.store, Function.update_self, Option.some.injEq] at hb
    exact ⟨inode, ha, hb ▸ hino.symm⟩
  · simp only [FamfsIcache.store, Function.update_of_ne hba] at hb
    exact ⟨inode₁, hb, rfl⟩

theorem deref_eq_ok {inode : FamfsInode} (h : c.deref a = .ok inode) : c.heap a = some inode := by
  unfold FamfsIcache.deref at h
  cases hheap : c.heap a with
  | none => simp [hheap] at h
  | some i =>
    simp only [hheap, Except.ok.injEq] at h
    rw [h]

theorem keepsInos_modify {f : FamfsInode → FamfsInode} (h : c.modify a f = .ok c') (hf : ∀ inode, (f inode).ino = inode.ino) :
    KeepsInos c c' := by
  rw [FamfsIcache.modify, bind_eq_ok] at h
  obtain ⟨inode, hderef, heq⟩ := h
  cases heq
  exact keepsInos_store (deref_eq_ok hderef) (hf inode)

theorem keepsInos_free (h : famfsInodeFree c a = .ok c') : KeepsInos c c' := by
  rw [famfsInodeFree, bind_eq_ok] at h
  obtain ⟨inode, -, h⟩ := h
  split_ifs at h with hroot
  · cases h
    exact fun b inode' hb => ⟨inode', hb, rfl⟩
  · cases h
    intro b inode' hb
    by_cases hba : b = a
    · subst hba
      simp at hb
    · simp only [Function.update_of_ne hba] at hb
      exact ⟨inode', hb, rfl⟩

theorem putrefLocked_keepsInos (h : famfsInodePutrefLocked fuel c a n = .ok c') : KeepsInos c c' := by
  induction fuel generalizing c a n c' with
  | zero => cases h
  | succ fuel ih =>
    rw [famfsInodePutrefLocked, bind_eq_ok] at h
    obtain ⟨inode, hderef, h⟩ := h
    by_cases hlt : inode.refcount < n
    · rw [if_pos hlt] at h
      cases h
    rw [if_neg hlt] at h
    have hstore : KeepsInos c (c.store a { inode with refcount := inode.refcount - n }) :=
      keepsInos_store (deref_eq_ok hderef) rfl
    by_cases hlast : inode.refcount - n = 0 ∧ inode.pinned = false ∧ inode.ino ≠ FUSE_ROOT_ID
    swap
    · simp only [if_neg hlast, Except.ok.injEq] at h
      exact h ▸ hstore
    simp only [if_pos hlast, bind_eq_ok] at h
    obtain ⟨c₁, hnext, c₂, hprev, h⟩ := h
    split_ifs at h with hnull
    simp only [bind_eq_ok] at h
    obtain ⟨c₃, hicache, h⟩ := h
    have hunlinked : KeepsInos c c₃ := by
      have hsame : KeepsInos c₂ { c₂ with count := c₂.count - 1 } := fun b inode' hb => ⟨inode', hb, rfl⟩
      exact hstore.trans ((keepsInos_modify hnext fun _ => rfl).trans ((keepsInos_modify hprev fun _ => rfl).trans
        (hsame.trans (keepsInos_modify hicache fun _ => rfl))))
    cases hparent : inode.parent with
    | some p =>
      simp only [hparent, bind_eq_ok] at h
      obtain ⟨c₄, hput, c₅, hclear, hfree⟩ := h
      exact hunlinked.trans ((ih hput).trans ((keepsInos_modify hclear fun _ => rfl).trans (keepsInos_free hfree)))
    | none =>
      simp only [hparent, bind_eq_ok, ok_bind] at h
      obtain ⟨c₅, hclear, hfree⟩ := h
      exact hunlinked.trans ((keepsInos_modify hclear fun _ => rfl).trans (keepsInos_free hfree))

theorem putrefMutex_last (hl : Linked c L []) (ha : a ∈ FUSE_ROOT_ID :: L) (hlast : c.LastRefs a 1) (s : MutexIcache) :
    famfsInodePutrefMutex (fuel + 1) ⟨c, false⟩ a ≠ .ok s := by
  intro h
  have hcached := hl.cached a ha
  simp only [famfsInodePutrefMutex, FamfsIcache.deref_eq (hl.heap ha), ok_bind, hcached, Bool.true_eq_false, if_false,
    Bool.false_eq_true, bind_eq_ok] at h
  obtain ⟨c', hrun, inode, hderef, -⟩ := h
  rw [putrefLocked_last hl ha (by rw [hlast.1]) ⟨by rw [hlast.1], hlast.2⟩] at hrun
  have hsteps : ∃ c₁ c₂, KeepsInos (c.unlinked a) c₁ ∧ (c₁.modify a fun inode => { inode with parent := none }) = .ok c₂ ∧
      famfsInodeFree c₂ a = .ok c' := by
    cases hparent : (c.node a).parent with
    | some p =>
      simp only [hparent, bind_eq_ok] at hrun
      obtain ⟨c₁, hput, c₂, hclear, hfree⟩ := hrun
      exact ⟨c₁, c₂, putrefLocked_keepsInos hput, hclear, hfree⟩
    | none =>
      simp only [hparent, ok_bind, bind_eq_ok] at hrun
      obtain ⟨c₂, hclear, hfree⟩ := hrun
      exact ⟨_, c₂, fun b inode hb => ⟨inode, hb, rfl⟩, hclear, hfree⟩
  obtain ⟨c₁, c₂, hinos, hclear, hfree⟩ := hsteps
  rw [famfsInodeFree, bind_eq_ok] at hfree
  obtain ⟨inode₂, hderef₂, hfree⟩ := hfree
  obtain ⟨inode₁, hheap, hino⟩ := hinos.trans (keepsInos_modify hclear fun _ => rfl) a inode₂ (deref_eq_ok hderef₂)
  have hne : inode₂.ino ≠ FUSE_ROOT_ID := by
    have hnode : (c.unlinked a).node a = inode₁ := by simp [FamfsIcache.node, hheap]
    rw [← hino, ← hnode, FamfsIcache.node_unlinked]
    exact hlast.2.2
  rw [if_neg hne] at hfree
  cases hfree
  simp [FamfsIcache.deref] at hderef

/-- The wrapper does its work as long as the reference is not the last one of an inode
that nothing else keeps. -/
theorem putref_drops_iff (h : IcacheOk c L [] weight) (ha : a ∈ FUSE_ROOT_ID :: L) (hpos : 1 ≤ (c.node a).refcount) :
    (∃ s chain top, famfsInodePutrefMutex (c.count + 2) ⟨c, false⟩ a = .ok s ∧ RefDropped c a chain top s.icache ∧
        s.mutex = false) ↔
      2 ≤ (c.node a).refcount ∨ (c.node a).pinned = true ∨ a = FUSE_ROOT_ID := by
  have hcond : (2 ≤ (c.node a).refcount ∨ (c.node a).pinned = true ∨ a = FUSE_ROOT_ID) ↔ ¬ c.LastRefs a 1 := by
    rw [FamfsIcache.LastRefs, Ne, h.linked.ino_eq ha]
    constructor
    · rintro (hmore | hpin | hroot) ⟨hone, hunpinned, hnot⟩
      · omega
      · simp [hpin] at hunpinned
      · exact hnot hroot
    · intro hnot
      by_contra hall
      simp only [not_or, Bool.not_eq_true] at hall
      exact hnot ⟨by omega, hall.2⟩
  rw [hcond]
  constructor
  · rintro ⟨s, -, -, hrun, -⟩ hlast
    exact putrefMutex_last h.linked ha hlast s hrun
  · intro hkeep
    have hheap := h.linked.heap ha
    have hlocked : famfsInodePutrefLocked (c.count + 2) c a 1 = .ok (c.setRef a ((c.node a).refcount - 1)) :=
      putrefLocked_keep hheap hpos fun hlast => hkeep ⟨by omega, hlast.2⟩
    have hheap' : ∀ b, ((c.setRef a ((c.node a).refcount - 1)).heap b).isSome ↔ (c.heap b).isSome := by
      intro b
      refine (FamfsIcache.heap_put ..).trans ⟨?_, .inr⟩
      rintro (rfl | hb)
      · exact hheap
      · exact hb
    have hrest := fun b => FamfsIcache.rest_setRef c a b ((c.node a).refcount - 1)
    have hicache : ((c.setRef a ((c.node a).refcount - 1)).node a).icache = true :=
      (congrArg (·.2.2.1) (hrest a)).trans (h.linked.cached a ha)
    refine ⟨⟨c.setRef a ((c.node a).refcount - 1), false⟩, [], a, ?_, ⟨.stop hkeep, by simp, ?_, ?_⟩, rfl⟩
    · simp [famfsInodePutrefMutex, FamfsIcache.deref_eq hheap, h.linked.cached a ha, hlocked,
        FamfsIcache.deref_eq ((hheap' a).2 hheap), hicache]
    · have hlinked : Linked (c.setRef a ((c.node a).refcount - 1)) L [] := by
        refine h.linked.congr hheap' (fun b => ?_) rfl
        rw [FamfsIcache.setRef, FamfsIcache.node_put]
        split_ifs with hba
        · rfl
        · rfl
      simp [hlinked.cached_eq, h.linked.cached_eq]
    · intro b hb _
      rw [h.linked.cached_eq] at hb
      refine ⟨(hheap' b).2 (h.linked.heap hb), hrest b, ?_⟩
      rw [FamfsIcache.refcount_setRef]
      split_ifs with hba
      · rw [hba]
      · rfl

/-- The cache with one directory, which the kernel has looked up `n` times. -/
def oneDir (n : ℕ) : FamfsIcache where
  heap a :=
    if a = FUSE_ROOT_ID then
      some { next := 16, prev := 16, fd := 3, ino := FUSE_ROOT_ID, refcount := 3, icache := true }
    else if a = 16 then
      some { next := FUSE_ROOT_ID, prev := FUSE_ROOT_ID, fd := 5, ino := 20, refcount := n, icache := true, parent := some FUSE_ROOT_ID }
    else none
  count := 1
  flockMutex := false

theorem oneDir_ok {n : ℕ} (hn : 0 < n) :
    IcacheOk (oneDir n) [16] [] fun a => if a = FUSE_ROOT_ID then 2 else if a = 16 then n else 0 := by
  have hinos : [FUSE_ROOT_ID, 20].Nodup := by decide
  refine ⟨⟨⟨rfl, rfl, by decide⟩, ?_, by simp, by simp, rfl, rfl, rfl, ?_, hinos, ?_⟩, ?_, ?_, ?_⟩
  · intro a
    by_cases hroot : a = FUSE_ROOT_ID
    · simp [oneDir, hroot]
    · by_cases hdir : a = 16
      · simp [oneDir, hdir, FUSE_ROOT_ID]
      · simp [oneDir, hroot, hdir]
  · simp [oneDir, FamfsIcache.node, FUSE_ROOT_ID]
  · exact fun a ha => ⟨FUSE_ROOT_ID, List.mem_cons_self, by rw [List.mem_singleton.1 ha]; rfl⟩
  · intro a ha
    rcases List.mem_cons.1 ha with rfl | ha
    · rfl
    · rw [List.mem_singleton.1 ha]
      rfl
  · intro a ha _
    rw [List.mem_singleton.1 ha]
    exact hn
  · intro a ha
    simp only [List.mem_cons, List.not_mem_nil, or_false, not_or] at ha
    simp [ha]

/-- One of two references to a directory is dropped. -/
theorem putref_drops_known_dir : ∃ s chain top,
    famfsInodePutrefMutex 3 ⟨oneDir 2, false⟩ 16 = .ok s ∧ RefDropped (oneDir 2) 16 chain top s.icache ∧ s.mutex = false :=
  (putref_drops_iff (oneDir_ok Nat.two_pos) (by decide) (by decide)).2 (.inl le_rfl)

/-- The last reference to a directory is dropped, and the mutex is looked for in it. -/
theorem putref_reads_freed : ((oneDir 1).node 16).refcount = 1 ∧ ((oneDir 1).node 16).pinned = false ∧
    (∃ weight, IcacheOk (oneDir 1) [16] [] weight) ∧
    (famfsInodePutrefMutex 3 ⟨oneDir 1, false⟩ 16).map (fun _ => ()) = .error (.trap .useAfterFree) :=
  ⟨rfl, rfl, ⟨_, oneDir_ok Nat.one_pos⟩, by decide⟩

end Famfs

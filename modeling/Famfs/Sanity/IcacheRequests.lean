import Famfs.Sanity.IcacheOps

/-! What each request does to a cache that keeps its invariant. A request on an inode
that nobody holds a reference to gets no inode to work on. -/

namespace Famfs.Fused

open Runs

variable {c c' : FamfsIcache} {L pending : List ℕ} {weight : ℕ → ℕ} {a parent n fuel : ℕ}

theorem refcount_get (c : FamfsIcache) (a b : ℕ) :
    ((c.setRef a ((c.node a).refcount + 1)).node b).refcount = (c.node b).refcount + if b = a then 1 else 0 := by
  rw [FamfsIcache.refcount_setRef]
  split_ifs with hb
  · rw [hb]
  · rfl

theorem pinned_setRef (c : FamfsIcache) (a b r : ℕ) : ((c.setRef a r).node b).pinned = (c.node b).pinned :=
  congrArg (·.2.2.2.1) (FamfsIcache.rest_setRef c a b r)

theorem getInodeFromNodeid_some (h : Linked c L pending) (ha : a ∈ FUSE_ROOT_ID :: L) (halive : 1 ≤ (c.node a).refcount) :
    famfsGetInodeFromNodeid c a = .ok (some a, c.setRef a ((c.node a).refcount + 1)) := by
  have hheap := h.heap ha
  have hgood : ¬ ((c.node a).icache = false ∨ (c.node a).refcount < 1) := by
    rw [h.cached a ha]
    simpa using Nat.ne_zero_of_lt halive
  simp only [famfsGetInodeFromNodeid, FamfsIcache.deref_eq hheap, ok_bind, if_neg hgood, getrefLocked_eq hheap]

theorem getNode_eq (h : Linked c L pending) (ha : a ∈ FUSE_ROOT_ID :: L) (halive : 1 ≤ (c.node a).refcount) :
    getNode c a = .ok (c.setRef a ((c.node a).refcount + 1)) := by
  simp [getNode, getInodeFromNodeid_some h ha halive]

theorem getInodeFromNodeid_none (h : Linked c L pending) (ha : a ∈ FUSE_ROOT_ID :: L) (hdead : (c.node a).refcount = 0) :
    famfsGetInodeFromNodeid c a = .ok (none, c) := by
  simp [famfsGetInodeFromNodeid, FamfsIcache.deref_eq (h.heap ha), hdead]

theorem getNode_none (h : Linked c L pending) (ha : a ∈ FUSE_ROOT_ID :: L) (hdead : (c.node a).refcount = 0) :
    getNode c a = .error (.trap .nullPointer) := by
  simp [getNode, getInodeFromNodeid_none h ha hdead]

theorem putref_eq (h : Linked c L pending) (ha : a ∈ FUSE_ROOT_ID :: L) (hmore : 2 ≤ (c.node a).refcount) :
    famfsInodePutref (fuel + 1) c a = .ok (c.setRef a ((c.node a).refcount - 1)) := by
  have hheap := h.heap ha
  have hcached := h.cached a ha
  have hkeep : famfsInodePutrefLocked (fuel + 1) c a 1 = .ok (c.setRef a ((c.node a).refcount - 1)) :=
    putrefLocked_keep hheap (by omega) (by omega)
  have hheap' : ((c.setRef a ((c.node a).refcount - 1)).heap a).isSome := (FamfsIcache.heap_put ..).2 (.inl rfl)
  have hcached' : ((c.setRef a ((c.node a).refcount - 1)).node a).icache = true := by
    simpa [FamfsIcache.setRef, FamfsIcache.node_put] using hcached
  simp [famfsInodePutref, FamfsIcache.deref_eq hheap, hcached, hkeep, FamfsIcache.deref_eq hheap', hcached']

theorem setRef_setRef (c : FamfsIcache) (a r : ℕ) (hheap : (c.heap a).isSome) :
    (c.setRef a r).setRef a (c.node a).refcount = c := by
  have hback : (c.setRef a r).setRef a (c.node a).refcount = c.store a (c.node a) := by
    simp only [FamfsIcache.setRef, FamfsIcache.put, FamfsIcache.store_store, FamfsIcache.node_store, if_true]
  rw [hback, FamfsIcache.store_node hheap]

theorem putref_setRef (h : IcacheOk c L pending weight) (ha : a ∈ FUSE_ROOT_ID :: L) (halive : 1 ≤ (c.node a).refcount) :
    famfsInodePutref (fuel + 1) (c.setRef a ((c.node a).refcount + 1)) a = .ok c := by
  have hget := (h.getref ha).2
  have hcount : ((c.setRef a ((c.node a).refcount + 1)).node a).refcount = (c.node a).refcount + 1 := by
    rw [FamfsIcache.refcount_setRef, if_pos rfl]
  rw [putref_eq hget.linked ha (by omega), hcount, Nat.add_sub_cancel, setRef_setRef c a _ (h.linked.heap ha)]

theorem getattr_eq (h : IcacheOk c L pending weight) (ha : a ∈ FUSE_ROOT_ID :: L) (halive : 1 ≤ (c.node a).refcount) :
    famfsGetattr (fuel + 1) c a = .ok c := by
  rw [famfsGetattr, getNode_eq h.linked ha halive, ok_bind, putref_setRef h ha halive]

theorem lookupErr_eq (h : IcacheOk c L pending weight) (ha : parent ∈ FUSE_ROOT_ID :: L)
    (halive : 1 ≤ (c.node parent).refcount) (errno : ℤ) :
    lookupErr (fuel + 1) (c.setRef parent ((c.node parent).refcount + 1)) parent errno = .ok ⟨errno, none, c⟩ := by
  rw [lookupErr, putref_setRef h ha halive, ok_bind]

theorem dumpInode_eq (h : Linked c L pending) (ha : a ∈ FUSE_ROOT_ID :: L) : dumpInode c a = .ok () := by
  rw [dumpInode, FamfsIcache.deref_eq (h.heap ha), ok_bind]
  rcases List.mem_cons.1 ha with rfl | ha
  · rw [h.rootParent]
  · obtain ⟨p, hp, heq⟩ := h.parents a ha
    simp [heq, FamfsIcache.deref_eq (h.heap hp)]

theorem lookupFound_eq (fuel : ℕ) (h : IcacheOk c L pending weight) (hp : parent ∈ FUSE_ROOT_ID :: L) (ha : a ∈ FUSE_ROOT_ID :: L)
    (hparent : 2 ≤ (c.node parent).refcount ∧ 1 ≤ weight parent) (hinode : 2 ≤ (c.node a).refcount ∧ 1 ≤ weight a)
    (hboth : a = parent → 3 ≤ (c.node a).refcount ∧ 2 ≤ weight a) :
    ∃ c' weight', lookupFound (fuel + 1) c parent a = .ok ⟨0, some a, c'⟩ ∧ IcacheOk c' L pending weight' ∧
      (∀ b, weight b = weight' b + (if b = parent then 1 else 0) + if b = a then 1 else 0) ∧
      ∀ b, (c'.node b).rest = (c.node b).rest := by
  have hfirst := h.setRef (v := weight parent - 1) (r := (c.node parent).refcount - 1) hp (by omega) (by omega)
  generalize hw₁ : Function.update weight parent (weight parent - 1) = w₁ at hfirst
  have hcount : ((c.setRef parent ((c.node parent).refcount - 1)).node a).refcount =
      if a = parent then (c.node parent).refcount - 1 else (c.node a).refcount := FamfsIcache.refcount_setRef ..
  have hweight : w₁ a = if a = parent then weight parent - 1 else weight a := by rw [← hw₁, Function.update_apply]
  have hleft : 2 ≤ ((c.setRef parent ((c.node parent).refcount - 1)).node a).refcount ∧ 1 ≤ w₁ a := by
    rw [hcount, hweight]
    by_cases hap : a = parent
    · subst hap
      have := hboth rfl
      simp only [if_true]
      omega
    · simpa [hap] using hinode
  have hsecond := hfirst.setRef (v := w₁ a - 1)
    (r := ((c.setRef parent ((c.node parent).refcount - 1)).node a).refcount - 1) ha (by omega) (by omega)
  refine ⟨_, _, ?_, hsecond, ?_, ?_⟩
  · rw [lookupFound, dumpInode_eq h.linked ha, ok_bind, putref_eq h.linked hp hparent.1, ok_bind,
      putref_eq hfirst.linked ha hleft.1, ok_bind]
  · intro b
    have hb : w₁ b = if b = parent then weight parent - 1 else weight b := by rw [← hw₁, Function.update_apply]
    rw [Function.update_apply]
    by_cases hba : b = a
    · subst hba
      simp only [if_true, hb] at hleft ⊢
      split_ifs at hleft ⊢ with hbp
      · subst hbp
        omega
      · omega
    · simp only [hba, if_false, hb]
      split_ifs with hbp
      · subst hbp
        omega
      · omega
  · intro b
    simp

theorem lookupFound_owes (fuel : ℕ) (owed : ℕ → ℕ) (h : IcacheOk c L [] weight) (hp : parent ∈ FUSE_ROOT_ID :: L)
    (ha : a ∈ FUSE_ROOT_ID :: L) (hparent : 2 ≤ (c.node parent).refcount) (hinode : 2 ≤ (c.node a).refcount)
    (hboth : a = parent → 3 ≤ (c.node a).refcount)
    (hweight : ∀ b, weight b = owed b + (if b = parent then 1 else 0) + if b = a then 2 else 0) :
    ∃ c', lookupFound (fuel + 1) c parent a = .ok ⟨0, some a, c'⟩ ∧
      IcacheOk c' L [] (fun b => owed b + if b = a then 1 else 0) ∧ ∀ b, (c'.node b).rest = (c.node b).rest := by
  have hwp : 1 ≤ weight parent := by
    rw [hweight, if_pos rfl]
    omega
  have hwa : 2 ≤ weight a := by
    rw [hweight a, if_pos rfl]
    omega
  obtain ⟨c', weight', hrun, hok, hsum, hrest⟩ := lookupFound_eq fuel h hp ha ⟨hparent, hwp⟩ ⟨hinode, by omega⟩
    fun heq => ⟨hboth heq, hwa⟩
  refine ⟨c', hrun, hok.reweigh ?_, hrest⟩
  intro b
  have hb := hsum b
  rw [hweight b] at hb
  split_ifs at hb ⊢ <;> omega

/-- The inode that a lookup found or made is owed one reference more. -/
structure Grant (c : FamfsIcache) (L : List ℕ) (weight : ℕ → ℕ) (parent : ℕ) (sys : LookupSys) (a : ℕ) (c' : FamfsIcache)
    (L' : List ℕ) : Prop where
  ok : IcacheOk c' L' [] fun b => weight b + if b = a then 1 else 0
  list : L' = L ∧ a ∈ FUSE_ROOT_ID :: L ∨ L' = a :: L ∧ a ∉ FUSE_ROOT_ID :: L ∧ (c'.node a).rest = (newInode sys parent).rest
  ino : (c'.node a).ino = sys.ino
  rest : ∀ b ∈ FUSE_ROOT_ID :: L, (c'.node b).rest = (c.node b).rest

theorem lookup_cases {sys : LookupSys} (h : IcacheOk c L [] weight) (hp : parent ∈ FUSE_ROOT_ID :: L)
    (halive : 1 ≤ (c.node parent).refcount) (hmem : ∀ a, sys.inodeMem = some a → c.heap a = none) (hfuel : L.length < fuel) :
    (famfsDoLookup fuel c parent sys = .ok ⟨sys.errno, none, c⟩ ∧
        (sys.searches (c.node parent).fd = true → sys.inodeMem = none)) ∨
      (sys.searches (c.node parent).fd = true ∧
        ∃ a c' L', famfsDoLookup fuel c parent sys = .ok ⟨0, some a, c'⟩ ∧ Grant c L weight parent sys a c' L') := by
  obtain ⟨fuel, rfl⟩ := Nat.exists_eq_add_one.2 (Nat.zero_lt_of_lt hfuel)
  have hget := (h.getref hp).2
  have herror : lookupErr (fuel + 1) (c.setRef parent ((c.node parent).refcount + 1)) parent sys.errno =
      .ok ⟨sys.errno, none, c⟩ := lookupErr_eq h hp halive sys.errno
  have hparent := refcount_get c parent parent
  have hrest := fun b => FamfsIcache.rest_setRef c parent b ((c.node parent).refcount + 1)
  have hheap : ∀ b, ((c.setRef parent ((c.node parent).refcount + 1)).heap b).isSome → (c.heap b).isSome := by
    intro b hb
    rcases (FamfsIcache.heap_put ..).1 hb with rfl | hb
    · exact h.linked.heap hp
    · exact hb
  rw [famfsDoLookup, getNode_eq h.linked hp halive, ok_bind, FamfsIcache.deref_eq (hget.linked.heap hp), ok_bind]
  generalize c.setRef parent ((c.node parent).refcount + 1) = c₁ at *
  rw [if_pos rfl] at hparent
  rw [show (c₁.node parent).fd = (c.node parent).fd from congrArg (·.1) (hrest parent)]
  by_cases hsearch : sys.searches (c.node parent).fd = true
  swap
  · rw [if_neg hsearch, herror]
    exact .inl ⟨rfl, fun hs => absurd hs hsearch⟩
  rw [if_pos hsearch]
  rcases hget.find sys.ino hfuel with ⟨hnone, hinos⟩ | ⟨a, ha, hino, hfound⟩
  · rw [hnone, ok_bind]
    cases hnew : sys.inodeMem with
    | none => exact .inl ⟨herror, fun _ => rfl⟩
    | some a =>
      have hfree : c₁.heap a = none := by
        rw [← Option.not_isSome_iff_eq_none]
        intro hsome
        simpa [hmem a hnew] using hheap a hsome
      have hout : a ∉ FUSE_ROOT_ID :: L := fun hin => by simpa [hfree] using hget.linked.heap hin
      have hpa : parent ≠ a := fun heq => hout (heq ▸ hp)
      obtain ⟨c₂, hrun, hok, ⟨htwo, hnew'⟩, hold⟩ := hget.insert (newInode sys parent) hfree hp rfl hinos
      simp only [famfsInodeAlloc, hrun, ok_bind]
      have hp₂ : parent ∈ FUSE_ROOT_ID :: a :: L := by
        simp only [List.mem_cons] at hp ⊢
        tauto
      have hgrown := (hold parent hp).1
      obtain ⟨c', hexit, hok', hrest'⟩ := lookupFound_owes fuel weight hok hp₂ (by simp) (by omega) (by omega)
        (fun heq => absurd heq.symm hpa) (by
          intro b
          rw [Function.update_apply, Function.update_apply]
          by_cases hba : b = a
          · subst hba
            rw [h.counted.outside b hout]
            simp [hpa.symm]
          · split_ifs with hbp
            · rw [hbp]
            · rfl)
      refine .inr ⟨hsearch, a, c', a :: L, hexit, hok', .inr ⟨rfl, hout, ?_⟩, ?_, ?_⟩
      · exact (hrest' a).trans hnew'
      · exact congrArg (·.2.1) ((hrest' a).trans hnew')
      · intro b hb
        exact (hrest' b).trans ((hold b hb).2.trans (hrest b))
  · rw [hfound, ok_bind]
    have hone := (hget.getref ha).2
    have hrun := (hone.getref ha).1
    have htwo := (hone.getref ha).2
    have hcount : ∀ b, _ = (c₁.node b).refcount + (if b = a then 1 else 0) + if b = a then 1 else 0 := fun b =>
      (refcount_get (c₁.setRef a ((c₁.node a).refcount + 1)) a b).trans (congrArg (· + _) (refcount_get c₁ a b))
    have hsame : ∀ b, _ = (c₁.node b).rest := fun b =>
      (FamfsIcache.rest_setRef (c₁.setRef a ((c₁.node a).refcount + 1)) a b
        (((c₁.setRef a ((c₁.node a).refcount + 1)).node a).refcount + 1)).trans (FamfsIcache.rest_setRef ..)
    simp only [hrun, ok_bind]
    obtain ⟨c', hexit, hok', hrest'⟩ := lookupFound_owes fuel weight htwo hp ha (by rw [hcount]; omega)
      (by rw [hcount, if_pos rfl]; omega) (by rintro rfl; rw [hcount, if_pos rfl]; omega) (by
        intro b
        simp only [Function.update_apply, if_true]
        split_ifs <;> subst_vars <;> omega)
    refine .inr ⟨hsearch, a, c', L, hexit, hok', .inl ⟨rfl, ha⟩, ?_, ?_⟩
    · exact (congrArg (·.2.1) ((hrest' a).trans (hsame a))).trans hino
    · intro b _
      exact (hrest' b).trans ((hsame b).trans (hrest b))

/-- At most one more reference is owed, and nothing was pinned. -/
def Granted (c : FamfsIcache) (L : List ℕ) (weight : ℕ → ℕ) (out : LookupOut) : Prop :=
  ∃ L' weight', IcacheOk out.icache L' [] weight' ∧ (∀ b, weight' b = weight b + if out.ino = some b then 1 else 0) ∧
    ((∀ b ∈ L, (c.node b).pinned = false) → ∀ b ∈ L', (out.icache.node b).pinned = false)

theorem lookup_ok {sys : LookupSys} (h : IcacheOk c L [] weight) (hp : parent ∈ FUSE_ROOT_ID :: L)
    (halive : 1 ≤ (c.node parent).refcount) (hmem : ∀ a, sys.inodeMem = some a → c.heap a = none) (hfuel : L.length < fuel) :
    ∃ out, famfsDoLookup fuel c parent sys = .ok out ∧ Granted c L weight out := by
  rcases lookup_cases h hp halive hmem hfuel with ⟨hrun, -⟩ | ⟨-, a, c', L', hrun, hgrant⟩
  · exact ⟨_, hrun, L, weight, h, by simp, fun hpin => hpin⟩
  · have hpinned : ∀ b ∈ L, (c'.node b).pinned = (c.node b).pinned := fun b hb =>
      congrArg (·.2.2.2.1) (hgrant.rest b (List.mem_cons_of_mem _ hb))
    refine ⟨_, hrun, L', _, hgrant.ok, ?_, ?_⟩
    · intro b
      simp only [Option.some.injEq, eq_comm]
    · intro hall b hb
      rcases hgrant.list with ⟨rfl, -⟩ | ⟨rfl, -, hnew⟩
      · exact (hpinned b hb).trans (hall b hb)
      · rcases List.mem_cons.1 hb with rfl | hb
        · exact congrArg (·.2.2.2.1) hnew
        · exact (hpinned b hb).trans (hall b hb)

theorem putref_ok (h : IcacheOk c L [] (Function.update weight a (weight a + 1))) (ha : a ∈ FUSE_ROOT_ID :: L)
    (hn : n ≤ weight a) (hfuel : L.length < fuel) :
    ∃ c' L', famfsInodePutrefLocked fuel c a (n + 1) = .ok c' ∧ IcacheOk c' L' [] (Function.update weight a (weight a - n)) ∧
      ((∀ b ∈ L, (c.node b).pinned = false) → ∀ b ∈ L', (c'.node b).pinned = false) := by
  obtain ⟨c', L', hrun, hok, hsub, hrest, -⟩ := h.putref (n := n + 1) ha (by rw [Function.update_self]; omega) hfuel
  rw [Function.update_idem, Function.update_self, Nat.add_sub_add_right] at hok
  refine ⟨c', L', hrun, hok, ?_⟩
  intro hall b hb
  exact (congrArg (·.2.2.2.1) (hrest b (List.mem_cons_of_mem _ hb))).trans (hall b (hsub hb))

theorem forget_ok (h : IcacheOk c L [] weight) (ha : a ∈ FUSE_ROOT_ID :: L) (halive : 1 ≤ (c.node a).refcount)
    (hn : n ≤ weight a) (hfuel : L.length < fuel) :
    ∃ c' L', famfsForgetOne fuel c a n = .ok c' ∧ IcacheOk c' L' [] (Function.update weight a (weight a - n)) ∧
      ((∀ b ∈ L, (c.node b).pinned = false) → ∀ b ∈ L', (c'.node b).pinned = false) := by
  have hget := (h.getref ha).2
  have hrefs := h.counted.refs a ha
  have hcount := refcount_get c a a
  have hcached := hget.linked.cached a ha
  obtain ⟨c', L', hrun, hok, hpin⟩ := putref_ok hget ha hn hfuel
  refine ⟨c', L', ?_, hok, fun hall => hpin fun b hb => (pinned_setRef ..).trans (hall b hb)⟩
  rw [famfsForgetOne, getNode_eq h.linked ha halive, ok_bind, famfsIcacheUnrefInode,
    FamfsIcache.deref_eq (hget.linked.heap ha), ok_bind, if_neg, hrun]
  rw [hcached, hcount, if_pos rfl]
  simp
  omega

theorem setattr_ok (h : IcacheOk c L [] weight) (ha : a ∈ FUSE_ROOT_ID :: L) (halive : 1 ≤ (c.node a).refcount)
    (size : Bool) : ∃ c', famfsSetattr (fuel + 1) c a size = .ok c' ∧ IcacheOk c' L [] weight := by
  have hget := (h.getref ha).2
  have hput := hget.put ha (fun inode => if size then inode else { inode with pinned := true })
    (by intro inode; split_ifs <;> rfl) (by intro inode; split_ifs <;> rfl) (by intro inode; split_ifs <;> simp)
  have hcount : (((c.setRef a ((c.node a).refcount + 1)).put a fun inode =>
      if size then inode else { inode with pinned := true }).node a).refcount = (c.node a).refcount + 1 := by
    have hone := refcount_get c a a
    rw [if_pos rfl] at hone
    rw [FamfsIcache.node_put, if_pos rfl]
    refine Eq.trans ?_ hone
    split_ifs <;> rfl
  have hback := hput.setRef (v := weight a) (r := (c.node a).refcount) ha (by rw [hcount, Function.update_self]; omega)
    fun _ _ => halive
  rw [Function.update_idem, Function.update_eq_self] at hback
  refine ⟨_, ?_, hback⟩
  rw [famfsSetattr, getNode_eq h.linked ha halive, ok_bind, FamfsIcache.modify_eq (hget.linked.heap ha), ok_bind,
    putref_eq hput.linked ha (by omega), hcount, Nat.add_sub_cancel]

theorem open_ok (h : IcacheOk c L [] weight) (ha : a ∈ FUSE_ROOT_ID :: L) (halive : 1 ≤ (c.node a).refcount) :
    ∃ c', famfsOpen c a = .ok c' ∧ IcacheOk c' L [] (Function.update weight a (weight a + 2)) ∧
      ∀ b, (c'.node b).pinned = (c.node b).pinned := by
  have hget := (h.getref ha).2
  obtain ⟨hrun, hok⟩ := hget.getref ha
  rw [Function.update_idem, Function.update_self] at hok
  refine ⟨_, ?_, hok, fun b => (pinned_setRef ..).trans (pinned_setRef ..)⟩
  rw [famfsOpen, getNode_eq h.linked ha halive, ok_bind, hrun]

theorem unflock_ok (h : IcacheOk c L [] weight) (ha : a ∈ FUSE_ROOT_ID :: L) :
    ∃ c', famfsIcacheUnflock c a = .ok c' ∧ IcacheOk c' L [] weight ∧ ∀ b, (c'.node b).pinned = (c.node b).pinned := by
  rw [famfsIcacheUnflock, FamfsIcache.deref_eq (h.linked.heap ha), ok_bind]
  split_ifs with hheld
  · have hput := h.put ha (fun inode => { inode with flockHeld := false }) (fun _ => rfl) (fun _ => rfl) fun _ hpin => hpin
    refine ⟨_, rfl, hput.congr rfl rfl, ?_⟩
    intro b
    show ((c.put a fun inode => { inode with flockHeld := false }).node b).pinned = _
    rw [FamfsIcache.node_put]
    split_ifs <;> rfl
  · exact ⟨c, rfl, h, fun _ => rfl⟩

theorem release_ok (h : IcacheOk c L [] weight) (ha : a ∈ FUSE_ROOT_ID :: L) (halive : 1 ≤ (c.node a).refcount)
    (hone : 1 ≤ weight a) (hfuel : L.length < fuel) :
    ∃ c' L', famfsRelease fuel c a = .ok c' ∧ IcacheOk c' L' [] (Function.update weight a (weight a - 1)) ∧
      ((∀ b ∈ L, (c.node b).pinned = false) → ∀ b ∈ L', (c'.node b).pinned = false) := by
  obtain ⟨c₁, hunflock, hget, hsame⟩ := unflock_ok (h.getref ha).2 ha
  obtain ⟨c', L', hrun, hok, hpin⟩ := putref_ok hget ha hone hfuel
  refine ⟨c', L', ?_, hok, fun hall => hpin fun b hb => (hsame b).trans ((pinned_setRef ..).trans (hall b hb))⟩
  rw [famfsRelease, getNode_eq h.linked ha halive, ok_bind, hunflock, ok_bind, hrun]

theorem flock_ok (h : IcacheOk c L [] weight) (ha : a ∈ FUSE_ROOT_ID :: L) (halive : 1 ≤ (c.node a).refcount) (op : FlockOp) :
    famfsFlock c a op = .error .blocked ∨
      ∃ c', famfsFlock c a op = .ok c' ∧ IcacheOk c' L [] (Function.update weight a (weight a + 1)) ∧
        ∀ b, (c'.node b).pinned = (c.node b).pinned := by
  have hget := (h.getref ha).2
  have hheap := hget.linked.heap ha
  have hsame := fun b => pinned_setRef c a b ((c.node a).refcount + 1)
  rw [famfsFlock, getInodeFromNodeid_some h.linked ha halive, ok_bind]
  generalize c.setRef a ((c.node a).refcount + 1) = c₁ at *
  obtain ⟨kind, lockNb⟩ := op
  cases lockNb with
  | true => exact .inr ⟨c₁, by cases kind <;> rfl, hget, hsame⟩
  | false =>
    cases kind with
    | sh => exact .inr ⟨c₁, rfl, hget, hsame⟩
    | un =>
      obtain ⟨c', hrun, hok, hpin⟩ := unflock_ok hget ha
      exact .inr ⟨c', hrun, hok, fun b => (hpin b).trans (hsame b)⟩
    | ex =>
      simp only [FamfsIcache.deref_eq hheap, ok_bind]
      split_ifs with hheld
      · exact .inr ⟨c₁, rfl, hget, hsame⟩
      · rw [famfsIcacheFlock]
        split_ifs with hmutex
        · exact .inl rfl
        · have hfree : IcacheOk { c₁ with flockMutex := true } L [] _ := hget.congr rfl rfl
          have hput := hfree.put ha (fun inode => { inode with flockHeld := true }) (fun _ => rfl) (fun _ => rfl) fun _ hpin => hpin
          refine .inr ⟨_, FamfsIcache.modify_eq (hfree.linked.heap ha) _, hput, ?_⟩
          intro b
          rw [FamfsIcache.node_put, ← hsame b]
          split_ifs <;> rfl

end Famfs.Fused

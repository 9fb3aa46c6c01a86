import Famfs.Proofs.MkfsOwner
import Famfs.Sanity.LogScan
import Famfs.Spec.Cluster

/-! One writer in the whole cluster. The role keeps the processes of other hosts away from the log and
the lock those of the same host, so that the stores of an append are never mixed with those of
another, whatever the interleaving and wherever processes end. What is appended stays, in order. -/

namespace Famfs

open Relation

variable {pc : MasterPc} {lp : FamfsLockedLog} {fmap : FamfsLogFmap} {c : CreateCall}
variable {body : FamfsLogEntryBody}

def MasterPc.holds : MasterPc → Bool
  | .idle => false
  | .validated _ => false
  | .isMaster _ => false
  | .mkfs _ => false
  | _ => true

def MasterPc.passed : MasterPc → Bool
  | .isMaster _ => true
  | pc => pc.holds

def MasterPc.seen : MasterPc → Option FamfsSuperblock
  | .validated sb => some sb
  | .isMaster sb => some sb
  | .locked sb => some sb
  | _ => none

section

variable {crc32 : Crc32} {sb : FamfsSuperblock}

theorem famfsGetRole_master {u : List UInt8} (h : famfsGetRole crc32 (some u) sb = .master) :
    pad 16 u = pad 16 sb.tsSystemUuid := by
  unfold famfsGetRole at h
  dsimp only at h
  split_ifs at h with h1 h2
  exact h2

theorem famfsMkfs_super {host : MkfsHost} {logp : FamfsLog} {logLen devsize : ℕ} {writable kill : Bool}
    (hsuper : famfsCheckSuper crc32 sb = 0) :
    famfsMkfs crc32 host writable sb logp logLen devsize false kill = (-1, sb, logp) := by
  rw [famfsMkfs, if_neg (by simp), if_pos ⟨Or.inl hsuper, rfl⟩]

theorem afterAlloc_holds (c : CreateCall) (r : ℤ × Option FamfsLogFmap × FamfsLockedLog) :
    (afterAlloc c r).holds = true ∧ (afterAlloc c r).seen = none := by
  unfold afterAlloc
  split <;> exact ⟨rfl, rfl⟩

theorem afterAlloc_torn (c : CreateCall) (r : ℤ × Option FamfsLogFmap × FamfsLockedLog) :
    (afterAlloc c r).torn = false := by
  unfold afterAlloc
  split <;> rfl

theorem afterEntry_holds (lp : FamfsLockedLog) (r : Except ℤ FamfsLogEntryBody) :
    (afterEntry lp r).holds = true ∧ (afterEntry lp r).seen = none := by
  cases r <;> exact ⟨rfl, rfl⟩

end

section

variable {H P : Type}

structure Formatted (crc32 : Crc32) (s : Cluster H P) : Prop where
  super : famfsCheckSuper crc32 s.sb = 0
  log : LogOk crc32 s.logp
  idle : ∀ p, s.pc p = .idle
  free : ∀ h, s.lock h = none
  logged : s.logged = []
  torn : s.torn = 0

structure Guarded (hostOf : P → H) (uuid : H → List UInt8) (sb : FamfsSuperblock) (s : Cluster H P) : Prop where
  super : s.sb = sb
  seen : ∀ p sb', (s.pc p).seen = some sb' → sb' = sb
  owner : ∀ p, (s.pc p).passed = true → pad 16 (uuid (hostOf p)) = pad 16 sb.tsSystemUuid
  lock : ∀ p, (s.pc p).holds = true → s.lock (hostOf p) = some p
  held : ∀ h p, s.lock h = some p → hostOf p = h ∧ (s.pc p).holds = true

variable {hostOf : P → H} {uuid : H → List UInt8} {sb : FamfsSuperblock} {s s' : Cluster H P} {p : P}

theorem MasterPc.passed_of_holds (h : pc.holds = true) : pc.passed = true := by
  cases pc <;> first | rfl | cases h

theorem Guarded.unique (hg : Guarded hostOf uuid sb s) (huuid : ∀ h h', pad 16 (uuid h) = pad 16 (uuid h') → h = h')
    {p q : P} (hp : (s.pc p).holds = true) (hq : (s.pc q).holds = true) : p = q := by
  have hhost : hostOf p = hostOf q := huuid _ _ <|
    (hg.owner p (MasterPc.passed_of_holds hp)).trans (hg.owner q (MasterPc.passed_of_holds hq)).symm
  have hlock := hg.lock p hp
  rw [hhost, hg.lock q hq] at hlock
  exact (Option.some.inj hlock).symm

theorem Guarded.same (hg : Guarded hostOf uuid sb s) (hsb : s'.sb = s.sb) (hpc : s'.pc = s.pc) (hlock : s'.lock = s.lock) :
    Guarded hostOf uuid sb s' := by
  refine ⟨hsb.trans hg.super, ?_, ?_, ?_, ?_⟩
  all_goals simp only [hpc, hlock]
  exacts [hg.seen, hg.owner, hg.lock, hg.held]

theorem Formatted.guarded {crc32 : Crc32} (hf : Formatted crc32 s) : Guarded hostOf uuid s.sb s := by
  refine ⟨rfl, fun p sb' h => ?_, fun p h => ?_, fun p h => ?_, fun h p hp => ?_⟩
  · rw [hf.idle] at h
    cases h
  · rw [hf.idle] at h
    cases h
  · rw [hf.idle] at h
    cases h
  · rw [hf.free] at hp
    cases hp

variable [DecidableEq P]

theorem Guarded.goto (hg : Guarded hostOf uuid sb s) (hseen : ∀ sb', pc.seen = some sb' → sb' = sb)
    (hpassed : pc.passed = true → pad 16 (uuid (hostOf p)) = pad 16 sb.tsSystemUuid)
    (hholds : pc.holds = (s.pc p).holds) : Guarded hostOf uuid sb (s.goto p pc) := by
  have hpc : ∀ q, (s.goto p pc).pc q = if q = p then pc else s.pc q := fun q => Function.update_apply ..
  refine ⟨hg.super, fun q sb' h => ?_, fun q h => ?_, fun q h => ?_, fun h q hq => ?_⟩
  · rw [hpc] at h
    split_ifs at h with heq
    · exact hseen sb' h
    · exact hg.seen q sb' h
  · rw [hpc] at h
    split_ifs at h with heq
    · exact heq ▸ hpassed h
    · exact hg.owner q h
  · rw [hpc] at h
    split_ifs at h with heq
    · subst heq
      exact hg.lock q (hholds ▸ h)
    · exact hg.lock q h
  · obtain ⟨hhost, hh⟩ := hg.held h q hq
    refine ⟨hhost, ?_⟩
    rw [hpc]
    split_ifs with heq
    · rw [hholds, ← heq]
      exact hh
    · exact hh

theorem Guarded.exit (hg : Guarded hostOf uuid sb s) (p : P) : Guarded hostOf uuid sb (s.exit p) := by
  have hpc : ∀ q, (s.exit p).pc q = if q = p then .idle else s.pc q := fun q => Function.update_apply ..
  refine ⟨hg.super, fun q sb' h => ?_, fun q h => ?_, fun q h => ?_, fun h q hq => ?_⟩
  · rw [hpc] at h
    split_ifs at h with heq
    · cases h
    · exact hg.seen q sb' h
  · rw [hpc] at h
    split_ifs at h with heq
    · cases h
    · exact hg.owner q h
  · rw [hpc] at h
    split_ifs at h with heq
    · cases h
    · have hlock := hg.lock q h
      change (if s.lock (hostOf q) = some p then none else s.lock (hostOf q)) = some q
      rw [hlock, if_neg (by simpa using heq)]
  · change (if s.lock h = some p then none else s.lock h) = some q at hq
    split_ifs at hq with hlock
    obtain ⟨hhost, hh⟩ := hg.held h q hq
    have hne : q ≠ p := by
      intro h'
      exact hlock (by rw [hq, h'])
    refine ⟨hhost, ?_⟩
    rw [hpc, if_neg hne]
    exact hh

theorem Guarded.work (hg : Guarded hostOf uuid sb s) (hp : (s.pc p).holds = true)
    (hpc : pc.holds = true ∧ pc.seen = none) : Guarded hostOf uuid sb (s.goto p pc) := by
  refine hg.goto (fun sb' h => ?_) (fun _ => hg.owner p (MasterPc.passed_of_holds hp)) (hpc.1.trans hp.symm)
  rw [hpc.2] at h
  cases h

variable [DecidableEq H] {crc32 : Crc32} {kabi : ℕ} {asked : CreateCall → Prop}

theorem Guarded.flock (hg : Guarded hostOf uuid sb s) {sb' : FamfsSuperblock} (hpc : s.pc p = .isMaster sb')
    (hfree : s.lock (hostOf p) = none) :
    Guarded hostOf uuid sb { s.goto p (.locked sb') with lock := Function.update s.lock (hostOf p) (some p) } := by
  have hupd : ∀ q, Function.update s.pc p (.locked sb') q = if q = p then .locked sb' else s.pc q :=
    fun q => Function.update_apply ..
  have hseen : sb' = sb := hg.seen p sb' (by rw [hpc]; rfl)
  have howner := hg.owner p (by rw [hpc]; rfl)
  refine ⟨hg.super, fun q sb1 h => ?_, fun q h => ?_, fun q h => ?_, fun h q hq => ?_⟩
  · simp only [Cluster.goto, hupd] at h
    split_ifs at h with heq
    · exact (Option.some.inj h).symm.trans hseen
    · exact hg.seen q sb1 h
  · simp only [Cluster.goto, hupd] at h
    split_ifs at h with heq
    · exact heq ▸ howner
    · exact hg.owner q h
  · simp only [Cluster.goto, hupd] at h
    by_cases heq : q = p
    · rw [heq]
      exact Function.update_self ..
    · rw [if_neg heq] at h
      have hlock := hg.lock q h
      have hne : hostOf q ≠ hostOf p := by
        intro hhost
        rw [hhost, hfree] at hlock
        cases hlock
      exact (Function.update_of_ne hne ..).trans hlock
  · change Function.update s.lock (hostOf p) (some p) h = some q at hq
    by_cases heq : h = hostOf p
    · subst heq
      rw [Function.update_self] at hq
      obtain rfl := Option.some.inj hq
      refine ⟨rfl, ?_⟩
      simp only [Cluster.goto, Function.update_self]
      rfl
    · rw [Function.update_of_ne heq] at hq
      obtain ⟨hhost, hh⟩ := hg.held h q hq
      have hne : q ≠ p := by
        intro h'
        exact heq (by rw [← hhost, h'])
      refine ⟨hhost, ?_⟩
      simp only [Cluster.goto, Function.update_of_ne hne]
      exact hh

theorem Guarded.step (hsuper : famfsCheckSuper crc32 sb = 0) (hg : Guarded hostOf uuid sb s)
    (hstep : ClusterStep crc32 kabi hostOf uuid asked s s') : Guarded hostOf uuid sb s' := by
  cases hstep with
  | validate hpc _ => exact hg.goto (fun sb' h => by cases h; exact hg.super) (fun h => by cases h) (by rw [hpc]; rfl)
  | getRole hpc hrole =>
    rw [hg.super] at hrole
    refine hg.goto (fun sb' h => ?_) (fun _ => famfsGetRole_master hrole) (by rw [hpc]; rfl)
    exact hg.seen _ sb' (by rw [hpc]; exact h)
  | flock hpc hfree => exact hg.flock hpc hfree
  | openSession mpt cfg hpc => exact hg.work (by rw [hpc]; rfl) ⟨rfl, rfl⟩
  | alloc hpc _ _ => exact hg.work (by rw [hpc]; rfl) (afterAlloc_holds _ _)
  | mkdir hpc _ => exact hg.work (by rw [hpc]; rfl) ⟨rfl, rfl⟩
  | notCreated hpc => exact hg.work (by rw [hpc]; rfl) ⟨rfl, rfl⟩
  | logEntry hpc _ => exact hg.work (by rw [hpc]; rfl) (afterEntry_holds _ _)
  | stamp hpc => exact hg.work (by rw [hpc]; rfl) ⟨rfl, rfl⟩
  | copy hpc => exact (hg.work (by rw [hpc]; rfl) ⟨rfl, rfl⟩).same rfl rfl rfl
  | countSeqnum hpc => exact (hg.work (by rw [hpc]; rfl) ⟨rfl, rfl⟩).same rfl rfl rfl
  | countIndex hpc => exact (hg.work (by rw [hpc]; rfl) ⟨rfl, rfl⟩).same rfl rfl rfl
  | exit => exact hg.exit _
  | mkfsAllowed hpc _ => exact hg.goto (fun sb' h => by cases h) (fun h => by cases h) (by rw [hpc]; rfl)
  | mkfs hpc =>
    have hgoto : Guarded hostOf uuid sb (s.goto _ .idle) :=
      hg.goto (fun sb' h => by cases h) (fun h => by cases h) (by rw [hpc]; rfl)
    refine hgoto.same ?_ rfl rfl
    rw [famfsMkfs_super (by rw [hg.super]; exact hsuper)]
    rfl

theorem guarded_run {s0 : Cluster H P} (hf : Formatted crc32 s0)
    (hrun : ReflTransGen (ClusterStep crc32 kabi hostOf uuid asked) s0 s) : Guarded hostOf uuid s0.sb s :=
  Runs.invariant (P := Guarded hostOf uuid s0.sb) (fun _ _ hg hs => hg.step hf.super hs) hrun hf.guarded

end

def numberedEntry (crc32 : Crc32) (n : ℕ) (b : FamfsLogEntryBody) : FamfsLogEntry :=
  { newLogEntry b with
    famfsLogEntrySeqnum := n
    famfsLogEntryCrc := famfsGenLogEntryCrc crc32 { newLogEntry b with famfsLogEntrySeqnum := n } }

section

variable {crc32 : Crc32}

theorem stampLogEntry_numbered (logp : FamfsLog) (b : FamfsLogEntryBody) :
    stampLogEntry crc32 logp (newLogEntry b) = numberedEntry crc32 logp.famfsLogNextSeqnum b := rfl

theorem numberedEntry_valid (n i : ℕ) (b : FamfsLogEntryBody) :
    famfsValidateLogEntry crc32 (fun _ => numberedEntry crc32 n b) i = 0 ↔ n = i := by
  have herrors : logEntryErrors crc32 (numberedEntry crc32 n b) i = if n ≠ i then 1 else 0 := by
    simp [logEntryErrors, numberedEntry, famfsGenLogEntryCrc, FamfsLogEntry.image]
  rw [famfsValidateLogEntry, herrors]
  by_cases h : n = i
  · simp [h]
  · simp [h]

end

section

variable {H P : Type}

/-- What the log is while a process is at a store of its append. -/
def Working (crc32 : Crc32) (s : Cluster H P) : MasterPc → Prop
  | .append _ _ => s.logp.famfsLogNextIndex ≤ s.logp.famfsLogLastIndex
  | .stamped _ e => s.logp.famfsLogNextIndex ≤ s.logp.famfsLogLastIndex ∧
      ∃ b, e = numberedEntry crc32 s.logp.famfsLogNextSeqnum b
  | .copied _ e => s.logp.famfsLogNextIndex ≤ s.logp.famfsLogLastIndex ∧
      (∃ b, e = numberedEntry crc32 s.logp.famfsLogNextSeqnum b) ∧ s.logp.entries s.logp.famfsLogNextIndex = e
  | .counted _ e => s.logp.famfsLogNextIndex ≤ s.logp.famfsLogLastIndex ∧
      (∃ b, e = numberedEntry crc32 (s.logp.famfsLogNextIndex + s.torn) b) ∧
      s.logp.entries s.logp.famfsLogNextIndex = e ∧
      s.logp.famfsLogNextSeqnum = s.logp.famfsLogNextIndex + s.torn + 1
  | _ => True

/-- The log against the appends that were completed since it was `logp0`. -/
structure Told (crc32 : Crc32) (logp0 : FamfsLog) (s : Cluster H P) : Prop where
  len : s.logp.famfsLogLen = logp0.famfsLogLen
  lastIndex : s.logp.famfsLogLastIndex = logp0.famfsLogLastIndex
  header : famfsValidateLogHeader crc32 s.logp = 0
  index : s.logp.famfsLogNextIndex = logp0.famfsLogNextIndex + s.logged.length
  room : s.logp.famfsLogNextIndex ≤ s.logp.famfsLogLastIndex + 1
  old : ∀ i < logp0.famfsLogNextIndex, s.logp.entries i = logp0.entries i
  new : ∀ j b k, s.logged[j]? = some (b, k) →
    s.logp.entries (logp0.famfsLogNextIndex + j) = numberedEntry crc32 (logp0.famfsLogNextIndex + j + k) b
  ends : ∀ x ∈ s.logged, x.2 ≤ s.torn
  seqnum : (∀ p, (s.pc p).torn = false) → s.logp.famfsLogNextSeqnum = s.logp.famfsLogNextIndex + s.torn
  working : ∀ p, Working crc32 s (s.pc p)

variable {crc32 : Crc32} {logp0 : FamfsLog} {s s' : Cluster H P} {p : P}

theorem working_of_not_holds (h : pc.holds = false) : Working crc32 s pc := by
  cases pc <;> trivial

theorem torn_of_not_holds (h : pc.holds = false) : pc.torn = false := by
  cases pc <;> first | rfl | cases h

theorem Formatted.told (hf : Formatted crc32 s) : Told crc32 s.logp s where
  len := rfl
  lastIndex := rfl
  header := hf.log.header
  index := by rw [hf.logged]; rfl
  room := hf.log.index
  old := fun _ _ => rfl
  new := fun j b k hj => by
    rw [hf.logged] at hj
    cases hj
  ends := fun x hx => by
    rw [hf.logged] at hx
    cases hx
  seqnum := fun _ => by rw [hf.torn]; exact hf.log.seqnum
  working := fun p => by
    rw [hf.idle]
    trivial

theorem afterAlloc_working (c : CreateCall) (r : ℤ × Option FamfsLogFmap × FamfsLockedLog) :
    Working crc32 s (afterAlloc c r) := by
  unfold afterAlloc
  split <;> trivial

/-- The process at a store of its append is the only one with the lock. -/
def Alone (s : Cluster H P) (p : P) : Prop := ∀ q, q ≠ p → (s.pc q).holds = false

theorem Guarded.alone {hostOf : P → H} {uuid : H → List UInt8} {sb : FamfsSuperblock} (hg : Guarded hostOf uuid sb s) (huuid : ∀ h h', pad 16 (uuid h) = pad 16 (uuid h') → h = h')
    (hp : (s.pc p).holds = true) : Alone s p := by
  intro q hne
  rw [Bool.eq_false_iff]
  intro hq
  exact hne (hg.unique huuid hq hp)

theorem Alone.torn (ha : Alone s p) (hp : (s.pc p).torn = false) (q : P) : (s.pc q).torn = false := by
  by_cases heq : q = p
  · rw [heq]
    exact hp
  · exact torn_of_not_holds (ha q heq)

/-- What later states keep: the record of appends only grows, and so does the number of torn counters. -/
structure Later (s s' : Cluster H P) : Prop where
  torn : s.torn ≤ s'.torn
  logged : ∃ l, s'.logged = s.logged ++ l ∧ ∀ x ∈ l, s.torn ≤ x.2

theorem Later.same (hlogged : s'.logged = s.logged) (htorn : s.torn ≤ s'.torn) : Later s s' :=
  ⟨htorn, [], by rw [hlogged, List.append_nil], by simp⟩

theorem Later.trans {a b c : Cluster H P} (h1 : Later a b) (h2 : Later b c) : Later a c := by
  obtain ⟨l1, hl1, hk1⟩ := h1.logged
  obtain ⟨l2, hl2, hk2⟩ := h2.logged
  refine ⟨h1.torn.trans h2.torn, l1 ++ l2, by rw [hl2, hl1, List.append_assoc], fun x hx => ?_⟩
  rcases List.mem_append.1 hx with hx | hx
  · exact hk1 x hx
  · exact h1.torn.trans (hk2 x hx)

variable [DecidableEq P]

theorem goto_pc (s : Cluster H P) (p q : P) (pc : MasterPc) :
    (s.goto p pc).pc q = if q = p then pc else s.pc q := Function.update_apply ..

@[simp] theorem goto_goto (s : Cluster H P) (p : P) (a b : MasterPc) : (s.goto p a).goto p b = s.goto p b := by
  simp only [Cluster.goto, Function.update_idem]

theorem goto_self (s : Cluster H P) (p : P) (pc : MasterPc) : (s.goto p pc).pc p = pc := Function.update_self ..

theorem exit_counted (s : Cluster H P) (p : P) (lp : FamfsLockedLog) (e : FamfsLogEntry) :
    (s.goto p (.counted lp e)).exit p =
      { s.goto p .idle with
        lock := fun h => if s.lock h = some p then none else s.lock h
        torn := s.torn + 1 } := by
  rw [Cluster.exit, goto_self, goto_goto]
  rfl

theorem Told.goto (ht : Told crc32 logp0 s) (hw : Working crc32 s pc) (htorn : pc.torn = (s.pc p).torn) :
    Told crc32 logp0 (s.goto p pc) := by
  refine ⟨ht.len, ht.lastIndex, ht.header, ht.index, ht.room, ht.old, ht.new, ht.ends,
    fun hq => ht.seqnum fun q => ?_, fun q => ?_⟩
  · have := hq q
    rw [goto_pc] at this
    split_ifs at this with heq
    · rw [heq, ← htorn]
      exact this
    · exact this
  · change Working crc32 s _
    rw [goto_pc]
    split_ifs with heq
    · exact hw
    · exact ht.working q

theorem Alone.working (ha : Alone s p) (hw : Working crc32 s' pc) (q : P) :
    Working crc32 s' ((s.goto p pc).pc q) := by
  rw [goto_pc]
  split_ifs with heq
  · exact hw
  · exact working_of_not_holds (ha q heq)

theorem Told.copy (ht : Told crc32 logp0 s) (ha : Alone s p) {e : FamfsLogEntry}
    (hpc : s.pc p = .stamped lp e) :
    Told crc32 logp0 ((s.store (.entry s.logp.famfsLogNextIndex e)).goto p (.copied lp e)) := by
  have hw := ht.working p
  rw [hpc] at hw
  have hindex := ht.index
  have hkeep : ∀ i < s.logp.famfsLogNextIndex,
      Function.update s.logp.entries s.logp.famfsLogNextIndex e i = s.logp.entries i :=
    fun i hi => Function.update_of_ne (by omega) ..
  refine ⟨ht.len, ht.lastIndex, ht.header, ht.index, ht.room, fun i hi => ?_, fun j b k hj => ?_,
    ht.ends, fun _ => ?_, ?_⟩
  · exact (hkeep i (by omega)).trans (ht.old i hi)
  · have hlt : j < s.logged.length := (List.getElem?_eq_some_iff.1 hj).1
    exact (hkeep _ (by omega)).trans (ht.new j b k hj)
  · exact ht.seqnum (ha.torn (by rw [hpc]; rfl))
  · exact ha.working ⟨hw.1, hw.2, Function.update_self ..⟩

theorem Told.countSeqnum (ht : Told crc32 logp0 s) (ha : Alone s p) {e : FamfsLogEntry}
    (hpc : s.pc p = .copied lp e) :
    Told crc32 logp0 ((s.store (.nextSeqnum (s.logp.famfsLogNextSeqnum + 1))).goto p (.counted lp e)) := by
  have hw := ht.working p
  rw [hpc] at hw
  obtain ⟨hroom, ⟨b, hb⟩, hentry⟩ := hw
  have hseq := ht.seqnum (ha.torn (by rw [hpc]; rfl))
  refine ⟨ht.len, ht.lastIndex, ht.header, ht.index, ht.room, ht.old, ht.new, ht.ends, fun hq => ?_, ?_⟩
  · have := hq p
    rw [goto_pc, if_pos rfl] at this
    cases this
  · refine ha.working ⟨hroom, ⟨b, ?_⟩, hentry, congrArg (· + 1) hseq⟩
    rw [hseq] at hb
    exact hb

theorem Told.countIndex (ht : Told crc32 logp0 s) (ha : Alone s p) {e : FamfsLogEntry}
    (hpc : s.pc p = .counted lp e) :
    Told crc32 logp0 { (s.store (.nextIndex (s.logp.famfsLogNextIndex + 1))).goto p (.session lp) with
      logged := s.logged ++ [(e.body, s.torn)] } := by
  have hw := ht.working p
  rw [hpc] at hw
  obtain ⟨hroom, ⟨b, rfl⟩, hentry, hseq⟩ := hw
  have hindex := ht.index
  refine ⟨ht.len, ht.lastIndex, ht.header, ?_, ?_, ht.old, fun j b' k hj => ?_, fun x hx => ?_, fun _ => ?_, ?_⟩
  · change s.logp.famfsLogNextIndex + 1 = _
    rw [List.length_append, hindex]
    rfl
  · change s.logp.famfsLogNextIndex + 1 ≤ s.logp.famfsLogLastIndex + 1
    omega
  · change (s.logged ++ [(b, s.torn)])[j]? = some (b', k) at hj
    rcases Nat.lt_trichotomy j s.logged.length with hlt | rfl | hgt
    · rw [List.getElem?_append_left hlt] at hj
      exact ht.new j b' k hj
    · rw [List.getElem?_concat_length] at hj
      cases hj
      rw [← hindex]
      exact hentry
    · rw [List.getElem?_eq_none (by simpa using hgt)] at hj
      cases hj
  · rcases List.mem_append.1 hx with hx | hx
    · exact ht.ends x hx
    · rw [List.mem_singleton.1 hx]
      exact le_rfl
  · change s.logp.famfsLogNextSeqnum = s.logp.famfsLogNextIndex + 1 + s.torn
    omega
  · exact ha.working trivial

theorem Told.exit (ht : Told crc32 logp0 s) (ha : (s.pc p).holds = true → Alone s p) : Told crc32 logp0 (s.exit p) := by
  cases htorn : (s.pc p).torn with
  | false =>
    -- nothing is stored and the count of ends stays
    have heq : s.exit p = { s.goto p .idle with lock := (s.exit p).lock } := by
      rw [Cluster.exit, htorn]
      rfl
    have hgoto : Told crc32 logp0 (s.goto p .idle) := ht.goto trivial htorn.symm
    rw [heq]
    exact ⟨hgoto.len, hgoto.lastIndex, hgoto.header, hgoto.index, hgoto.room, hgoto.old, hgoto.new, hgoto.ends,
      hgoto.seqnum, hgoto.working⟩
  | true =>
    cases hpc : s.pc p with
    | counted lp e =>
      have hw := ht.working p
      rw [hpc] at ha hw
      have heq : s.exit p = { s.goto p .idle with lock := (s.exit p).lock, torn := s.torn + 1 } := by
        rw [Cluster.exit, htorn]
        rfl
      rw [heq]
      exact ⟨ht.len, ht.lastIndex, ht.header, ht.index, ht.room, ht.old, ht.new,
        fun x hx => (ht.ends x hx).trans (Nat.le_succ _), fun _ => hw.2.2.2, (ha rfl).working trivial⟩
    | _ =>
      rw [hpc] at htorn
      cases htorn

theorem entry_room {logp : FamfsLog}
    (h : c.entry logp fmap = .ok (.ok body)) : logp.famfsLogNextIndex ≤ logp.famfsLogLastIndex := by
  have hroom : famfsLogFull logp = false := by
    cases c with
    | file host size param relpath mode uid gid =>
      simp only [CreateCall.entry] at h
      split_ifs at h with h1 h2 h3
      · cases h
      · simpa using h3
    | dir relpath mode uid gid =>
      simp only [CreateCall.entry] at h
      split_ifs at h with h1 h2
      · cases h
      · simpa using h2
  simpa [famfsLogFull] using hroom

variable [DecidableEq H] {kabi : ℕ} {hostOf : P → H} {uuid : H → List UInt8} {sb : FamfsSuperblock}
  {asked : CreateCall → Prop}

theorem Told.step (hsuper : famfsCheckSuper crc32 sb = 0) (huuid : ∀ h h', pad 16 (uuid h) = pad 16 (uuid h') → h = h')
    (hg : Guarded hostOf uuid sb s) (ht : Told crc32 logp0 s)
    (hstep : ClusterStep crc32 kabi hostOf uuid asked s s') : Told crc32 logp0 s' := by
  cases hstep with
  | validate hpc _ => exact ht.goto trivial (by rw [hpc]; rfl)
  | getRole hpc _ => exact ht.goto trivial (by rw [hpc]; rfl)
  | @flock p sb' hpc _ =>
    have hgoto : Told crc32 logp0 (s.goto p (.locked sb')) := ht.goto trivial (by rw [hpc]; rfl)
    exact ⟨hgoto.len, hgoto.lastIndex, hgoto.header, hgoto.index, hgoto.room, hgoto.old, hgoto.new, hgoto.ends,
      hgoto.seqnum, hgoto.working⟩
  | openSession mpt cfg hpc => exact ht.goto trivial (by rw [hpc]; rfl)
  | alloc hpc _ _ => exact ht.goto (afterAlloc_working _ _) (by rw [hpc]; exact afterAlloc_torn _ _)
  | mkdir hpc _ => exact ht.goto trivial (by rw [hpc]; rfl)
  | notCreated hpc => exact ht.goto trivial (by rw [hpc]; rfl)
  | @logEntry p lp c fmap r hpc hentry =>
    cases r with
    | error rc => exact ht.goto trivial (by rw [hpc]; rfl)
    | ok body => exact ht.goto (entry_room hentry) (by rw [hpc]; rfl)
  | @stamp p lp body hpc =>
    have hw := ht.working p
    rw [hpc] at hw
    exact ht.goto ⟨hw, body, stampLogEntry_numbered s.logp body⟩ (by rw [hpc]; rfl)
  | copy hpc => exact ht.copy (hg.alone huuid (by rw [hpc]; rfl)) hpc
  | countSeqnum hpc => exact ht.countSeqnum (hg.alone huuid (by rw [hpc]; rfl)) hpc
  | countIndex hpc => exact ht.countIndex (hg.alone huuid (by rw [hpc]; rfl)) hpc
  | exit => exact ht.exit (hg.alone huuid)
  | mkfsAllowed hpc _ => exact ht.goto trivial (by rw [hpc]; rfl)
  | @mkfs p n logLen host writable kill hpc =>
    have hgoto : Told crc32 logp0 (s.goto p .idle) := ht.goto trivial (by rw [hpc]; rfl)
    rw [famfsMkfs_super (by rw [hg.super]; exact hsuper)]
    exact hgoto

theorem told_run {s0 : Cluster H P} (huuid : ∀ h h', pad 16 (uuid h) = pad 16 (uuid h') → h = h')
    (hf : Formatted crc32 s0) (hrun : ReflTransGen (ClusterStep crc32 kabi hostOf uuid asked) s0 s) :
    Guarded hostOf uuid s0.sb s ∧ Told crc32 s0.logp s :=
  Runs.invariant (P := fun s => Guarded hostOf uuid s0.sb s ∧ Told crc32 s0.logp s)
    (fun _ _ h hs => ⟨h.1.step hf.super hs, h.2.step hf.super huuid h.1 hs⟩) hrun ⟨hf.guarded, hf.told⟩

theorem later_step (hstep : ClusterStep crc32 kabi hostOf uuid asked s s') : Later s s' := by
  cases hstep with
  | countIndex hpc => exact ⟨le_rfl, [_], rfl, fun x hx => by rw [List.mem_singleton.1 hx]⟩
  | exit =>
    refine Later.same rfl ?_
    simp only [Cluster.exit]
    split_ifs
    · exact Nat.le_succ _
    · exact le_rfl
  | _ => exact Later.same rfl le_rfl

theorem later_run (hrun : ReflTransGen (ClusterStep crc32 kabi hostOf uuid asked) s s') : Later s s' :=
  Runs.monotone (P := fun _ => True) (fun _ => Later.same rfl le_rfl) Later.trans
    (fun _ _ _ hs => ⟨trivial, later_step hs⟩) hrun trivial

theorem step_goto {pc pc' : MasterPc} {t : Cluster H P}
    (h : ClusterStep crc32 kabi hostOf uuid asked (s.goto p pc) ((t.goto p pc).goto p pc')) :
    ClusterStep crc32 kabi hostOf uuid asked (s.goto p pc) (t.goto p pc') := by
  rw [goto_goto] at h
  exact h

theorem session_alone (hidle : s.pc p = .idle) (hsuper : famfsCheckSuper crc32 s.sb = 0)
    (hrole : famfsGetRole crc32 (some (uuid (hostOf p))) s.sb = .master) (hfree : s.lock (hostOf p) = none)
    (mpt : CStr) (cfg : Option FamfsInterleaveParam) :
    ReflTransGen (ClusterStep crc32 kabi hostOf uuid asked) s
      { s.goto p (.session (famfsInitLockedLog kabi s.sb s.logp .v1 mpt none cfg)) with
        lock := Function.update s.lock (hostOf p) (some p) } := by
  have h1 : ClusterStep crc32 kabi hostOf uuid asked s (s.goto p (.validated s.sb)) := .validate hidle hsuper
  have h2 : ClusterStep crc32 kabi hostOf uuid asked (s.goto p (.validated s.sb)) (s.goto p (.isMaster s.sb)) :=
    step_goto (.getRole (goto_self ..) hrole)
  set s3 : Cluster H P := { s with lock := Function.update s.lock (hostOf p) (some p) }
  have h3 : ClusterStep crc32 kabi hostOf uuid asked (s.goto p (.isMaster s.sb)) (s3.goto p (.locked s.sb)) :=
    step_goto (.flock (goto_self ..) hfree)
  have h4 : ClusterStep crc32 kabi hostOf uuid asked (s3.goto p (.locked s.sb))
      (s3.goto p (.session (famfsInitLockedLog kabi s.sb s.logp .v1 mpt none cfg))) :=
    step_goto (.openSession mpt cfg (goto_self ..))
  exact (((ReflTransGen.single h1).tail h2).tail h3).tail h4

/-- The device with the entry copied and the first counter stored. -/
def Cluster.halfway (crc32 : Crc32) (s : Cluster H P) (body : FamfsLogEntryBody) : Cluster H P :=
  (s.store (.entry s.logp.famfsLogNextIndex (stampLogEntry crc32 s.logp (newLogEntry body)))).store
    (.nextSeqnum (s.logp.famfsLogNextSeqnum + 1))

theorem halfway_alone
    (hpc : s.pc p = .placed lp c fmap) (hentry : c.entry s.logp fmap = .ok (.ok body)) :
    ReflTransGen (ClusterStep crc32 kabi hostOf uuid asked) s
      ((s.halfway crc32 body).goto p (.counted lp (stampLogEntry crc32 s.logp (newLogEntry body)))) := by
  set e := stampLogEntry crc32 s.logp (newLogEntry body)
  have h1 : ClusterStep crc32 kabi hostOf uuid asked s (s.goto p (.append lp body)) := .logEntry hpc hentry
  have h2 : ClusterStep crc32 kabi hostOf uuid asked (s.goto p (.append lp body)) (s.goto p (.stamped lp e)) :=
    step_goto (.stamp (goto_self ..))
  set s3 := s.store (.entry s.logp.famfsLogNextIndex e)
  have h3 : ClusterStep crc32 kabi hostOf uuid asked (s.goto p (.stamped lp e)) (s3.goto p (.copied lp e)) :=
    step_goto (.copy (goto_self ..))
  have h4 : ClusterStep crc32 kabi hostOf uuid asked (s3.goto p (.copied lp e))
      ((s.halfway crc32 body).goto p (.counted lp e)) := step_goto (.countSeqnum (goto_self ..))
  exact (((ReflTransGen.single h1).tail h2).tail h3).tail h4

/-- Together the steps of an append that is not disturbed are one `famfs_append_log`. -/
theorem append_alone
    (hpc : s.pc p = .placed lp c fmap) (hentry : c.entry s.logp fmap = .ok (.ok body)) :
    ReflTransGen (ClusterStep crc32 kabi hostOf uuid asked) s
      { s.goto p (.session lp) with
        logp := famfsAppendLog crc32 s.logp (newLogEntry body)
        logged := s.logged ++ [(body, s.torn)] } := by
  set s5 : Cluster H P := { (s.halfway crc32 body).store (.nextIndex (s.logp.famfsLogNextIndex + 1)) with
    logged := s.logged ++ [(body, s.torn)] }
  have h5 : ClusterStep crc32 kabi hostOf uuid asked
      ((s.halfway crc32 body).goto p (.counted lp (stampLogEntry crc32 s.logp (newLogEntry body))))
      (s5.goto p (.session lp)) := step_goto (.countIndex (goto_self ..))
  exact (halfway_alone hpc hentry).tail h5

theorem tear_alone
    (hpc : s.pc p = .placed lp c fmap) (hentry : c.entry s.logp fmap = .ok (.ok body)) :
    ReflTransGen (ClusterStep crc32 kabi hostOf uuid asked) s
      { (s.halfway crc32 body).goto p .idle with
        lock := fun h => if s.lock h = some p then none else s.lock h
        torn := s.torn + 1 } := by
  set e := stampLogEntry crc32 s.logp (newLogEntry body)
  have hexit : ClusterStep crc32 kabi hostOf uuid asked ((s.halfway crc32 body).goto p (.counted lp e))
      (((s.halfway crc32 body).goto p (.counted lp e)).exit p) := .exit
  rw [exit_counted] at hexit
  exact (halfway_alone hpc hentry).tail hexit

/-- On a file system with distinct hosts, from any formatted state and under any interleaving of any
number of processes, wherever they end: nobody changes the superblock, only processes of the host that
made the file system come to the lock, at most one process of the whole cluster is between taking the
lock and giving it back, and a lock that is taken belongs to such a process. -/
theorem single_writer {s0 : Cluster H P} (huuid : ∀ h h', pad 16 (uuid h) = pad 16 (uuid h') → h = h')
    (hf : Formatted crc32 s0) (hrun : ReflTransGen (ClusterStep crc32 kabi hostOf uuid asked) s0 s) :
    s.sb = s0.sb ∧
    (∀ p, (s.pc p).holds = true → pad 16 (uuid (hostOf p)) = pad 16 s0.sb.tsSystemUuid) ∧
    (∀ p q, (s.pc p).holds = true → (s.pc q).holds = true → p = q) ∧
    ∀ h p, s.lock h = some p ↔ hostOf p = h ∧ (s.pc p).holds = true := by
  have hg := guarded_run hf hrun
  refine ⟨hg.super, fun p hp => hg.owner p (MasterPc.passed_of_holds hp), fun p q hp hq => hg.unique huuid hp hq,
    fun h p => ⟨hg.held h p, ?_⟩⟩
  rintro ⟨rfl, hp⟩
  exact hg.lock p hp

/-- No update is lost, doubled or mixed with another: in every reachable state the log holds the
entries that it started with and then, in the order in which they were completed, the entries of the
completed appends and nothing else. Readers accept an entry exactly if no process had ended between the
two counter stores of an append before it. -/
theorem no_lost_update {s0 : Cluster H P} (huuid : ∀ h h', pad 16 (uuid h) = pad 16 (uuid h') → h = h')
    (hf : Formatted crc32 s0) (hrun : ReflTransGen (ClusterStep crc32 kabi hostOf uuid asked) s0 s) :
    s.logp.famfsLogNextIndex = s0.logp.famfsLogNextIndex + s.logged.length ∧
    s.logp.famfsLogNextIndex ≤ s.logp.famfsLogLastIndex + 1 ∧
    famfsValidateLogHeader crc32 s.logp = 0 ∧
    (∀ i < s0.logp.famfsLogNextIndex, s.logp.entries i = s0.logp.entries i) ∧
    (∀ j b k, s.logged[j]? = some (b, k) → (s.logp.entries (s0.logp.famfsLogNextIndex + j)).body = b ∧
      (entryValid crc32 s.logp (s0.logp.famfsLogNextIndex + j) ↔ k = 0)) ∧
    ((∀ p, (s.pc p).holds = false) → (LogOk crc32 s.logp ↔ s.torn = 0)) := by
  obtain ⟨-, ht⟩ := told_run huuid hf hrun
  have hvalid : ∀ j b k, s.logged[j]? = some (b, k) →
      (entryValid crc32 s.logp (s0.logp.famfsLogNextIndex + j) ↔ k = 0) := by
    intro j b k hj
    rw [entryValid, ht.new j b k hj, numberedEntry_valid]
    omega
  refine ⟨ht.index, ht.room, ht.header, ht.old, fun j b k hj => ⟨?_, hvalid j b k hj⟩, fun hquiet => ?_⟩
  · rw [ht.new j b k hj]
    rfl
  · have hseq := ht.seqnum fun p => torn_of_not_holds (hquiet p)
    refine ⟨fun hok => ?_, fun htorn => ⟨?_, ht.room, ht.header, fun i hi => ?_, ?_⟩⟩
    · have := hok.seqnum
      omega
    · rw [hseq, htorn, Nat.add_zero]
    · by_cases hold : i < s0.logp.famfsLogNextIndex
      · rw [ht.old i hold]
        exact hf.log.entry i hold
      · -- the entry of a completed append
        obtain ⟨j, rfl⟩ : ∃ j, i = s0.logp.famfsLogNextIndex + j := ⟨i - s0.logp.famfsLogNextIndex, by omega⟩
        have hj : j < s.logged.length := by
          have := ht.index
          omega
        have hget : s.logged[j]? = some (s.logged[j].1, s.logged[j].2) := List.getElem?_eq_getElem hj
        have hends := ht.ends _ (List.getElem_mem hj)
        exact (hvalid j _ _ hget).2 (by omega)
    · rw [ht.len, ht.lastIndex]
      exact hf.log.room

end

/-! Two hosts on one device, of which the first made the file system. -/

def twoBoxes : Cluster Bool Bool where
  sb := mkfsSuperblock Crc32.update ⟨some [1], [], []⟩ [1] FAMFS_LOG_LEN mkfsMinDevsize
  logp := mkfsLog Crc32.update FAMFS_LOG_LEN
  lock := fun _ => none
  pc := fun _ => .idle
  logged := []
  torn := 0

def boxUuid (h : Bool) : List UInt8 := if h then [1] else [2]

theorem boxUuid_distinct : ∀ h h', pad 16 (boxUuid h) = pad 16 (boxUuid h') → h = h' := by decide

theorem twoBoxes_formatted : Formatted Crc32.update twoBoxes :=
  ⟨famfsCheckSuper_made .., logOk_mkfs _ le_rfl (by decide), fun _ => rfl, fun _ => rfl, rfl, rfl⟩

def boxSession (s : Cluster Bool Bool) : FamfsLockedLog := famfsInitLockedLog 43 s.sb s.logp .v1 [47, 109] none none

def boxOpen (s : Cluster Bool Bool) : Cluster Bool Bool :=
  { s.goto true (.session (boxSession s)) with lock := Function.update s.lock true (some true) }

def boxPlaced (s : Cluster Bool Bool) : Cluster Bool Bool :=
  (boxOpen s).goto true (.placed (boxSession s) (.dir [100] 0o755 0 0) .zero)

theorem boxPlaced_pc (s : Cluster Bool Bool) :
    (boxPlaced s).pc true = .placed (boxSession s) (.dir [100] 0o755 0 0) .zero := rfl

def boxEntry : FamfsLogEntryBody := .md ⟨0, 0, 0o755, [100]⟩

section

variable {s : Cluster Bool Bool} (hidle : s.pc true = .idle) (hsb : s.sb = twoBoxes.sb) (hfree : s.lock true = none)

include hidle hsb hfree

theorem boxOpen_run (asked : CreateCall → Prop) :
    ReflTransGen (ClusterStep Crc32.update 43 id boxUuid asked) s (boxOpen s) := by
  refine session_alone hidle ?_ ?_ hfree [47, 109] none
  · rw [hsb]
    exact famfsCheckSuper_made ..
  · rw [hsb]
    decide +kernel

theorem boxPlaced_run (asked : CreateCall → Prop) (hasked : asked (.dir [100] 0o755 0 0)) :
    ReflTransGen (ClusterStep Crc32.update 43 id boxUuid asked) s (boxPlaced s) :=
  (boxOpen_run hidle hsb hfree _).tail (.mkdir rfl hasked)

end

/-- While the first host works, nobody else does. -/
theorem single_writer_two_boxes :
    ∃ s, ReflTransGen (ClusterStep Crc32.update 43 id boxUuid fun _ => True) twoBoxes s ∧ (s.pc true).holds = true ∧
      ∀ q, (s.pc q).holds = true → q = true := by
  have hrun := boxPlaced_run (s := twoBoxes) rfl rfl rfl (fun _ => True) trivial
  exact ⟨_, hrun, rfl, fun q hq => (single_writer boxUuid_distinct twoBoxes_formatted hrun).2.2.1 q true hq rfl⟩

/-- The first host makes a directory, and the entry of it is in the log for every reader. -/
theorem no_lost_update_two_boxes :
    ∃ s, ReflTransGen (ClusterStep Crc32.update 43 id boxUuid fun _ => True) twoBoxes s ∧ s.logged = [(boxEntry, 0)] ∧
      (s.logp.entries 0).body = boxEntry ∧ entryValid Crc32.update s.logp 0 := by
  have hentry : (CreateCall.dir [100] 0o755 0 0).entry twoBoxes.logp .zero = .ok (.ok boxEntry) := rfl
  have hrun := (boxPlaced_run (s := twoBoxes) rfl rfl rfl (fun _ => True) trivial).trans (append_alone (boxPlaced_pc twoBoxes) hentry)
  refine ⟨_, hrun, rfl, ?_⟩
  have hnew := (no_lost_update boxUuid_distinct twoBoxes_formatted hrun).2.2.2.2.1 0 boxEntry 0 rfl
  exact ⟨hnew.1, hnew.2.2 rfl⟩

end Famfs

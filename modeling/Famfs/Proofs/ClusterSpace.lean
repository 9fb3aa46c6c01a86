import Famfs.Proofs.AllocRuns
import Famfs.Proofs.SingleWriter

/-! The space of the cluster. Every session builds its bitmap from the log that the sessions before it
left, so that no two files of the whole cluster share a byte, whichever processes made them and wherever
processes ended, as long as none ended between the two counter stores of an append. What a session
placed and never logged is lost to that session only. -/

namespace Famfs

open Machine Intervals Relation

def CreateCall.Admitted (devsize : ℕ) : CreateCall → Prop
  | .file _ size param _ _ _ _ => 1 ≤ size ∧ size ≤ devsize ∧
      (param = ⟨0, 0, 0⟩ ∨ 1 ≤ param.nstrips ∧ param.nstrips ≤ 16)
  | .dir _ _ _ _ => True

def MasterPc.lp : MasterPc → Option FamfsLockedLog
  | .session lp => some lp
  | .placed lp _ _ => some lp
  | .append lp _ => some lp
  | .stamped lp _ => some lp
  | .copied lp _ => some lp
  | .counted lp _ => some lp
  | _ => none

def FamfsLogEntryBody.fmap : FamfsLogEntryBody → Option FamfsLogFmap
  | .fm m => some m.fmFmap
  | _ => none

/-- The map that a process has placed and not logged yet. -/
def MasterPc.fmap : MasterPc → Option FamfsLogFmap
  | .placed _ (.file _ _ _ _ _ _ _) fmap => some fmap
  | .append _ body => body.fmap
  | .stamped _ e => e.body.fmap
  | .copied _ e => e.body.fmap
  | .counted _ e => e.body.fmap
  | _ => none

def FamfsLogFmap.units (f : FamfsLogFmap) : List Seg := f.extents.map FamfsSimpleExtent.units

section

variable {N : ℕ} {H P : Type} {lp : FamfsLockedLog} {logp : FamfsLog}

/-- Between the log and the bitmap of the session: `rest` is placed and not logged. -/
structure Spread (crc32 : Crc32) (devsize : ℕ) (s : Cluster H P) (L : Layout N) (rest : List Seg) : Prop where
  segs : L.segs.Perm (logSegs s.logp ++ rest)
  mapped : Mapped crc32 s.logp
  session : ∀ p lp, (s.pc p).lp = some lp → lp.devsize = devsize ∧ lp.allocUnit = FAMFS_ALLOC_UNIT ∧
    (∀ bm, lp.bitmap = some bm → lp.nbits = N ∧ Shows L bm) ∧ (lp.bitmap = none → rest = [])
  pending : ∀ p fmap, (s.pc p).fmap = some fmap → fmap.Bounded ∧ (∀ e ∈ fmap.extents, e.Whole) ∧
    ∃ rest', rest.Perm (fmap.units ++ rest')

theorem lp_of_not_holds {pc : MasterPc} (h : pc.holds = false) : pc.lp = none ∧ pc.fmap = none := by
  cases pc <;> first | exact ⟨rfl, rfl⟩ | cases h

theorem afterAlloc_failed (c : CreateCall) {rc : ℤ} (hrc : rc ≠ 0) {fmap : Option FamfsLogFmap} :
    afterAlloc c (rc, fmap, lp) = .session lp := by
  unfold afterAlloc
  split
  · rename_i heq
    cases heq
    exact absurd rfl hrc
  · rename_i heq
    cases heq
    rfl

variable {crc32 : Crc32} {devsize : ℕ} {s : Cluster H P} {p : P} {L L' : Layout N} {rest rest' : List Seg}

theorem Spread.same {s' : Cluster H P} (h : Spread crc32 devsize s L rest) (hlogp : s'.logp = s.logp) (hpc : s'.pc = s.pc) :
    Spread crc32 devsize s' L rest := by
  refine ⟨?_, ?_, ?_, ?_⟩
  all_goals simp only [hlogp, hpc]
  exacts [h.segs, h.mapped, h.session, h.pending]

theorem spread_made {s0 : Cluster H P} {mkfsHost : MkfsHost} {u : List UInt8} {logLen : ℕ} (hf : Formatted crc32 s0)
    (hmade : s0.sb = mkfsSuperblock crc32 mkfsHost u logLen devsize ∧ s0.logp = mkfsLog crc32 logLen)
    (hdev : 0 < devsize ∧ devsize < 2 ^ 51) (hlen : mkfsLogLenValid logLen) (h64 : logLen < 2 ^ 64) :
    ∃ L : Layout (bitmapNbits devsize FAMFS_ALLOC_UNIT), Spread crc32 devsize s0 L [] := by
  have hsb : s0.sb.tsAllocUnit = FAMFS_ALLOC_UNIT ∧ s0.sb.tsDaxdevSize = devsize := by
    rw [hmade.1]
    exact ⟨rfl, rfl⟩
  obtain ⟨L, hL⟩ : ∃ L : Layout (bitmapNbits devsize FAMFS_ALLOC_UNIT), Refines crc32 s0.sb
      (famfsInitLockedLog 0 s0.sb (mkfsLog crc32 logLen) .v1 [] none none) L :=
    refines_mkfs hsb hdev hlen h64 .v1 [] none none
  refine ⟨L, ?_, ?_, fun p lp hlp => ?_, fun p f hf' => ?_⟩
  · rw [List.append_nil, hL.segs, hmade.2]
    exact List.Perm.refl _
  · rw [hmade.2]
    exact hL.mapped
  · rw [hf.idle] at hlp
    cases hlp
  · rw [hf.idle] at hf'
    cases hf'

theorem Spread.store (h : Spread crc32 devsize s L rest) {st : LogStore} (hsegs : logSegs (s.logp.apply st) = logSegs s.logp)
    (hmapped : Mapped crc32 (s.logp.apply st)) : Spread crc32 devsize (s.store st) L rest := by
  refine ⟨?_, hmapped, h.session, h.pending⟩
  change L.segs.Perm (logSegs (s.logp.apply st) ++ rest)
  rw [hsegs]
  exact h.segs

variable [DecidableEq P]

theorem Alone.spread (ha : Alone s p) {pc : MasterPc} (hsegs : L.segs.Perm (logSegs s.logp ++ rest)) (hmapped : Mapped crc32 s.logp)
    (hsession : ∀ lp, pc.lp = some lp → lp.devsize = devsize ∧ lp.allocUnit = FAMFS_ALLOC_UNIT ∧
      (∀ bm, lp.bitmap = some bm → lp.nbits = N ∧ Shows L bm) ∧ (lp.bitmap = none → rest = []))
    (hpending : ∀ fmap, pc.fmap = some fmap → fmap.Bounded ∧ (∀ e ∈ fmap.extents, e.Whole) ∧
      ∃ rest', rest.Perm (fmap.units ++ rest')) : Spread crc32 devsize (s.goto p pc) L rest := by
  refine ⟨hsegs, hmapped, fun q lp hlp => ?_, fun q fmap hfmap => ?_⟩
  · rw [goto_pc] at hlp
    split_ifs at hlp with heq
    · exact hsession lp hlp
    · rw [(lp_of_not_holds (ha q heq)).1] at hlp
      cases hlp
  · rw [goto_pc] at hfmap
    split_ifs at hfmap with heq
    · exact hpending fmap hfmap
    · rw [(lp_of_not_holds (ha q heq)).2] at hfmap
      cases hfmap

theorem Spread.goto (h : Spread crc32 devsize s L rest) {pc : MasterPc} (hlp : ∀ lp, pc.lp = some lp → (s.pc p).lp = some lp)
    (hfmap : ∀ f, pc.fmap = some f → (s.pc p).fmap = some f) : Spread crc32 devsize (s.goto p pc) L rest := by
  refine ⟨h.segs, h.mapped, fun q lp hq => ?_, fun q f hq => ?_⟩
  · rw [goto_pc] at hq
    split_ifs at hq with heq
    · exact h.session p lp (hlp lp hq)
    · exact h.session q lp hq
  · rw [goto_pc] at hq
    split_ifs at hq with heq
    · exact h.pending p f (hfmap f hq)
    · exact h.pending q f hq

theorem Spread.fresh (h : Spread crc32 devsize s L rest) (ha : Alone s p)
    (hlp : lp.devsize = devsize ∧ lp.allocUnit = FAMFS_ALLOC_UNIT) (hbm : lp.bitmap = none) :
    Spread crc32 devsize (s.goto p (.session lp)) (L.part h.segs) [] := by
  refine ha.spread (by rw [List.append_nil]; exact List.Perm.refl _) h.mapped (fun lp' hlp' => ?_) nofun
  cases hlp'
  refine ⟨hlp.1, hlp.2, fun bm hbm' => ?_, fun _ => rfl⟩
  rw [hbm] at hbm'
  cases hbm'

theorem Spread.alloc (h : Spread crc32 devsize s L rest) (ha : Alone s p) (hdev : devsize < 2 ^ 51)
    (hN : bitmapNbits devsize FAMFS_ALLOC_UNIT = N) {kabi : ℕ} (hpc : s.pc p = .session lp)
    {host : AllocHost} {size : ℕ} {param : FamfsInterleaveParam} {relpath : CStr} {mode uid gid : ℕ}
    (hasked : (CreateCall.file host size param relpath mode uid gid).Admitted devsize)
    {r : ℤ × Option FamfsLogFmap × FamfsLockedLog}
    (halloc : famfsFileAlloc crc32 kabi host { lp with logp := s.logp, interleaveParam := param } size = .ok r) :
    ∃ (L' : Layout N) (rest' : List Seg),
      Spread crc32 devsize (s.goto p (afterAlloc (.file host size param relpath mode uid gid) r)) L' rest' := by
  obtain ⟨hlpdev, hunit, hbitmap, hnone⟩ := h.session p lp (by rw [hpc]; rfl)
  have hplacing : Placing { lp with logp := s.logp } L := by
    refine ⟨hunit, by rw [← hlpdev] at hdev; exact hdev, by rw [← hlpdev] at hN; exact hN, ?_, hbitmap⟩
    rw [covers_perm h.segs, logSegs, covers_append, covers_cons]
    exact Or.inl (Or.inl ⟨le_rfl, by simpa using metaUnits_pos s.logp⟩)
  have hbuild : lp.bitmap = none → Mapped crc32 s.logp ∧ ∀ x, Covers (logSegs s.logp) x ↔ Covers L.segs x := by
    intro hbm
    refine ⟨h.mapped, fun x => ?_⟩
    rw [covers_perm h.segs, hnone hbm, List.append_nil]
  have hadm : AllocCall.Admitted ⟨host, size, param, relpath, mode, uid, gid⟩ lp.devsize := by
    rw [hlpdev]
    exact hasked
  obtain ⟨rc, fmap, lp'⟩ := r
  rcases famfsFileAlloc_placing hplacing hbuild hadm halloc with ⟨hrc, rfl⟩ | ⟨bm, bm', pos, rfl, -, hout⟩
  · -- nothing changed but the parameters
    refine ⟨L, rest, ?_⟩
    rw [afterAlloc_failed _ hrc]
    refine ha.spread h.segs h.mapped (fun lp' hlp' => ?_) (fun f hf => by cases hf)
    cases hlp'
    exact ⟨hlpdev, hunit, hbitmap, hnone⟩
  · cases hout with
    | failed hrc hs =>
      refine ⟨L, rest, ?_⟩
      rw [afterAlloc_failed _ hrc]
      refine ha.spread h.segs h.mapped (fun lp' hlp' => ?_) (fun f hf => by cases hf)
      cases hlp'
      refine ⟨hlpdev, hunit, fun bm0 hbm0 => ?_, fun hbm => by cases hbm⟩
      cases hbm0
      exact ⟨rfl, hs⟩
    | @placed fmap cs L' hL hs hmap hext hsize =>
      have hunits : fmap.units = cs := by
        rw [FamfsLogFmap.units, hext, List.map_map]
        simp [Function.comp_def]
      refine ⟨L', cs ++ rest, ?_⟩
      refine ha.spread ?_ h.mapped (fun lp' hlp' => ?_) (fun f hf => ?_)
      · rw [hL]
        refine (List.Perm.append_right cs h.segs).trans ?_
        rw [List.append_assoc]
        exact List.Perm.append_left _ List.perm_append_comm
      · cases hlp'
        refine ⟨hlpdev, hunit, fun bm0 hbm0 => ?_, fun hbm => by cases hbm⟩
        cases hbm0
        exact ⟨rfl, hs⟩
      · cases hf
        refine ⟨hmap, fun e he => ?_, rest, by rw [hunits]⟩
        rw [hext] at he
        obtain ⟨c, hc, rfl⟩ := List.mem_map.1 he
        exact unitExtent_whole (hsize c hc).1 (hsize c hc).2

theorem logExtents_copy (logp : FamfsLog) (e : FamfsLogEntry) :
    logExtents (logp.apply (.entry logp.famfsLogNextIndex e)) = logExtents logp := by
  refine List.flatMap_congr fun i hi => ?_
  have hlt : i < logp.famfsLogNextIndex := List.mem_range.1 hi
  change (Function.update logp.entries logp.famfsLogNextIndex e i).body.extents = _
  rw [Function.update_of_ne (by omega)]

theorem logSegs_copy (logp : FamfsLog) (e : FamfsLogEntry) :
    logSegs (logp.apply (.entry logp.famfsLogNextIndex e)) = logSegs logp := by
  rw [logSegs, logExtents_copy]
  rfl

theorem mapped_copy (hm : Mapped crc32 logp) (e : FamfsLogEntry) :
    Mapped crc32 (logp.apply (.entry logp.famfsLogNextIndex e)) := by
  have hkeep : ∀ i < logp.famfsLogNextIndex, (logp.apply (.entry logp.famfsLogNextIndex e)).entries i = logp.entries i :=
    fun i hi => Function.update_of_ne (by omega) ..
  refine ⟨fun i hi => ?_, fun i hi m hb => ?_, ?_, hm.len⟩
  · rw [hkeep i hi]
    exact hm.entry i hi
  · rw [hkeep i hi] at hb
    exact hm.maps i hi m hb
  · rw [logExtents_copy]
    exact hm.whole

theorem mapped_count (hm : Mapped crc32 logp) {b : FamfsLogEntryBody}
    (hentry : logp.entries logp.famfsLogNextIndex = numberedEntry crc32 logp.famfsLogNextIndex b)
    (hb : ∀ fmap, b.fmap = some fmap → fmap.Bounded ∧ ∀ e ∈ fmap.extents, e.Whole) :
    Mapped crc32 (logp.apply (.nextIndex (logp.famfsLogNextIndex + 1))) := by
  refine ⟨fun i hi => ?_, fun i hi m hbody => ?_, fun e he => ?_, hm.len⟩
  · rcases Nat.lt_succ_iff_lt_or_eq.1 hi with hlt | rfl
    · exact hm.entry i hlt
    · change famfsValidateLogEntry crc32 (fun _ => logp.entries logp.famfsLogNextIndex) _ = 0
      rw [hentry, numberedEntry_valid]
  · rcases Nat.lt_succ_iff_lt_or_eq.1 hi with hlt | rfl
    · exact hm.maps i hlt m hbody
    · change (logp.entries logp.famfsLogNextIndex).body = .fm m at hbody
      rw [hentry] at hbody
      exact (hb m.fmFmap (by rw [show b = .fm m from hbody]; rfl)).1
  · have hsplit : e ∈ extentsBelow logp (logp.famfsLogNextIndex + 1) := he
    rw [extentsBelow_succ, hentry] at hsplit
    rcases List.mem_append.1 hsplit with he | he
    · exact hm.whole e he
    · change e ∈ b.extents at he
      cases b with
      | fm m => exact (hb m.fmFmap rfl).2 e he
      | _ => cases he

theorem entry_fmap {c : CreateCall} {fmap : FamfsLogFmap} {body : FamfsLogEntryBody}
    (h : c.entry logp fmap = .ok (.ok body)) : body.fmap = (MasterPc.placed lp c fmap).fmap := by
  cases c with
  | file host size param relpath mode uid gid =>
    simp only [CreateCall.entry] at h
    split_ifs at h
    · cases h
    · cases h
      rfl
  | dir relpath mode uid gid =>
    simp only [CreateCall.entry] at h
    split_ifs at h
    · cases h
    · cases h
      rfl

theorem body_units (b : FamfsLogEntryBody) :
    b.extents.map FamfsSimpleExtent.units = (b.fmap.map FamfsLogFmap.units).getD [] := by
  cases b <;> rfl

theorem Spread.count (h : Spread crc32 devsize s L rest) (ha : Alone s p) {b : FamfsLogEntryBody}
    {logged : List (FamfsLogEntryBody × ℕ)}
    (hpc : s.pc p = .counted lp (numberedEntry crc32 s.logp.famfsLogNextIndex b))
    (hentry : s.logp.entries s.logp.famfsLogNextIndex = numberedEntry crc32 s.logp.famfsLogNextIndex b) :
    ∃ rest', Spread crc32 devsize { (s.store (.nextIndex (s.logp.famfsLogNextIndex + 1))).goto p (.session lp) with
      logged := logged } L rest' := by
  have hlp := h.session p lp (by rw [hpc]; rfl)
  have hpend : ∀ fmap, b.fmap = some fmap → _ := fun fmap hf => h.pending p fmap (by rw [hpc]; exact hf)
  -- the units of the entry move from the rest to the log
  obtain ⟨rest', hrest⟩ : ∃ rest', rest.Perm (b.extents.map FamfsSimpleExtent.units ++ rest') := by
    rw [body_units]
    cases hf : b.fmap with
    | none => exact ⟨rest, List.Perm.refl _⟩
    | some fmap => exact (hpend fmap hf).2.2
  have hext : logExtents (s.logp.apply (.nextIndex (s.logp.famfsLogNextIndex + 1))) = logExtents s.logp ++ b.extents := by
    refine (extentsBelow_succ s.logp s.logp.famfsLogNextIndex).trans ?_
    rw [hentry]
    rfl
  have halone : Alone (s.store (.nextIndex (s.logp.famfsLogNextIndex + 1))) p := ha
  have hspread : Spread crc32 devsize ((s.store (.nextIndex (s.logp.famfsLogNextIndex + 1))).goto p (.session lp)) L rest' := by
    refine halone.spread ?_ ?_ (fun lp' hlp' => ?_) nofun
    · refine h.segs.trans ((List.Perm.append_left _ hrest).trans ?_)
      change List.Perm _ (_ :: (logExtents (s.logp.apply (.nextIndex (s.logp.famfsLogNextIndex + 1)))).map _ ++ rest')
      rw [hext, List.map_append, logSegs, List.cons_append, List.cons_append, List.append_assoc]
      exact List.Perm.refl _
    · exact mapped_count h.mapped hentry fun fmap hf => ⟨(hpend fmap hf).1, (hpend fmap hf).2.1⟩
    · cases hlp'
      refine ⟨hlp.1, hlp.2.1, hlp.2.2.1, fun hbm => ?_⟩
      rw [hlp.2.2.2 hbm] at hrest
      exact (List.append_eq_nil_iff.1 hrest.symm.eq_nil).2
  exact ⟨rest', hspread.same rfl rfl⟩

variable [DecidableEq H] {kabi : ℕ} {hostOf : P → H} {uuid : H → List UInt8} {s0 s' : Cluster H P}
  {asked : CreateCall → Prop}

theorem Spread.step (hadm : ∀ c, asked c → c.Admitted devsize) (huuid : ∀ h h', pad 16 (uuid h) = pad 16 (uuid h') → h = h')
    (hsuper : famfsCheckSuper crc32 s0.sb = 0) (hunit : s0.sb.tsAllocUnit = FAMFS_ALLOC_UNIT)
    (hsize : s0.sb.tsDaxdevSize = devsize) (hdev : devsize < 2 ^ 51) (hN : bitmapNbits devsize FAMFS_ALLOC_UNIT = N)
    (hg : Guarded hostOf uuid s0.sb s) (ht : Told crc32 s0.logp s) (h : Spread crc32 devsize s L rest)
    (hstep : ClusterStep crc32 kabi hostOf uuid asked s s') (htorn : s.torn = 0) :
    ∃ (L' : Layout N) (rest' : List Seg), Spread crc32 devsize s' L' rest' := by
  cases hstep with
  | validate hpc _ => exact ⟨L, rest, h.goto nofun nofun⟩
  | getRole hpc _ => exact ⟨L, rest, h.goto nofun nofun⟩
  | @flock p sb hpc _ =>
    have hgoto : Spread crc32 devsize (s.goto p (.locked sb)) L rest :=
      h.goto nofun nofun
    exact ⟨L, rest, hgoto.same rfl rfl⟩
  | openSession mpt cfg hpc =>
    have hsb := hg.seen _ _ (by rw [hpc]; rfl)
    exact ⟨_, [], h.fresh (hg.alone huuid (by rw [hpc]; rfl)) ⟨by rw [hsb]; exact hsize, by rw [hsb]; exact hunit⟩ rfl⟩
  | alloc hpc hasked halloc => exact h.alloc (hg.alone huuid (by rw [hpc]; rfl)) hdev hN hpc (hadm _ hasked) halloc
  | mkdir hpc _ => exact ⟨L, rest, h.goto (fun lp hlp => by rw [hpc]; exact hlp) nofun⟩
  | notCreated hpc => exact ⟨L, rest, h.goto (fun lp hlp => by rw [hpc]; exact hlp) nofun⟩
  | @logEntry p lp c fmap r hpc hentry =>
    refine ⟨L, rest, ?_⟩
    cases r with
    | error rc => exact h.goto (fun lp hlp => by rw [hpc]; exact hlp) nofun
    | ok body =>
      refine h.goto (fun lp hlp => by rw [hpc]; exact hlp) fun f hf => ?_
      rw [hpc, ← entry_fmap hentry]
      exact hf
  | stamp hpc => exact ⟨L, rest, h.goto (fun lp hlp => by rw [hpc]; exact hlp) (fun f hf => by rw [hpc]; exact hf)⟩
  | @copy p lp e hpc =>
    have hstore := h.store (logSegs_copy s.logp e) (mapped_copy h.mapped e)
    have hpc' : (s.store (.entry s.logp.famfsLogNextIndex e)).pc p = .stamped lp e := hpc
    exact ⟨L, rest, hstore.goto (fun lp hlp => by rw [hpc']; exact hlp) (fun f hf => by rw [hpc']; exact hf)⟩
  | @countSeqnum p lp e hpc =>
    have hstore : Spread crc32 devsize (s.store (.nextSeqnum (s.logp.famfsLogNextSeqnum + 1))) L rest :=
      h.store rfl ⟨h.mapped.entry, h.mapped.maps, h.mapped.whole, h.mapped.len⟩
    have hpc' : (s.store (.nextSeqnum (s.logp.famfsLogNextSeqnum + 1))).pc p = .copied lp e := hpc
    exact ⟨L, rest, hstore.goto (fun lp hlp => by rw [hpc']; exact hlp) (fun f hf => by rw [hpc']; exact hf)⟩
  | @countIndex p lp e hpc =>
    have hw := ht.working p
    rw [hpc] at hw
    obtain ⟨-, ⟨b, rfl⟩, hentry, -⟩ := hw
    rw [htorn, Nat.add_zero] at hentry hpc ⊢
    obtain ⟨rest', hspread⟩ := h.count (hg.alone huuid (by rw [hpc]; rfl)) hpc hentry
    exact ⟨L, rest', hspread⟩
  | @exit p =>
    have hgoto : Spread crc32 devsize (s.goto p .idle) L rest :=
      h.goto nofun nofun
    exact ⟨L, rest, hgoto.same rfl rfl⟩
  | mkfsAllowed hpc _ => exact ⟨L, rest, h.goto nofun nofun⟩
  | @mkfs p n logLen host writable kill hpc =>
    have hgoto : Spread crc32 devsize (s.goto p .idle) L rest :=
      h.goto nofun nofun
    refine ⟨L, rest, hgoto.same ?_ rfl⟩
    rw [famfsMkfs_super (by rw [hg.super]; exact hsuper)]
    rfl

theorem spread_run {mkfsHost : MkfsHost} {u : List UInt8} {logLen : ℕ} (hadm : ∀ c, asked c → c.Admitted devsize)
    (huuid : ∀ h h', pad 16 (uuid h) = pad 16 (uuid h') → h = h') (hf : Formatted crc32 s0)
    (hmade : s0.sb = mkfsSuperblock crc32 mkfsHost u logLen devsize ∧ s0.logp = mkfsLog crc32 logLen)
    (hdev : 0 < devsize ∧ devsize < 2 ^ 30 * FAMFS_ALLOC_UNIT) (hlen : mkfsLogLenValid logLen) (h64 : logLen < 2 ^ 64)
    (hrun : ReflTransGen (ClusterStep crc32 kabi hostOf uuid asked) s0 s) (htorn : s.torn = 0) :
    ∃ (L : Layout (bitmapNbits devsize FAMFS_ALLOC_UNIT)) (rest : List Seg), Spread crc32 devsize s L rest := by
  have hdev' : 0 < devsize ∧ devsize < 2 ^ 51 := by
    simp only [FAMFS_ALLOC_UNIT] at hdev
    omega
  have hinv : (Guarded hostOf uuid s0.sb s ∧ Told crc32 s0.logp s) ∧ (s.torn = 0 →
      ∃ (L : Layout (bitmapNbits devsize FAMFS_ALLOC_UNIT)) (rest : List Seg), Spread crc32 devsize s L rest) := by
    refine Runs.invariant (P := fun s => (Guarded hostOf uuid s0.sb s ∧ Told crc32 s0.logp s) ∧ (s.torn = 0 →
      ∃ (L : Layout (bitmapNbits devsize FAMFS_ALLOC_UNIT)) (rest : List Seg), Spread crc32 devsize s L rest)) ?_ hrun
      ⟨⟨hf.guarded, hf.told⟩, fun _ => (spread_made hf hmade hdev' hlen h64).imp fun L hL => ⟨[], hL⟩⟩
    rintro a b ⟨⟨hg, ht⟩, hspread⟩ hstep
    refine ⟨⟨hg.step hf.super hstep, ht.step hf.super huuid hg hstep⟩, fun hb => ?_⟩
    have ha : a.torn = 0 := by
      have := (later_step hstep).torn
      omega
    obtain ⟨L, rest, hL⟩ := hspread ha
    exact hL.step hadm huuid hf.super (by rw [hmade.1]; rfl) (by rw [hmade.1]; rfl) hdev'.2 rfl hg ht hstep ha
  exact hinv.2 htorn

end

theorem disjoint_of_segs {logp : FamfsLog} {es : List FamfsSimpleExtent} (hes : ∀ e ∈ es, e.Whole)
    (hap : ((0, metaUnits logp) :: es.map FamfsSimpleExtent.units).Pairwise Seg.Apart) :
    es.Pairwise (fun a b => Disjoint a.bytes b.bytes) ∧
    ∀ e ∈ es, Disjoint e.bytes (Set.Ico 0 (FAMFS_SUPERBLOCK_SIZE + logp.famfsLogLen)) := by
  rw [List.pairwise_cons, List.pairwise_map] at hap
  refine ⟨?_, fun e he => ?_⟩
  · exact hap.2.imp_of_mem fun ha hb hab => disjoint_of_apart (hes _ ha) (hes _ hb) hab
  · have hoffset := (hes e he).offset
    have hpos := units_pos (hes e he)
    have hapart := hap.1 e.units (List.mem_map_of_mem he)
    have hcover := divUp_mul_ge (FAMFS_SUPERBLOCK_SIZE + logp.famfsLogLen) (show 0 < FAMFS_ALLOC_UNIT by decide)
    refine Set.disjoint_left.mpr fun x hx hy => ?_
    rcases (apart_iff (metaUnits_pos logp) hpos).mp hapart with hle | hle
    · simp only [FamfsSimpleExtent.bytes, FamfsSimpleExtent.units, Set.mem_Ico, metaUnits, FAMFS_ALLOC_UNIT] at *
      omega
    · simp only at hle
      omega

/-- No two files of the cluster share a byte. Over any interleaving of processes on any hosts, with
sessions one after another, creations that fail after their space was placed and processes that end
anywhere but between the two counter stores, the extents in the log and those of a creation that is under
way are apart from each other and from the superblock and the log. -/
theorem cluster_no_double_allocation {H P : Type} [DecidableEq H] [DecidableEq P] {crc32 : Crc32} {kabi : ℕ}
    {hostOf : P → H} {uuid : H → List UInt8} {s0 s : Cluster H P} {mkfsHost : MkfsHost} {u : List UInt8}
    {logLen devsize : ℕ} (huuid : ∀ h h', pad 16 (uuid h) = pad 16 (uuid h') → h = h') (hf : Formatted crc32 s0)
    (hmade : s0.sb = mkfsSuperblock crc32 mkfsHost u logLen devsize ∧ s0.logp = mkfsLog crc32 logLen)
    (hdev : 0 < devsize ∧ devsize < 2 ^ 30 * FAMFS_ALLOC_UNIT) (hlen : mkfsLogLenValid logLen) (h64 : logLen < 2 ^ 64)
    (hrun : ReflTransGen (ClusterStep crc32 kabi hostOf uuid (CreateCall.Admitted devsize)) s0 s) (htorn : s.torn = 0)
    (p : P) :
    (logExtents s.logp ++ ((s.pc p).fmap.map FamfsLogFmap.extents).getD []).Pairwise
      (fun a b => Disjoint a.bytes b.bytes) ∧
    ∀ e ∈ logExtents s.logp ++ ((s.pc p).fmap.map FamfsLogFmap.extents).getD [],
      Disjoint e.bytes (Set.Ico 0 (FAMFS_SUPERBLOCK_SIZE + s.logp.famfsLogLen)) := by
  obtain ⟨L, rest, hL⟩ := spread_run (fun _ hc => hc) huuid hf hmade hdev hlen h64 hrun htorn
  have hap := L.apart.perm hL.segs fun h => h.symm
  cases hfmap : (s.pc p).fmap with
  | none =>
    simp only [Option.map_none, Option.getD_none, List.append_nil]
    exact disjoint_of_segs hL.mapped.whole (List.pairwise_append.1 hap).1
  | some fmap =>
    obtain ⟨-, hwhole, rest', hrest⟩ := hL.pending p fmap hfmap
    simp only [Option.map_some, Option.getD_some]
    refine disjoint_of_segs (fun e he => ?_) ?_
    · rcases List.mem_append.1 he with he | he
      · exact hL.mapped.whole e he
      · exact hwhole e he
    · have hperm := hap.perm (List.Perm.append_left _ hrest) fun h => h.symm
      rw [← List.append_assoc] at hperm
      rw [List.map_append]
      exact (List.pairwise_append.1 hperm).1

def boxFile : CreateCall := .file ⟨true, true, id⟩ 1 ⟨0, 0, 0⟩ [102] 0o644 0 0

/-- What an allocation of one byte gives the session of the first host. -/
def boxAlloc (s : Cluster Bool Bool) (lp : FamfsLockedLog) : ℤ × Option FamfsLogFmap × FamfsLockedLog :=
  match famfsFileAlloc Crc32.update 43 ⟨true, true, id⟩ { lp with logp := s.logp, interleaveParam := ⟨0, 0, 0⟩ } 1 with
  | .ok r => r
  | .error _ => (-1, none, lp)

theorem boxAlloc_step {asked : CreateCall → Prop} (hasked : asked boxFile) {s : Cluster Bool Bool} {lp : FamfsLockedLog}
    (hpc : s.pc true = .session lp)
    (hok : (famfsFileAlloc Crc32.update 43 ⟨true, true, id⟩ { lp with logp := s.logp, interleaveParam := ⟨0, 0, 0⟩ } 1).isOk = true) :
    ClusterStep Crc32.update 43 id boxUuid asked s (s.goto true (afterAlloc boxFile (boxAlloc s lp))) := by
  refine .alloc hpc hasked ?_
  rw [boxAlloc]
  cases h : famfsFileAlloc Crc32.update 43 ⟨true, true, id⟩ { lp with logp := s.logp, interleaveParam := ⟨0, 0, 0⟩ } 1 with
  | ok r => rfl
  | error t =>
    rw [h] at hok
    cases hok

theorem afterAlloc_placed {c : CreateCall} {r : ℤ × Option FamfsLogFmap × FamfsLockedLog} (hrc : r.1 = 0)
    (hsome : r.2.1.isSome = true) : afterAlloc c r = .placed r.2.2 c (r.2.1.getD .zero) := by
  obtain ⟨rc, fmap, lp⟩ := r
  obtain ⟨f, rfl⟩ := Option.isSome_iff_exists.1 hsome
  obtain rfl : rc = 0 := hrc
  rfl

theorem boxFile_admitted : boxFile.Admitted mkfsMinDevsize := ⟨by decide, by decide, Or.inl rfl⟩

/-- The result of the first allocation, and the cluster once it is logged. -/
def boxFirst : ℤ × Option FamfsLogFmap × FamfsLockedLog := boxAlloc (boxOpen twoBoxes) (boxSession twoBoxes)

def boxLogged : Cluster Bool Bool :=
  { (boxOpen twoBoxes).goto true (.session boxFirst.2.2) with
    logp := famfsAppendLog Crc32.update twoBoxes.logp
      (newLogEntry (.fm (logFileMeta (boxFirst.2.1.getD .zero) [102] 0o644 0 0 1)))
    logged := [(.fm (logFileMeta (boxFirst.2.1.getD .zero) [102] 0o644 0 0 1), 0)] }

theorem boxLogged_run {asked : CreateCall → Prop} (hasked : asked boxFile) :
    ReflTransGen (ClusterStep Crc32.update 43 id boxUuid asked) twoBoxes boxLogged := by
  have hstep := boxAlloc_step hasked (s := boxOpen twoBoxes) rfl (by decide +kernel)
  rw [show boxAlloc (boxOpen twoBoxes) (boxSession twoBoxes) = boxFirst from rfl,
    afterAlloc_placed (by decide +kernel) (by decide +kernel)] at hstep
  have hentry : boxFile.entry twoBoxes.logp (boxFirst.2.1.getD .zero) =
      .ok (.ok (.fm (logFileMeta (boxFirst.2.1.getD .zero) [102] 0o644 0 0 1))) := by
    rw [boxFile, CreateCall.entry, if_neg (by decide +kernel), if_neg (by decide), if_neg (by decide +kernel)]
  have hrun := ((boxOpen_run (s := twoBoxes) rfl rfl rfl _).tail hstep).trans (append_alone (goto_self ..) hentry)
  have hlogged : boxLogged = { ((boxOpen twoBoxes).goto true (.placed boxFirst.2.2 boxFile (boxFirst.2.1.getD .zero))).goto true
      (.session boxFirst.2.2) with logp := boxLogged.logp, logged := boxLogged.logged } := by
    rw [goto_goto]
    rfl
  rw [hlogged]
  exact hrun

/-- A file in the log and one under way: two units next to each other. -/
theorem cluster_no_double_allocation_two_boxes :
    ∃ s fmap, ReflTransGen (ClusterStep Crc32.update 43 id boxUuid (CreateCall.Admitted mkfsMinDevsize)) twoBoxes s ∧
      s.torn = 0 ∧ logExtents s.logp = [unitExtent (5, 1)] ∧ (s.pc true).fmap = some fmap ∧
      fmap.extents = [unitExtent (6, 1)] ∧
      (logExtents s.logp ++ fmap.extents).Pairwise (fun a b => Disjoint a.bytes b.bytes) := by
  have hstep := boxAlloc_step boxFile_admitted (s := boxLogged) rfl (by decide +kernel)
  rw [afterAlloc_placed (by decide +kernel) (by decide +kernel)] at hstep
  have hrun := (boxLogged_run boxFile_admitted).tail hstep
  refine ⟨_, (boxAlloc boxLogged boxFirst.2.2).2.1.getD .zero, hrun, rfl, by decide +kernel, rfl, by decide +kernel, ?_⟩
  have hdisjoint := cluster_no_double_allocation boxUuid_distinct twoBoxes_formatted ⟨rfl, rfl⟩ (by decide) (by decide)
    (by decide) hrun rfl true
  exact hdisjoint.1

end Famfs

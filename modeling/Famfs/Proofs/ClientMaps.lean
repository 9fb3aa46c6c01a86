import Famfs.Proofs.ClusterSpace
import Famfs.Sanity.AllocMaps

/-! From the allocator of the master to the kernels of the clients. Every file entry that a run of the
cluster leaves in the log comes through the shadow file and the message to the kernel as the space that was
placed for it, so that no two files overlap on any client either. -/

namespace Famfs

open Machine Buffer Intervals Relation

/-- Requests in the range of their C types, with a chunk size that the message can carry. -/
def CreateCall.Representable : CreateCall → Prop
  | .file _ size param relpath mode uid gid => size < 2 ^ 64 ∧ mode < 2 ^ 32 ∧ uid < 2 ^ 32 ∧ gid < 2 ^ 32 ∧
      (0 : UInt8) ∉ relpath ∧ param.chunkSize < 2 ^ 32
  | .dir _ _ _ _ => True

def MasterPc.body : MasterPc → Option FamfsLogEntryBody
  | .append _ body => some body
  | .stamped _ e => some e.body
  | .copied _ e => some e.body
  | .counted _ e => some e.body
  | _ => none

section

variable {H P : Type}

/-- Of every map that is placed `R` holds, and of every entry made from one `Q`. -/
structure Entered (R : CreateCall → FamfsLogFmap → Prop) (Q : FamfsLogEntryBody → Prop) (s : Cluster H P) : Prop where
  placed : ∀ p lp c fmap, s.pc p = .placed lp c fmap → R c fmap
  body : ∀ p b, (s.pc p).body = some b → Q b
  logged : ∀ x ∈ s.logged, Q x.1

variable {R : CreateCall → FamfsLogFmap → Prop} {Q : FamfsLogEntryBody → Prop} {s s' : Cluster H P} {p : P}

theorem Entered.same (h : Entered R Q s) (hpc : s'.pc = s.pc) (hlogged : s'.logged = s.logged) : Entered R Q s' := by
  refine ⟨?_, ?_, ?_⟩
  all_goals simp only [hpc, hlogged]
  exacts [h.placed, h.body, h.logged]

theorem Formatted.entered {crc32 : Crc32} (hf : Formatted crc32 s) : Entered R Q s := by
  refine ⟨fun p lp c fmap h => ?_, fun p b h => ?_, fun x hx => ?_⟩
  · rw [hf.idle] at h
    cases h
  · rw [hf.idle] at h
    cases h
  · rw [hf.logged] at hx
    cases hx

theorem Entered.entries (h : Entered R Q s) {crc32 : Crc32} {logp0 : FamfsLog} (ht : Told crc32 logp0 s) (hempty : logp0.famfsLogNextIndex = 0)
    {i : ℕ} (hi : i < s.logp.famfsLogNextIndex) : Q (s.logp.entries i).body := by
  have hindex := ht.index
  have hlt : i < s.logged.length := by omega
  have hnew := ht.new i s.logged[i].1 s.logged[i].2 (List.getElem?_eq_getElem hlt)
  rw [hempty, Nat.zero_add] at hnew
  rw [hnew]
  exact h.logged s.logged[i] (List.getElem_mem hlt)

variable [DecidableEq P]

theorem Entered.goto (h : Entered R Q s) {pc : MasterPc} (hplaced : ∀ lp c fmap, pc = .placed lp c fmap → R c fmap)
    (hbody : ∀ b, pc.body = some b → Q b) : Entered R Q (s.goto p pc) := by
  refine ⟨fun q lp c fmap hq => ?_, fun q b hq => ?_, h.logged⟩
  · rw [goto_pc] at hq
    split_ifs at hq with heq
    · exact hplaced lp c fmap hq
    · exact h.placed q lp c fmap hq
  · rw [goto_pc] at hq
    split_ifs at hq with heq
    · exact hbody b hq
    · exact h.body q b hq

theorem Entered.leave (h : Entered R Q s) {pc : MasterPc} (hplaced : ∀ lp c fmap, pc ≠ .placed lp c fmap)
    (hbody : pc.body = none) : Entered R Q (s.goto p pc) := by
  refine h.goto (fun lp c fmap hpc => absurd hpc (hplaced lp c fmap)) fun b hb => ?_
  rw [hbody] at hb
  cases hb

theorem Entered.carry (h : Entered R Q s) {pc : MasterPc} (hplaced : ∀ lp c fmap, pc ≠ .placed lp c fmap)
    (hbody : pc.body = (s.pc p).body) : Entered R Q (s.goto p pc) := by
  refine h.goto (fun lp c fmap hpc => absurd hpc (hplaced lp c fmap)) fun b hb => h.body p b ?_
  rw [← hbody]
  exact hb

variable [DecidableEq H] {crc32 : Crc32} {kabi : ℕ} {hostOf : P → H} {uuid : H → List UInt8} {asked : CreateCall → Prop}

theorem Entered.step
    (halloc : ∀ {host size param relpath mode uid gid lp' fmap} (lp : FamfsLockedLog), asked (.file host size param relpath mode uid gid) →
      famfsFileAlloc crc32 kabi host { lp with interleaveParam := param } size = .ok (0, some fmap, lp') →
      R (.file host size param relpath mode uid gid) fmap)
    (hdir : ∀ {relpath mode uid gid}, asked (.dir relpath mode uid gid) → R (.dir relpath mode uid gid) .zero)
    (hentry : ∀ {c fmap logp b}, R c fmap → c.entry logp fmap = .ok (.ok b) → Q b)
    (h : Entered R Q s) (hstep : ClusterStep crc32 kabi hostOf uuid asked s s') : Entered R Q s' := by
  cases hstep with
  | validate hpc _ => exact h.leave (fun _ _ _ hpc => by cases hpc) rfl
  | getRole hpc _ => exact h.leave (fun _ _ _ hpc => by cases hpc) rfl
  | @flock p sb hpc _ =>
    have hgoto : Entered R Q (s.goto p (.locked sb)) := h.leave (fun _ _ _ hpc => by cases hpc) rfl
    exact hgoto.same rfl rfl
  | openSession mpt cfg hpc => exact h.leave (fun _ _ _ hpc => by cases hpc) rfl
  | @alloc p lp host size param relpath mode uid gid r hpc hasked hok =>
    obtain ⟨rc, fmap, lp'⟩ := r
    by_cases hrc : rc = 0
    · subst hrc
      cases fmap with
      | none => exact h.leave (fun _ _ _ hpc => by cases hpc) rfl
      | some fmap =>
        refine h.goto (fun lp1 c f hc => ?_) fun b hb => by cases hb
        cases hc
        exact halloc { lp with logp := s.logp } hasked hok
    · rw [afterAlloc_failed _ hrc]
      exact h.leave (fun _ _ _ hpc => by cases hpc) rfl
  | mkdir hpc hasked =>
    refine h.goto (fun lp1 c f hc => ?_) fun b hb => by cases hb
    cases hc
    exact hdir hasked
  | notCreated hpc => exact h.leave (fun _ _ _ hpc => by cases hpc) rfl
  | @logEntry p lp c fmap r hpc hmade =>
    cases r with
    | error rc => exact h.leave (fun _ _ _ hpc => by cases hpc) rfl
    | ok body =>
      refine h.goto (fun lp1 c f hc => by cases hc) fun b hb => ?_
      cases hb
      exact hentry (h.placed p lp c fmap hpc) hmade
  | stamp hpc => exact h.carry (fun _ _ _ hpc => by cases hpc) (by rw [hpc]; rfl)
  | @copy p lp e hpc =>
    have hgoto : Entered R Q (s.goto p (.copied lp e)) := h.carry (fun _ _ _ hpc => by cases hpc) (by rw [hpc]; rfl)
    exact hgoto.same rfl rfl
  | @countSeqnum p lp e hpc =>
    have hgoto : Entered R Q (s.goto p (.counted lp e)) := h.carry (fun _ _ _ hpc => by cases hpc) (by rw [hpc]; rfl)
    exact hgoto.same rfl rfl
  | @countIndex p lp e hpc =>
    have hgoto : Entered R Q (s.goto p (.session lp)) := h.leave (fun _ _ _ hpc => by cases hpc) rfl
    refine ⟨hgoto.placed, hgoto.body, fun x hx => ?_⟩
    rcases List.mem_append.1 hx with hx | hx
    · exact h.logged x hx
    · rw [List.mem_singleton.1 hx]
      exact h.body p e.body (by rw [hpc]; rfl)
  | @exit p =>
    have hgoto : Entered R Q (s.goto p .idle) := h.leave (fun _ _ _ hpc => by cases hpc) rfl
    exact hgoto.same rfl rfl
  | mkfsAllowed hpc _ => exact h.leave (fun _ _ _ hpc => by cases hpc) rfl
  | @mkfs p n logLen host writable kill hpc =>
    have hgoto : Entered R Q (s.goto p .idle) := h.leave (fun _ _ _ hpc => by cases hpc) rfl
    exact hgoto.same rfl rfl

end

/-- File entries that everything on the way to the kernel can carry. -/
structure FamfsLogFileMeta.Sendable (m : FamfsLogFileMeta) : Prop where
  issued : ∃ chunkSize < 2 ^ 32, m.fmFmap.Issued chunkSize
  fits : (FamfsLogEntryBody.fm m).Fits
  path : m.fmRelpath.length ≤ FAMFS_MAX_PATHLEN - 1

section

variable {m : FamfsLogFileMeta}

theorem shadowToStat_emitted (h : m.Sendable) (broken : Bool) (past : ℕ → ℕ) {fuel : ℕ} (hfuel : 100 ≤ fuel) :
    famfsShadowToStat fuel ⟨famfsEmitFileYaml m, broken⟩ past = some (.ok (m.shadowStat, m)) := by
  obtain ⟨chunkSize, -, hissued⟩ := h.issued
  have hsection := fileLoop_section broken past h.fits h.path hissued.mapped hfuel [.documentEnd, .streamEnd]
  rw [FamfsLogFileMeta.zero] at hsection
  simp only [famfsShadowToStat, famfsParseShadowYaml, startDocument, famfsEmitFileYaml, List.cons_append, List.nil_append,
    expectEvent, expectScalar, yamlParserParse, if_true, Option.bind_eq_bind, Option.bind_some, famfsParseFileYaml,
    FAMFS_MAX_SIMPLE_EXTENTS, hsection, ne_eq, not_true_eq_false, if_false, endDocument, Option.map_some]

theorem kernelFmap_congr {abi : FuseAbi} (habi : abi.Packed) {a b : Buf} {n : ℕ} (h : Agree a b 0 n)
    (hn : (if (kernelFmap abi b).extType = FAMFS_EXT_INTERLEAVE then 56 else 32) + 24 * (kernelFmap abi b).extents.length ≤ n) :
    kernelFmap abi a = kernelFmap abi b := by
  have hn' : 32 ≤ n := by
    split_ifs at hn <;> omega
  have h4 : load a 4 4 = load b 4 4 := load_congr (h.mono (by omega) (by omega))
  have h8 : load a 8 4 = load b 8 4 := load_congr (h.mono (by omega) (by omega))
  have h16 : load a 16 8 = load b 16 8 := load_congr (h.mono (by omega) (by omega))
  by_cases htype : load b 4 4 = FAMFS_EXT_INTERLEAVE
  · simp only [kernelFmap, habi.header, habi.iext, habi.simpleExt, Nat.reduceAdd, htype, if_true, List.length_map, List.length_range] at hn
    have h32 : load a 32 4 = load b 32 4 := load_congr (h.mono (by omega) (by omega))
    have h36 : load a 36 4 = load b 36 4 := load_congr (h.mono (by omega) (by omega))
    simp only [kernelFmap, habi.header, habi.iext, habi.simpleExt, Nat.reduceAdd, h4, h16, h32, h36, htype, if_true, FileMap.mk.injEq, true_and, and_true]
    refine List.map_congr_left fun j hj => kernelSimpleExt_congr (h.mono (by omega) ?_)
    have := List.mem_range.1 hj
    omega
  · simp only [kernelFmap, habi.header, habi.iext, habi.simpleExt, Nat.reduceAdd, htype, if_false, List.length_map, List.length_range] at hn
    simp only [kernelFmap, habi.header, habi.iext, habi.simpleExt, Nat.reduceAdd, h4, h8, h16, htype, if_false, FileMap.mk.injEq, true_and, and_true]
    refine List.map_congr_left fun j hj => kernelSimpleExt_congr (h.mono (by omega) ?_)
    have := List.mem_range.1 hj
    omega

theorem getFmap_sent {abi : FuseAbi} (habi : abi.Packed) (h : m.Sendable) (fileType : ℕ) :
    ∃ n msg, famfsGetFmap abi true fileType (some m) = .ok (.ok (n, msg)) ∧
      ∀ got, Agree got msg 0 n → kernelFmap abi got = m.fileMap := by
  obtain ⟨chunkSize, hchunk, hissued⟩ := h.issued
  have hcarried := hissued.carried hchunk
  have hfits := h.fits
  obtain ⟨hsize, -, -, -, -, -, -, -⟩ := hfits
  -- what is left is that the message is accepted, and how long it is
  suffices hsent : ∃ rc out, famfsLogFileMetaToMsg abi (fun _ => 0) FMAP_MSG_MAX fileType m = .ok (rc, out) ∧ 0 < rc ∧
      kernelFmap abi out = m.fileMap ∧
      (if m.fileMap.extType = FAMFS_EXT_INTERLEAVE then 56 else 32) + 24 * m.fileMap.extents.length ≤ rc.toNat by
    obtain ⟨rc, out, hsent, hrc, hmap, hlen⟩ := hsent
    refine ⟨rc.toNat, out, ?_, fun got hgot => ?_⟩
    · simp only [famfsGetFmap, hsent, Runs.ok_bind, Bool.true_eq_false, if_false, if_neg (not_le.2 hrc)]
    · rw [← hmap] at hlen ⊢
      exact kernelFmap_congr habi hgot hlen
  cases hissued with
  | contiguous htype hone hdev _ hwords =>
    have hsent : ∃ out, famfsLogFileMetaToMsg abi (fun _ => 0) FMAP_MSG_MAX fileType m = .ok (56, out) := by
      simp only [famfsLogFileMetaToMsg, simpleToMsg, htype, hone, FMAP_MSG_MAX, if_true, habi.header, habi.simpleExt]
      exact ⟨_, rfl⟩
    obtain ⟨out, hsent⟩ := hsent
    refine ⟨56, out, hsent, by norm_num, ?_, ?_⟩
    · refine simple_received habi hsize (fits_of_words hone (by rw [htype]; decide) hwords) htype (fun j hj => ?_) hsent (by norm_num)
      obtain rfl : j = 0 := by omega
      rw [hdev]
      norm_num
    · simp [FamfsLogFileMeta.fileMap, htype, hone, show FAMFS_EXT_SIMPLE ≠ FAMFS_EXT_INTERLEAVE by decide,
        FamfsLogFmap.extentRow]
  | striped htype hone hpos hmax _ hdev _ hwords =>
    have hmax' : m.fmFmap.ieNstrips 0 ≤ 16 := hmax
    have hn : u32 (m.fmFmap.ieNstrips 0) = m.fmFmap.ieNstrips 0 := u32_of_lt (by omega)
    have hcursor : u32 (56 + m.fmFmap.ieNstrips 0 * 24) = 56 + m.fmFmap.ieNstrips 0 * 24 := u32_of_lt (by omega)
    have hsent : ∃ out, famfsLogFileMetaToMsg abi (fun _ => 0) FMAP_MSG_MAX fileType m =
        .ok (((56 + m.fmFmap.ieNstrips 0 * 24 : ℕ) : ℤ), out) := by
      simp only [famfsLogFileMetaToMsg, htype, show FAMFS_EXT_INTERLEAVE ≠ FAMFS_EXT_SIMPLE by decide, if_true, if_false,
        hone, interleavedToMsg, habi.header, habi.iext, hn, show u32 (32 + 24) = 56 from rfl, show ¬ 1 ≤ 0 by omega, hcursor, FMAP_MSG_MAX,
        FAMFS_MAX_SIMPLE_EXTENTS]
      rw [if_neg (by omega), if_neg (by omega), if_neg (by omega), if_neg (by omega)]
      exact ⟨_, rfl⟩
    obtain ⟨out, hsent⟩ := hsent
    refine ⟨_, out, hsent, by omega, ?_, ?_⟩
    · obtain ⟨hchunk', -⟩ := hcarried htype
      rw [interleaved_received habi hsize (fits_of_words hone (by rw [htype]; decide) hwords) htype hone hmax hsent (by omega),
        u32_of_lt hchunk']
      simp only [FamfsLogFileMeta.fileMap, htype, if_true, FileMap.mk.injEq, true_and, and_true, FamfsLogFmap.extentRow,
        List.map_map]
      exact List.map_congr_left fun j _ => receivedStrip_eq_iff.2 (hdev j)
    · simp only [FamfsLogFileMeta.fileMap, htype, if_true, FamfsLogFmap.extentRow, List.length_map, List.length_range,
        Int.toNat_natCast]
      omega

end

def CreateCall.Placed (c : CreateCall) (fmap : FamfsLogFmap) : Prop :=
  c.Representable ∧ match c with
    | .file _ _ param _ _ _ _ => fmap.Issued param.chunkSize
    | .dir _ _ _ _ => True

theorem CreateCall.Placed.sendable {c : CreateCall} {fmap : FamfsLogFmap} {logp : FamfsLog} {b : FamfsLogEntryBody}
    (h : c.Placed fmap) (hentry : c.entry logp fmap = .ok (.ok b)) : ∀ m, b = .fm m → m.Sendable := by
  intro m hm
  subst hm
  cases c with
  | file host size param relpath mode uid gid =>
    obtain ⟨⟨hsize, hmode, huid, hgid, hnul, hchunk⟩, hissued⟩ := h
    simp only [CreateCall.entry] at hentry
    split_ifs at hentry
    · cases hentry
    · cases hentry
      have hlen : (copyRelpath relpath).length ≤ FAMFS_MAX_PATHLEN - 1 := List.length_take_le ..
      refine ⟨⟨param.chunkSize, hchunk, hissued⟩, ?_, hlen⟩
      have hflags : FAMFS_FM_ALL_HOSTS_RW < 2 ^ 32 := by decide
      refine .fm hsize hflags huid hgid hmode (hlen.trans (by decide)) ?_ hissued.fits
      exact fun hmem => hnul (List.mem_of_mem_take hmem)
  | dir relpath mode uid gid =>
    simp only [CreateCall.entry] at hentry
    split_ifs at hentry
    · cases hentry
    · cases hentry

theorem placed_of_alloc {crc32 : Crc32} {kabi devsize : ℕ} {host : AllocHost} {size : ℕ} {param : FamfsInterleaveParam}
    {relpath : CStr} {mode uid gid : ℕ} {lp' : FamfsLockedLog} {fmap : FamfsLogFmap} (lp : FamfsLockedLog)
    (hasked : (CreateCall.file host size param relpath mode uid gid).Admitted devsize ∧
      (CreateCall.file host size param relpath mode uid gid).Representable)
    (halloc : famfsFileAlloc crc32 kabi host { lp with interleaveParam := param } size = .ok (0, some fmap, lp')) :
    (CreateCall.file host size param relpath mode uid gid).Placed fmap := by
  obtain ⟨⟨-, -, hparam⟩, hrep⟩ := hasked
  have hchunk : param.chunkSize < 2 ^ 32 := hrep.2.2.2.2.2
  have hstrips : param.nstrips < 2 ^ 64 := by
    rcases hparam with rfl | ⟨-, hle⟩
    · norm_num
    · omega
  have hissued : fmap.Issued param.chunkSize := famfsFileAlloc_issued hstrips (by dsimp only; omega) halloc
  exact ⟨hrep, hissued⟩

theorem logExtents_pairwise {logp : FamfsLog} {r : FamfsSimpleExtent → FamfsSimpleExtent → Prop}
    (h : (logExtents logp).Pairwise r) {i j : ℕ} (hij : i < j) (hj : j < logp.famfsLogNextIndex) :
    ∀ a ∈ (logp.entries i).body.extents, ∀ b ∈ (logp.entries j).body.extents, r a b := by
  have hpairs := (List.pairwise_flatMap.1 h).2
  rw [List.pairwise_iff_getElem] at hpairs
  have hget := hpairs i j (by rw [List.length_range]; omega) (by rw [List.length_range]; exact hj) hij
  simp only [List.getElem_range] at hget
  exact hget

/-- Every client ends up with the space that the master placed. In any state of the cluster that was reached
without a torn counter, the attributes and the map of each file in the log come through the shadow file, the
cache and the message unchanged, whatever the kernel finds behind the end of the message; and as the kernels
have them, different files share no byte and none has one of the superblock or the log. -/
theorem client_maps_as_placed {H P : Type} [DecidableEq H] [DecidableEq P] {crc32 : Crc32} {kabi : ℕ}
    {hostOf : P → H} {uuid : H → List UInt8} {s0 s : Cluster H P} {mkfsHost : MkfsHost} {u : List UInt8}
    {logLen devsize : ℕ} {abi : FuseAbi} (habi : abi.Packed)
    (huuid : ∀ h h', pad 16 (uuid h) = pad 16 (uuid h') → h = h') (hf : Formatted crc32 s0)
    (hmade : s0.sb = mkfsSuperblock crc32 mkfsHost u logLen devsize ∧ s0.logp = mkfsLog crc32 logLen)
    (hdev : 0 < devsize ∧ devsize < 2 ^ 30 * FAMFS_ALLOC_UNIT) (hlen : mkfsLogLenValid logLen) (h64 : logLen < 2 ^ 64)
    (hrun : ReflTransGen (ClusterStep crc32 kabi hostOf uuid (fun c => c.Admitted devsize ∧ c.Representable)) s0 s)
    (htorn : s.torn = 0) (fileType : ℕ) (broken : Bool) (past : ℕ → ℕ) :
    (∀ i < s.logp.famfsLogNextIndex, ∀ m, (s.logp.entries i).body = .fm m →
      (∃ turns, ∀ fuel ≥ turns,
        famfsShadowToStat fuel ⟨famfsEmitFileYaml m, broken⟩ past = some (.ok (m.shadowStat, m))) ∧
      ∃ n msg, famfsGetFmap abi true fileType (some m) = .ok (.ok (n, msg)) ∧
        ∀ got, Agree got msg 0 n → kernelFmap abi got = m.fileMap) ∧
    (∀ j < s.logp.famfsLogNextIndex, ∀ m', (s.logp.entries j).body = .fm m' →
      (∀ i < j, ∀ m, (s.logp.entries i).body = .fm m →
        ∀ a ∈ m.fileMap.extents, ∀ b ∈ m'.fileMap.extents, Disjoint a.bytes b.bytes) ∧
      ∀ b ∈ m'.fileMap.extents, Disjoint b.bytes (Set.Ico 0 (FAMFS_SUPERBLOCK_SIZE + s.logp.famfsLogLen))) := by
  have hentered : Entered CreateCall.Placed (fun b => ∀ m, b = .fm m → m.Sendable) s :=
    Runs.invariant (P := Entered CreateCall.Placed (fun b => ∀ m, b = .fm m → m.Sendable))
      (fun _ _ h hs => h.step placed_of_alloc (fun _ => ⟨trivial, trivial⟩) CreateCall.Placed.sendable hs) hrun hf.entered
  have hempty : s0.logp.famfsLogNextIndex = 0 := by
    rw [hmade.2]
    rfl
  have hsend : ∀ i < s.logp.famfsLogNextIndex, ∀ m, (s.logp.entries i).body = .fm m → m.Sendable :=
    fun i hi m hm => hentered.entries (told_run huuid hf hrun).2 hempty hi m hm
  obtain ⟨L, rest, hL⟩ := spread_run (fun _ hc => hc.1) huuid hf hmade hdev hlen h64 hrun htorn
  obtain ⟨hpairs, hmeta⟩ := disjoint_of_segs hL.mapped.whole (List.pairwise_append.1 (L.apart.perm hL.segs fun h => h.symm)).1
  have hextents : ∀ i < s.logp.famfsLogNextIndex, ∀ m, (s.logp.entries i).body = .fm m →
      m.fileMap.extents = (s.logp.entries i).body.extents := by
    intro i hi m hm
    obtain ⟨chunkSize, -, hissued⟩ := (hsend i hi m hm).issued
    rw [hissued.fileMap_extents, hm]
    rfl
  refine ⟨fun i hi m hm => ⟨⟨100, fun fuel hfuel => shadowToStat_emitted (hsend i hi m hm) broken past hfuel⟩,
    getFmap_sent habi (hsend i hi m hm) fileType⟩, fun j hj m' hm' => ⟨fun i hij m hm a ha b hb => ?_, fun b hb => ?_⟩⟩
  · rw [hextents i (hij.trans hj) m hm] at ha
    rw [hextents j hj m' hm'] at hb
    exact logExtents_pairwise hpairs hij hj a ha b hb
  · rw [hextents j hj m' hm'] at hb
    exact hmeta b (List.mem_flatMap.2 ⟨j, List.mem_range.2 hj, hb⟩)

/-- The file that the first host logged, as a client has it. -/
theorem client_maps_as_placed_two_boxes :
    ∃ (m : FamfsLogFileMeta) (n : ℕ) (msg : Buf),
      ReflTransGen (ClusterStep Crc32.update 43 id boxUuid (fun c => c.Admitted mkfsMinDevsize ∧ c.Representable))
        twoBoxes boxLogged ∧ (boxLogged.logp.entries 0).body = .fm m ∧
      famfsGetFmap packedAbi true 1 (some m) = .ok (.ok (n, msg)) ∧
      kernelFmap packedAbi msg = ⟨1, FAMFS_EXT_SIMPLE, [unitExtent (5, 1)], none⟩ := by
  have hrep : boxFile.Representable := ⟨by decide, by decide, by decide, by decide, by decide, by decide⟩
  have hrun : ReflTransGen (ClusterStep Crc32.update 43 id boxUuid (fun c => c.Admitted mkfsMinDevsize ∧ c.Representable))
      twoBoxes boxLogged := boxLogged_run ⟨boxFile_admitted, hrep⟩
  obtain ⟨hmaps, -⟩ := client_maps_as_placed packedAbi_packed boxUuid_distinct twoBoxes_formatted ⟨rfl, rfl⟩ (by decide) (by decide)
    (by decide) hrun rfl 1 false (fun _ => 0)
  obtain ⟨-, n, msg, hget, hgot⟩ := hmaps 0 (by decide) _ rfl
  refine ⟨_, n, msg, hrun, rfl, hget, (hgot msg fun _ _ _ => rfl).trans ?_⟩
  decide +kernel

end Famfs

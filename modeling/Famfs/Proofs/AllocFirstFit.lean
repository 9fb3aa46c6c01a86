import Famfs.Proofs.AllocUndo

/-! Where the contiguous search ends. From the cursor on it is a first fit: it takes the lowest
run of clear bits that lies in the bitmap. What lies before the cursor it does not see, and in a
session without stripes the cursor never moves back. -/

namespace Famfs

open Machine Intervals
open Relation (ReflTransGen)

/-- A run of `n` clear bits in `[lo, hi)`, from bit `p`. -/
def ClearRun (bitmap : Bitmap) (lo hi n p : ℕ) : Prop :=
  lo ≤ p ∧ p + n ≤ hi ∧ ∀ b, Seg.Has (p, n) b → muBitmapTest bitmap b = false

section

variable {bitmap : Bitmap} {nbits au size curPos p : ℕ}

theorem ClearRun.candidate (hnb : nbits < 2 ^ 63) (hn : 0 < allocBits au size)
    (h : ClearRun bitmap (curPos / au) nbits (allocBits au size) p) : Candidate bitmap nbits au size curPos 0 p := by
  unfold Candidate
  generalize curPos / au = start at h ⊢
  obtain ⟨hlo, hhi, hclear⟩ := h
  refine ⟨by omega, hlo, hclear p ⟨le_rfl, by simp only; omega⟩, hclear, fun q hq hqp _ => ?_⟩
  rw [rangeBits, if_neg (not_not.2 rfl), sub64_of_le (by omega) (by omega)]
  omega

theorem first_isLeast (hnb : nbits < 2 ^ 63) (hn : 0 < allocBits au size) {q : ℕ}
    (hrun : ClearRun bitmap (curPos / au) nbits (allocBits au size) q) (hp : Candidate bitmap nbits au size curPos 0 p)
    (hmin : ∀ r, Candidate bitmap nbits au size curPos 0 r → p ≤ r) :
    IsLeast {r | ClearRun bitmap (curPos / au) nbits (allocBits au size) r} p := by
  have hle := hmin q (hrun.candidate hnb hn)
  have hend := hrun.2.1
  exact ⟨⟨hp.2.from_le, by omega, hp.2.run⟩, fun r hr => hmin r (hr.candidate hnb hn)⟩

theorem firstPlace_of_run {lp : FamfsLockedLog} {q : ℕ} (hnb : lp.nbits < 2 ^ 63) (hn : 0 < allocBits lp.allocUnit size)
    (hset : ∀ b, lp.curPos / lp.allocUnit ≤ b → b < q → muBitmapTest lp.bits b = true)
    (hrun : ClearRun lp.bits (lp.curPos / lp.allocUnit) lp.nbits (allocBits lp.allocUnit size) q) :
    FirstPlace lp size q := by
  refine ⟨hrun.candidate hnb hn, fun r hr => ?_⟩
  by_contra hlt
  have hclear := hr.2.clear
  rw [hset r hr.2.from_le (not_le.1 hlt)] at hclear
  exact Bool.noConfusion hclear

theorem allocBits_eq (h : size + au - 1 < 2 ^ 64) : allocBits au size = divUp size au := by
  rw [allocBits, u64_of_lt h, divUp]

/-- If a run of the size lies in the bitmap from the cursor on, the search takes the lowest one,
sets its bits and no others, and leaves the cursor at its end. -/
theorem contiguous_first_fit (hunit : UnitAdmitted au) (hnb : nbits < 2 ^ 31) (hbuf : nbits ≤ bitmap.bits)
    (h1 : 1 ≤ size) (h2 : size + au - 1 < 2 ^ 64)
    (hrun : ∃ q, ClearRun bitmap (curPos / au) nbits (divUp size au) q) :
    ∃ p bitmap', IsLeast {q | ClearRun bitmap (curPos / au) nbits (divUp size au) q} p ∧
      bitmapAllocContiguous bitmap nbits au size curPos 0 =
        (((p * au : ℕ) : ℤ), bitmap', (p + divUp size au) * au) ∧
      bitmap'.bits = bitmap.bits ∧
      ∀ b, muBitmapTest bitmap' b = (muBitmapTest bitmap b || decide (Seg.Has (p, divUp size au) b)) := by
  have hau := hunit.bounds
  have hn : 0 < allocBits au size := by
    rw [allocBits_eq h2]
    exact divUp_pos hau.1 h1
  rw [← allocBits_eq h2] at hrun ⊢
  obtain ⟨q, hq⟩ := hrun
  have hcand := hq.candidate (by omega) hn
  rcases bitmapAllocContiguous_cases bitmap nbits au size curPos 0 with ⟨hno, -⟩ | ⟨p, hp, hmin, heq⟩
  · exact absurd hcand (hno q)
  · have hleast := first_isLeast (by omega) hn hq hp hmin
    have hend := hleast.1.2.1
    have hbytes : (p + allocBits au size) * au ≤ 2 ^ 31 * 2 ^ 21 := Nat.mul_le_mul (by omega) hau.2
    have hstart : p * au ≤ 2 ^ 31 * 2 ^ 21 := Nat.mul_le_mul (by omega) hau.2
    refine ⟨p, setRun bitmap (allocBits au size) p, hleast, ?_, setRun_bits _ _ _, fun b => ?_⟩
    · rw [heq, s64_of_lt (by omega), u64_of_lt (by omega)]
    · rw [muBitmapTest_setRun _ _ _ _ (by omega)]
      congr 2
      refine propext (and_iff_left_of_imp fun hb => ?_)
      have := hb.2
      simp only at this
      omega

/-- Bits 0 to 4 and bit 6 are set: the hole at bit 5 is too small for two units. -/
theorem contiguous_first_fit_hole :
    (∃ q, ClearRun [0x5f#8, 0#8] 0 16 2 q) ∧
      ∃ p bitmap', IsLeast {q | ClearRun [0x5f#8, 0#8] 0 16 2 q} p ∧
        bitmapAllocContiguous [0x5f#8, 0#8] 16 4096 8192 0 0 = (((p * 4096 : ℕ) : ℤ), bitmap', (p + 2) * 4096) := by
  have hrun : ClearRun [0x5f#8, 0#8] 0 16 2 7 := by
    refine ⟨by decide, by decide, fun b hb => ?_⟩
    obtain ⟨h1, h2⟩ := hb
    simp only at h1 h2
    interval_cases b <;> decide
  have hfit : ∃ p bitmap', IsLeast {q | ClearRun [0x5f#8, 0#8] (0 / 4096) 16 (divUp 8192 4096) q} p ∧
      bitmapAllocContiguous [0x5f#8, 0#8] 16 4096 8192 0 0 =
        (((p * 4096 : ℕ) : ℤ), bitmap', (p + divUp 8192 4096) * 4096) ∧ _ :=
    contiguous_first_fit (Or.inl rfl) (by decide) (by decide) (by decide) (by decide) ⟨7, hrun⟩
  obtain ⟨p, bitmap', hleast, heq, -⟩ := hfit
  exact ⟨⟨7, hrun⟩, p, bitmap', hleast, heq⟩

end

/-- What happens in one session: calls of any size up to the device, and whatever is written to
the log between them. -/
inductive SessionStep (crc32 : Crc32) (kabi : ℕ) : FamfsLockedLog → FamfsLockedLog → Prop
  | call {lp lp' : FamfsLockedLog} {host : AllocHost} {size : ℕ} {rc : ℤ} {fmap : Option FamfsLogFmap}
      (h1 : 1 ≤ size) (h2 : size ≤ lp.devsize) (h : famfsFileAlloc crc32 kabi host lp size = .ok (rc, fmap, lp')) :
      SessionStep crc32 kabi lp lp'
  | log (lp : FamfsLockedLog) (logp : FamfsLog) : SessionStep crc32 kabi lp { lp with logp := logp }

/-- A session without stripes, whose bitmap, if it has one, covers the device. -/
structure Contiguous (lp : FamfsLockedLog) : Prop where
  plain : allocIsInterleaved lp = false
  nbits : lp.bitmap ≠ none → lp.nbits = bitmapNbits lp.devsize lp.allocUnit

/-- If the call runs out of space, no run of its size is clear anywhere in the bitmap. -/
def FailsOnlyFull (crc32 : Crc32) (kabi : ℕ) (host : AllocHost) (lp lp1 : FamfsLockedLog) (size : ℕ) : Prop :=
  ∀ fmap lp', famfsFileAlloc crc32 kabi host lp size = .ok (-ENOMEM, fmap, lp') →
    ∀ p, ¬ ClearRun lp1.bits 0 lp1.nbits (divUp size lp1.allocUnit) p

/-- The call cannot run, there is nothing to take, or the search meets a place at the cursor or
after it, at an offset that is positive as an `s64`. -/
def SeesRoom (host : AllocHost) (lp lp1 : FamfsLockedLog) (size : ℕ) : Prop :=
  host.fmapMem = false ∨ (lp.bitmap = none ∧ host.bitmapMem = false) ∨
    (∀ p, ¬ ClearRun lp1.bits 0 lp1.nbits (divUp size lp1.allocUnit) p) ∨
    ∃ p, Candidate lp1.bits lp1.nbits lp1.allocUnit size lp1.curPos 0 p ∧ p * lp1.allocUnit < 2 ^ 63

section

variable {crc32 : Crc32} {kabi : ℕ} {host : AllocHost} {lp0 lp lp1 lp' : FamfsLockedLog} {size : ℕ}

theorem Contiguous.built (h : Contiguous lp) (hsession : ensureBitmap crc32 lp = .ok lp1) :
    Contiguous lp1 ∧ lp1.nbits = bitmapNbits lp1.devsize lp1.allocUnit := by
  cases hb : lp.bitmap with
  | some bm =>
    simp only [ensureBitmap, hb] at hsession
    cases hsession
    exact ⟨h, h.nbits (by rw [hb]; exact Option.some_ne_none bm)⟩
  | none =>
    simp only [ensureBitmap, hb] at hsession
    rw [Runs.bind_eq_ok] at hsession
    obtain ⟨b, -, hret⟩ := hsession
    cases hret
    exact ⟨⟨h.plain, fun _ => rfl⟩, rfl⟩

theorem famfsFileAlloc_plain (hplain : allocIsInterleaved lp1 = false) (hsession : ensureBitmap crc32 lp = .ok lp1)
    (hmem : ¬ (lp.bitmap = none ∧ host.bitmapMem = false)) (size : ℕ) :
    famfsFileAlloc crc32 kabi host lp size = famfsFileAllocContiguous host lp1 size := by
  rw [famfsFileAlloc, if_neg hmem, hsession, Runs.ok_bind,
    if_neg (fun hk => by rw [hplain] at hk; exact Bool.false_ne_true hk.2), if_pos hplain]

theorem Contiguous.call (h : Contiguous lp) {rc : ℤ} {fmap : Option FamfsLogFmap}
    (hcall : famfsFileAlloc crc32 kabi host lp size = .ok (rc, fmap, lp')) : Contiguous lp' := by
  rw [famfsFileAlloc] at hcall
  split_ifs at hcall with hmem
  · cases hcall
    exact h
  · rw [Runs.bind_eq_ok] at hcall
    obtain ⟨lp1, hsession, hcall⟩ := hcall
    obtain ⟨h1, hnb⟩ := h.built hsession
    rw [if_neg (fun hk => by rw [h1.plain] at hk; exact Bool.false_ne_true hk.2), if_pos h1.plain] at hcall
    simp only [famfsFileAllocContiguous] at hcall
    split_ifs at hcall <;>
    · cases hcall
      exact ⟨h1.plain, fun _ => hnb⟩

theorem Contiguous.run (h : Contiguous lp0) (hrun : ReflTransGen (SessionStep crc32 kabi) lp0 lp) : Contiguous lp := by
  refine Runs.invariant (P := Contiguous) ?_ hrun h
  intro s t hs hstep
  cases hstep with
  | call _ _ hcall => exact hs.call hcall
  | log logp => exact ⟨hs.plain, hs.nbits⟩

theorem offset_lt {devsize au p : ℕ} (h : p < bitmapNbits devsize au) : p * au < 2 ^ 64 := by
  have hlast : (p + 1) * au ≤ u64 (devsize + au - 1) := (Nat.mul_le_mul_right _ h).trans (Nat.div_mul_le_self _ _)
  have hau : 0 < au := Nat.pos_of_ne_zero fun hzero => by
    rw [bitmapNbits, hzero, Nat.div_zero] at h
    omega
  have := u64_lt (devsize + au - 1)
  rw [Nat.add_mul] at hlast
  omega

theorem contiguous_enomem_iff (size : ℕ) (hmem : host.fmapMem = true) (hnb : lp.nbits = bitmapNbits lp.devsize lp.allocUnit) :
    (∃ fmap lp', famfsFileAllocContiguous host lp size = .ok (-ENOMEM, fmap, lp')) ↔
      ∀ p, Candidate lp.bits lp.nbits lp.allocUnit size lp.curPos 0 p → 2 ^ 63 ≤ p * lp.allocUnit := by
  rcases famfsFileAllocContiguous_cases hmem lp size with ⟨hno, heq⟩ | ⟨p, hp, heq⟩
  · exact iff_of_true ⟨_, _, heq⟩ fun p hp => absurd hp (hno p)
  · have hlt := offset_lt (hnb ▸ hp.1.1)
    rw [heq]
    by_cases hneg : 2 ^ 63 ≤ p * lp.allocUnit
    · rw [if_pos (by rw [s64, u64_of_lt hlt, if_neg (not_lt.2 hneg)]; omega)]
      exact iff_of_true ⟨_, _, rfl⟩ fun q hq => hneg.trans (Nat.mul_le_mul_right _ (hp.2 hq))
    · rw [s64_of_lt (not_le.1 hneg), if_neg (by omega)]
      refine iff_of_false ?_ fun hall => hneg (hall p hp.1)
      rintro ⟨fmap, lp', h⟩
      split_ifs at h
      cases h

/-- In a session without stripes, on any log and after any calls, running out of space means
that no run is left exactly when the search sees room if there is some. -/
theorem out_of_space_iff (hplain : allocIsInterleaved lp0 = false) (hnew : lp0.bitmap = none)
    (hrun : ReflTransGen (SessionStep crc32 kabi) lp0 lp) (hsession : ensureBitmap crc32 lp = .ok lp1) :
    FailsOnlyFull crc32 kabi host lp lp1 size ↔ SeesRoom host lp lp1 size := by
  have h0 : Contiguous lp0 := ⟨hplain, fun hbuilt => absurd hnew hbuilt⟩
  obtain ⟨h1, hnb⟩ := (h0.run hrun).built hsession
  unfold FailsOnlyFull SeesRoom
  by_cases hbm : lp.bitmap = none ∧ host.bitmapMem = false
  · refine iff_of_true (fun fmap lp' h => ?_) (Or.inr (Or.inl hbm))
    rw [famfsFileAlloc, if_pos hbm] at h
    cases h
  · rw [famfsFileAlloc_plain h1.plain hsession hbm]
    cases hmem : host.fmapMem with
    | false =>
      refine iff_of_true (fun fmap lp' h => ?_) (Or.inl rfl)
      rw [famfsFileAllocContiguous, if_pos hmem] at h
      cases h
    | true =>
      have hiff := contiguous_enomem_iff size hmem hnb
      constructor
      · intro honly
        by_cases hsee : ∃ p, Candidate lp1.bits lp1.nbits lp1.allocUnit size lp1.curPos 0 p ∧ p * lp1.allocUnit < 2 ^ 63
        · exact Or.inr (Or.inr (Or.inr hsee))
        · obtain ⟨fmap, lp', hfail⟩ := hiff.2 fun p hp => not_lt.1 fun hlt => hsee ⟨p, hp, hlt⟩
          exact Or.inr (Or.inr (Or.inl (honly fmap lp' hfail)))
      · rintro (hno | hno | hfull | ⟨p, hp, hlt⟩) fmap lp' hfail
        · exact Bool.noConfusion hno
        · exact absurd hno hbm
        · exact hfull
        · exact absurd (hiff.1 ⟨fmap, lp', hfail⟩ p hp) (not_le.2 hlt)

end

theorem addFile_session {lp : FamfsLockedLog} {size : ℕ} (hplain : lp.interleaveParam = ⟨0, 0, 0⟩) (h1 : 1 ≤ size)
    (h2 : size ≤ lp.devsize) : ReflTransGen (SessionStep Crc32.update 43) lp (addFile lp size) := by
  unfold addFile
  rw [← hplain]
  split
  · rename_i rc fmap lp1 hcall
    have hfirst := ReflTransGen.single (SessionStep.call h1 h2 hcall)
    split
    · split_ifs
      · exact hfirst.tail (SessionStep.log lp1 _)
      · exact ReflTransGen.refl
    · exact ReflTransGen.refl
  · exact ReflTransGen.refl

theorem ok_of_answer {r : Except Trap (ℤ × Option FamfsLogFmap × FamfsLockedLog)} {rc : ℤ} {bm : Bitmap}
    (h : answer r = .ok (rc, bm)) : ∃ fmap lp', r = .ok (rc, fmap, lp') := by
  rcases r with t | ⟨rc', fmap, lp'⟩
  · cases h
  · cases h
    exact ⟨fmap, lp', rfl⟩

def plainSession (devsize : ℕ) (logp : FamfsLog) : FamfsLockedLog :=
  famfsInitLockedLog 43 (mkfsSuperblock Crc32.update ⟨some [], [], []⟩ [] FAMFS_LOG_LEN devsize) logp .v1 [47, 109] none none

/-- A device of 16 units, five of which hold the superblock and the log, and a file that has
the others. -/
def filledSession : FamfsLockedLog :=
  addFile (plainSession (16 * FAMFS_ALLOC_UNIT) (mkfsLog Crc32.update FAMFS_LOG_LEN)) (11 * FAMFS_ALLOC_UNIT)

theorem ensureBitmap_built {crc32 : Crc32} {lp : FamfsLockedLog} (h : lp.bitmap.isSome = true) :
    ensureBitmap crc32 lp = .ok lp := by
  obtain ⟨bm, hbm⟩ := Option.isSome_iff_exists.mp h
  simp [ensureBitmap, hbm]

theorem out_of_space_iff_full :
    (∃ fmap lp', famfsFileAlloc Crc32.update 43 ⟨true, true, id⟩ filledSession 1 = .ok (-ENOMEM, fmap, lp')) ∧
      SeesRoom ⟨true, true, id⟩ filledSession filledSession 1 := by
  have hanswer : answer (famfsFileAlloc Crc32.update 43 ⟨true, true, id⟩ filledSession 1) =
      .ok (-ENOMEM, filledSession.bits) := by decide +kernel
  have hset : ∀ b < 16, muBitmapTest filledSession.bits b = true := by decide +kernel
  have hnbits : filledSession.nbits = 16 := by decide +kernel
  have hone : divUp 1 filledSession.allocUnit = 1 := by decide +kernel
  have hrun : ReflTransGen (SessionStep Crc32.update 43)
      (plainSession (16 * FAMFS_ALLOC_UNIT) (mkfsLog Crc32.update FAMFS_LOG_LEN)) filledSession :=
    addFile_session rfl (by decide) (by decide)
  refine ⟨ok_of_answer hanswer, (out_of_space_iff (by decide) rfl hrun (ensureBitmap_built (by decide +kernel))).mp ?_⟩
  rintro fmap lp' - p ⟨-, hend, hclear⟩
  rw [hnbits, hone] at hend
  rw [hone] at hclear
  have := hclear p ⟨le_rfl, Nat.lt_succ_self p⟩
  rw [hset p hend] at this
  exact Bool.noConfusion this

theorem ensureBitmap_scanned {crc32 : Crc32} {lp : FamfsLockedLog} {b : BuiltBitmap} (hnew : lp.bitmap = none)
    (hok : famfsBuildBitmap crc32 lp.logp lp.allocUnit lp.devsize = .ok b) :
    ensureBitmap crc32 lp = .ok { lp with
      bitmap := some b.bitmap, nbits := bitmapNbits lp.devsize lp.allocUnit, curPos := 0 } := by
  simp only [ensureBitmap, hnew, hok, Runs.ok_bind]
  rfl

/-- The session on the fresh device after a file of one unit is striped over four buckets, with
the second one first. -/
def stripedFile : FamfsLockedLog :=
  addFileWith ⟨true, true, fun i => if i = 1 then 0 else i⟩ ⟨4, 1, FAMFS_ALLOC_UNIT⟩ freshSession FAMFS_ALLOC_UNIT

/-- The start of a session on the device of 4 GiB where unit 512 is taken and the units around it
are not. -/
structure Holed (lp : FamfsLockedLog) : Prop where
  nbits : lp.nbits = 2048
  curPos : lp.curPos = 0
  unit : lp.allocUnit = FAMFS_ALLOC_UNIT
  taken : muBitmapTest lp.bits 512 = true
  before : muBitmapTest lp.bits 5 = false
  after : ∀ b, Seg.Has (513, 1535) b → muBitmapTest lp.bits b = false

theorem stripedFile_bits : muBitmapTest stripedFile.bits 512 = true ∧ muBitmapTest stripedFile.bits 5 = false ∧
    allClear stripedFile.bits 1535 513 = true := by
  decide +kernel

theorem stripedFile_fields : stripedFile.allocUnit = FAMFS_ALLOC_UNIT ∧ stripedFile.devsize = 2 ^ 32 ∧
    stripedFile.nbits = 2048 := by
  decide +kernel

theorem stripedFile_later :
    ∃ lp, ensureBitmap Crc32.update (plainSession (2 ^ 32) stripedFile.logp) = .ok lp ∧ Holed lp := by
  obtain ⟨bm, hbm⟩ : ∃ bm, stripedFile.bitmap = some bm := Option.isSome_iff_exists.mp (by decide +kernel)
  have hstep : AllocStep Crc32.update 43 freshSuper freshSession stripedFile :=
    addFileWith_step ⟨by decide, by decide, Or.inr (by decide)⟩ (by decide +kernel)
  obtain ⟨hnb, b, hok, -, hsame⟩ :=
    bitmap_refines_log freshSession_mkfs (by decide) (by decide) (by decide) (ReflTransGen.single hstep) hbm
  rw [stripedFile_fields.1, stripedFile_fields.2.1] at hok
  have hbuild := @ensureBitmap_scanned _ (plainSession (2 ^ 32) stripedFile.logp) _ rfl hok
  have hbits : stripedFile.bits = bm := by rw [FamfsLockedLog.bits, hbm, Option.getD_some]
  rw [stripedFile_fields.2.2] at hsame
  obtain ⟨htaken, hbefore, hafter⟩ := stripedFile_bits
  rw [hbits] at htaken hbefore hafter
  refine ⟨_, hbuild, (by decide : bitmapNbits (2 ^ 32) FAMFS_ALLOC_UNIT = 2048), rfl, rfl,
     (hsame 512 (by decide)).trans htaken, (hsame 5 (by decide)).trans hbefore, fun x hx => ?_⟩
  exact (hsame x (lt_of_lt_of_le hx.2 (by decide))).trans ((allClear_iff _ _ _).1 hafter x hx)

section

variable {lp : FamfsLockedLog} (h : Holed lp)

include h

theorem Holed.first : FirstPlace lp (1535 * FAMFS_ALLOC_UNIT) 513 := by
  have hn : allocBits FAMFS_ALLOC_UNIT (1535 * FAMFS_ALLOC_UNIT) = 1535 := by decide
  unfold FirstPlace
  rw [h.nbits, h.curPos, h.unit]
  constructor
  · apply ClearRun.candidate (by norm_num) (by rw [hn]; norm_num)
    rw [hn]
    exact ⟨Nat.zero_le _, by norm_num, h.after⟩
  · intro q hq
    by_contra hlt
    have hrun := hq.2.run 512
    rw [hn, h.taken] at hrun
    exact Bool.noConfusion (hrun ⟨by simp only; omega, by simp only; omega⟩)

theorem Holed.fills :
    ∃ fmap, famfsFileAllocContiguous ⟨true, true, id⟩ lp (1535 * FAMFS_ALLOC_UNIT) =
      .ok (0, some fmap, lp.taking (1535 * FAMFS_ALLOC_UNIT) 513) :=
  ⟨_, famfsFileAllocContiguous_first rfl h.first (by rw [h.unit]; decide)⟩

theorem Holed.full :
    ∃ lp', famfsFileAllocContiguous ⟨true, true, id⟩ (lp.taking (1535 * FAMFS_ALLOC_UNIT) 513) 1 =
      .ok (-ENOMEM, none, lp') := by
  have hpos : u64 ((513 + allocBits lp.allocUnit (1535 * FAMFS_ALLOC_UNIT)) * lp.allocUnit) / lp.allocUnit = 2048 := by
    rw [h.unit]
    decide
  rcases famfsFileAllocContiguous_cases (rfl : (⟨true, true, id⟩ : AllocHost).fmapMem = true) (lp.taking (1535 * FAMFS_ALLOC_UNIT) 513) 1
    with ⟨-, heq⟩ | ⟨p, hp, -⟩
  · exact ⟨_, heq⟩
  · have hlt : p < 2048 := lt_of_lt_of_eq hp.1.1 h.nbits
    have hge : 2048 ≤ p := hpos.symm.le.trans hp.1.2.from_le
    omega

theorem Holed.hole : ClearRun (lp.taking (1535 * FAMFS_ALLOC_UNIT) 513).bits 0 2048 (divUp 1 FAMFS_ALLOC_UNIT) 5 := by
  have hn : allocBits lp.allocUnit (1535 * FAMFS_ALLOC_UNIT) = 1535 := by
    rw [h.unit]
    decide
  refine ⟨Nat.zero_le 5, by decide, fun b hb => ?_⟩
  have hfive : b = 5 := by
    obtain ⟨hge, hlt⟩ := hb
    simp only [show divUp 1 FAMFS_ALLOC_UNIT = 1 by decide] at hge hlt
    omega
  have hbits : (lp.taking (1535 * FAMFS_ALLOC_UNIT) 513).bits = setRun lp.bits 1535 513 :=
    congrArg (setRun lp.bits · 513) hn
  rw [hbits, muBitmapTest_setRun _ _ _ _ (by norm_num), hfive, h.before]
  simp [Seg.Has]

end

/-- The striped file has unit 512 of 2048. In a later session a file of 1535 units does not fit
before it and takes the rest of the device, and then a call runs out of space with units before
it clear. -/
theorem room_before_cursor :
    logExtents stripedFile.logp = [unitExtent (512, 1)] ∧
    ∃ lp, ReflTransGen (SessionStep Crc32.update 43) (plainSession (2 ^ 32) stripedFile.logp) lp ∧
      ensureBitmap Crc32.update lp = .ok lp ∧
      (∃ fmap lp', famfsFileAlloc Crc32.update 43 ⟨true, true, id⟩ lp 1 = .ok (-ENOMEM, fmap, lp')) ∧
      ClearRun lp.bits 0 lp.nbits (divUp 1 lp.allocUnit) 5 := by
  obtain ⟨lp, hbuild, h⟩ := stripedFile_later
  obtain ⟨fmap, hfills⟩ := h.fills
  obtain ⟨lp', hfull⟩ := h.full
  have hfirst : Contiguous (plainSession (2 ^ 32) stripedFile.logp) := ⟨by decide, fun hbuilt => absurd rfl hbuilt⟩
  have hplain := (hfirst.built hbuild).1.plain
  have hcall : famfsFileAlloc Crc32.update 43 ⟨true, true, id⟩ (plainSession (2 ^ 32) stripedFile.logp)
      (1535 * FAMFS_ALLOC_UNIT) = _ := (famfsFileAlloc_plain hplain hbuild (by simp) _).trans hfills
  have hstep := SessionStep.call (by decide) (by decide) hcall
  refine ⟨by decide +kernel, lp.taking (1535 * FAMFS_ALLOC_UNIT) 513, ReflTransGen.single hstep, ensureBitmap_built rfl,
    ⟨none, lp', ?_⟩, ?_⟩
  · rw [famfsFileAlloc_plain (hfirst.call hcall).plain (ensureBitmap_built rfl) (by simp)]
    exact hfull
  · rw [show (lp.taking (1535 * FAMFS_ALLOC_UNIT) 513).nbits = 2048 from h.nbits,
      show (lp.taking (1535 * FAMFS_ALLOC_UNIT) 513).allocUnit = FAMFS_ALLOC_UNIT from h.unit]
    exact h.hole

end Famfs

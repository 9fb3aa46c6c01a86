import Famfs.Sanity.AllocLayout
import Famfs.Sanity.BitCount

/-! The scan of any log, for either unit. Entries that do not validate are passed over. Every
extent of the others is marked, and the counts of the scan are those of its marks. -/

namespace Famfs

open Machine Intervals

def FamfsSimpleExtent.unitsAt (au : ℕ) (e : FamfsSimpleExtent) : Seg := (e.seOffset / au, divUp e.seLen au)

def superUnits (au : ℕ) (logp : FamfsLog) : ℕ := divUp (FAMFS_SUPERBLOCK_SIZE + logp.famfsLogLen) au

def superExtent (logp : FamfsLog) : FamfsSimpleExtent := ⟨0, 0, FAMFS_SUPERBLOCK_SIZE + logp.famfsLogLen⟩

def entryValid (crc32 : Crc32) (logp : FamfsLog) (i : ℕ) : Prop :=
  famfsValidateLogEntry crc32 (fun _ => logp.entries i) i = 0

instance (crc32 : Crc32) (logp : FamfsLog) (i : ℕ) : Decidable (entryValid crc32 logp i) :=
  inferInstanceAs (Decidable (_ = _))

theorem entryValid.accepted {crc32 : Crc32} {logp : FamfsLog} {i : ℕ} (h : entryValid crc32 logp i) :
    ¬ famfsValidateLogEntry crc32 (fun _ => logp.entries i) i ≠ 0 := not_not.2 h

theorem entry_rejected {crc32 : Crc32} {logp : FamfsLog} {i : ℕ} (h : ¬ entryValid crc32 logp i) :
    famfsValidateLogEntry crc32 (fun _ => logp.entries i) i ≠ 0 := h

/-- The extents and strips of entry `i`, if it is a valid FILE entry. -/
def validExtents (crc32 : Crc32) (logp : FamfsLog) (i : ℕ) : List FamfsSimpleExtent :=
  if entryValid crc32 logp i then (logp.entries i).body.extents else []

def claimedExtents (crc32 : Crc32) (logp : FamfsLog) : List FamfsSimpleExtent :=
  (List.range logp.famfsLogNextIndex).flatMap (validExtents crc32 logp)

/-- Valid FILE entries have maps that fit their arrays, and extents that start at a unit and end
inside the device. -/
structure Scannable (crc32 : Crc32) (au devSize : ℕ) (logp : FamfsLog) : Prop where
  maps : ∀ i < logp.famfsLogNextIndex, entryValid crc32 logp i → ∀ m, (logp.entries i).body = .fm m → m.fmFmap.Bounded
  aligned : ∀ e ∈ claimedExtents crc32 logp, e.seOffset % au = 0
  inside : ∀ e ∈ claimedExtents crc32 logp, e.seOffset + e.seLen ≤ devSize

/-- What marking the segments `cs` does to the bitmap and, inside its buffer, to the counts. -/
structure Tallied (au : ℕ) (cs : List Seg) (b b' : BuiltBitmap) : Prop where
  bits : b'.bitmap.bits = b.bitmap.bits
  test : ∀ x, muBitmapTest b'.bitmap x = true ↔
    muBitmapTest b.bitmap x = true ∨ (Covers cs x ∧ x < b.bitmap.bits)
  small : b.errors < 2 ^ 64 ∧ b.allocSum < 2 ^ 64 → b'.errors < 2 ^ 64 ∧ b'.allocSum < 2 ^ 64
  errors : (∀ c ∈ cs, c.1 + c.2 ≤ b.bitmap.bits ∧ c.2 < 2 ^ 31) →
    Nat.ModEq (2 ^ 64) (b'.errors + newBits b.bitmap b'.bitmap) (b.errors + total cs)
  sum : (∀ c ∈ cs, c.1 + c.2 ≤ b.bitmap.bits ∧ c.2 < 2 ^ 31) →
    Nat.ModEq (2 ^ 64) b'.allocSum (b.allocSum + au * newBits b.bitmap b'.bitmap)

theorem Tallied.nil (au : ℕ) (b : BuiltBitmap) : Tallied au [] b b where
  bits := rfl
  test := by simp
  small := id
  errors := fun _ => by rw [newBits_self]; exact Nat.ModEq.refl _
  sum := fun _ => by rw [newBits_self]; exact Nat.ModEq.refl _

theorem Tallied.grows {au : ℕ} {cs : List Seg} {b b' : BuiltBitmap} (h : Tallied au cs b b') (x : ℕ)
    (hx : muBitmapTest b.bitmap x = true) : muBitmapTest b'.bitmap x = true := (h.test x).2 (Or.inl hx)

theorem Tallied.append {au : ℕ} {cs ds : List Seg} {a b c : BuiltBitmap} (h1 : Tallied au cs a b)
    (h2 : Tallied au ds b c) : Tallied au (cs ++ ds) a c where
  bits := h2.bits.trans h1.bits
  test := by
    intro x
    rw [h2.test, h1.test, h1.bits, covers_append]
    tauto
  small := fun h => h2.small (h1.small h)
  errors := by
    intro hin
    rw [List.forall_mem_append] at hin
    have he1 := h1.errors hin.1
    have he2 := h2.errors (by rw [h1.bits]; exact hin.2)
    have htotal : total (cs ++ ds) = total cs + total ds := by simp [total]
    rw [newBits_trans h1.grows h2.grows, htotal]
    calc c.errors + (newBits a.bitmap b.bitmap + newBits b.bitmap c.bitmap)
        = c.errors + newBits b.bitmap c.bitmap + newBits a.bitmap b.bitmap := by omega
      _ ≡ b.errors + total ds + newBits a.bitmap b.bitmap [MOD 2 ^ 64] := he2.add_right _
      _ = b.errors + newBits a.bitmap b.bitmap + total ds := by omega
      _ ≡ a.errors + total cs + total ds [MOD 2 ^ 64] := he1.add_right _
      _ = a.errors + (total cs + total ds) := Nat.add_assoc _ _ _
  sum := by
    intro hin
    rw [List.forall_mem_append] at hin
    have hs1 := h1.sum hin.1
    have hs2 := h2.sum (by rw [h1.bits]; exact hin.2)
    rw [newBits_trans h1.grows h2.grows, Nat.mul_add, ← Nat.add_assoc]
    exact hs2.trans (hs1.add_right _)

section

variable {crc32 : Crc32} {au devSize : ℕ} {logp : FamfsLog}

theorem addErrors_eq {errors rc : ℕ} (h : rc < 2 ^ 31) : addErrors errors rc = u64 (errors + rc) := by
  rw [addErrors, s32_of_lt h, u64]
  omega

theorem setExtentInBitmap_aligned (hunit : UnitAdmitted au) (bitmap : Bitmap) (allocSum : ℕ) {e : FamfsSimpleExtent}
    (hofs : e.seOffset % au = 0) (hlen : e.seLen + au ≤ 2 ^ 64) :
    setExtentInBitmap bitmap au e.seOffset e.seLen allocSum =
      .ok (setExtentLoop au (e.unitsAt au).2 (e.unitsAt au).1 ⟨0, bitmap, allocSum⟩) := by
  have hau := hunit.bounds.1
  rw [setExtentInBitmap, if_neg (hunit.not_misaligned hofs), u64_of_lt (by omega)]
  rfl

theorem markExtent_tallied (hunit : UnitAdmitted au) (b : BuiltBitmap) {e : FamfsSimpleExtent}
    (hofs : e.seOffset % au = 0) (hlen : e.seLen + au ≤ 2 ^ 64) :
    ∃ b', markExtent au b e = .ok b' ∧ Tallied au [e.unitsAt au] b b' := by
  simp only [markExtent, setExtentInBitmap_aligned hunit _ _ hofs hlen]
  refine ⟨_, rfl, by simp, ?_, ?_, ?_, ?_⟩
  · intro x
    simp only [muBitmapTest_setExtentLoop, Bool.or_eq_true, decide_eq_true_eq, covers_cons, covers_nil, or_false,
      Prod.mk.eta]
  · rintro ⟨-, hsum⟩
    refine ⟨?_, setExtentLoop_allocSum_lt hsum⟩
    simp only [addErrors]
    omega
  · intro hin
    obtain ⟨hbits, hfew⟩ := hin _ (List.mem_singleton_self _)
    have htally := (setExtentLoop_tally au (e.unitsAt au).2 (e.unitsAt au).1 ⟨0, b.bitmap, b.allocSum⟩ hbits).1
    have hone : total [e.unitsAt au] = (e.unitsAt au).2 := by simp [total]
    dsimp only at htally ⊢
    rw [Nat.zero_add] at htally
    rw [addErrors_eq (by omega), ← htally.trans hone.symm, ← Nat.add_assoc]
    exact (Nat.mod_modEq _ _).add_right _
  · intro hin
    exact (setExtentLoop_tally au (e.unitsAt au).2 (e.unitsAt au).1 ⟨0, b.bitmap, b.allocSum⟩
      (hin _ (List.mem_singleton_self _)).1).2

theorem markExtents_tallied (hunit : UnitAdmitted au) {es : List FamfsSimpleExtent}
    (hes : ∀ e ∈ es, e.seOffset % au = 0 ∧ e.seLen + au ≤ 2 ^ 64) (b : BuiltBitmap) :
    ∃ b', es.foldlM (markExtent au) b = .ok b' ∧ Tallied au (es.map (FamfsSimpleExtent.unitsAt au)) b b' := by
  have hstep : ∀ e ∈ es, ∀ b, ∃ b', markExtent au b e = .ok b' ∧ Tallied au [e.unitsAt au] b b' :=
    fun e he b => markExtent_tallied hunit b (hes e he).1 (hes e he).2
  rw [List.map_eq_flatMap]
  exact Runs.foldlM_composes (Tallied.nil au) Tallied.append hstep b

theorem Scannable.markedExtents (hs : Scannable crc32 au devSize logp) {i : ℕ} (hi : i < logp.famfsLogNextIndex) :
    markedExtents crc32 logp i = validExtents crc32 logp i := by
  rw [Famfs.markedExtents, validExtents]
  by_cases hv : entryValid crc32 logp i
  · rw [if_neg hv.accepted, if_pos hv]
    cases hb : (logp.entries i).body with
    | fm m => exact (hs.maps i hi hv m hb).scannedExtents _
    | md m => rfl
    | dd m => rfl
    | other t raw => rfl
  · rw [if_pos (entry_rejected hv), if_neg hv]

theorem buildEntry_tallied (hunit : UnitAdmitted au) (hs : Scannable crc32 au devSize logp) (hdev : devSize + au ≤ 2 ^ 64)
    {i : ℕ} (hi : i < logp.famfsLogNextIndex) (b : BuiltBitmap) :
    ∃ b', buildEntry crc32 au logp b i = .ok b' ∧
      Tallied au ((validExtents crc32 logp i).map (FamfsSimpleExtent.unitsAt au)) b b' := by
  have hes : ∀ e ∈ validExtents crc32 logp i, e.seOffset % au = 0 ∧ e.seLen + au ≤ 2 ^ 64 := fun e he => by
    have hmem : e ∈ claimedExtents crc32 logp := List.mem_flatMap.mpr ⟨i, List.mem_range.mpr hi, he⟩
    have := hs.inside e hmem
    exact ⟨hs.aligned e hmem, by omega⟩
  obtain ⟨fsizeSum, stats, hturn⟩ := buildEntry_marks crc32 au logp b i
  rw [hturn, hs.markedExtents hi]
  obtain ⟨b', hok, hmk⟩ := markExtents_tallied hunit hes ⟨b.bitmap, b.errors, fsizeSum, b.allocSum, stats⟩
  exact ⟨b', hok, hmk.bits, hmk.test, hmk.small, hmk.errors, hmk.sum⟩

theorem buildEntries_tallied (hunit : UnitAdmitted au) (hs : Scannable crc32 au devSize logp)
    (hdev : devSize + au ≤ 2 ^ 64) (b : BuiltBitmap) :
    ∃ b', (List.range logp.famfsLogNextIndex).foldlM (buildEntry crc32 au logp) b = .ok b' ∧
      Tallied au ((claimedExtents crc32 logp).map (FamfsSimpleExtent.unitsAt au)) b b' := by
  have hstep : ∀ i ∈ List.range logp.famfsLogNextIndex, ∀ b, ∃ b', buildEntry crc32 au logp b i = .ok b' ∧
      Tallied au ((validExtents crc32 logp i).map (FamfsSimpleExtent.unitsAt au)) b b' :=
    fun i hi b => buildEntry_tallied hunit hs hdev (List.mem_range.mp hi) b
  rw [claimedExtents, List.map_flatMap]
  exact Runs.foldlM_composes (Tallied.nil au) Tallied.append hstep b

/-- The marks that the scan starts with: the superblock and the log. -/
def superMarks (au nbits : ℕ) (logp : FamfsLog) : ExtentMarks :=
  setExtentLoop au (superUnits au logp) 0 ⟨0, emptyBitmap nbits, 0⟩

theorem setExtentInBitmap_super (hunit : UnitAdmitted au) (hlen : FAMFS_SUPERBLOCK_SIZE + logp.famfsLogLen + au ≤ 2 ^ 64)
    (nbits : ℕ) :
    setExtentInBitmap (emptyBitmap nbits) au 0 (u64 (FAMFS_SUPERBLOCK_SIZE + logp.famfsLogLen)) 0 =
      .ok (superMarks au nbits logp) := by
  have hau := hunit.bounds.1
  have haligned := setExtentInBitmap_aligned hunit (emptyBitmap nbits) 0
    (e := ⟨0, 0, FAMFS_SUPERBLOCK_SIZE + logp.famfsLogLen⟩) (Nat.zero_mod _) (by omega)
  rw [FamfsSimpleExtent.unitsAt, Nat.zero_div] at haligned
  rw [u64_of_lt (by omega)]
  exact haligned

@[simp] theorem superMarks_bits (au nbits : ℕ) (logp : FamfsLog) :
    (superMarks au nbits logp).bitmap.bits = (emptyBitmap nbits).bits := setExtentLoop_bits _ _ _ _

theorem superMarks_test (au nbits : ℕ) (logp : FamfsLog) (x : ℕ) :
    muBitmapTest (superMarks au nbits logp).bitmap x = true ↔
      Seg.Has (0, superUnits au logp) x ∧ x < (emptyBitmap nbits).bits := by
  rw [superMarks, muBitmapTest_setExtentLoop, muBitmapTest_empty, Bool.false_or, decide_eq_true_eq]

theorem famfsBuildBitmap_empty (hunit : UnitAdmitted au) (hlen : FAMFS_SUPERBLOCK_SIZE + logp.famfsLogLen + au ≤ 2 ^ 64)
    (hempty : logp.famfsLogNextIndex = 0) :
    ∃ b, famfsBuildBitmap crc32 logp au devSize = .ok b ∧ b.bitmap = (superMarks au (bitmapNbits devSize au) logp).bitmap := by
  refine ⟨⟨(superMarks au (bitmapNbits devSize au) logp).bitmap, 0, 0,
    (superMarks au (bitmapNbits devSize au) logp).allocSum, ⟨0, 0, 0, 0⟩⟩, ?_, rfl⟩
  rw [famfsBuildBitmap, if_neg hunit.bounds.1.ne', if_neg (hunit.not_misaligned (Nat.mod_self au)),
    setExtentInBitmap_super hunit hlen, Runs.ok_bind, hempty]
  rfl

theorem famfsBuildBitmap_tallied (hunit : UnitAdmitted au) (hs : Scannable crc32 au devSize logp)
    (hdev : devSize + au ≤ 2 ^ 64) (hlen : FAMFS_SUPERBLOCK_SIZE + logp.famfsLogLen + au ≤ 2 ^ 64) :
    ∃ b, famfsBuildBitmap crc32 logp au devSize = .ok b ∧
      Tallied au ((claimedExtents crc32 logp).map (FamfsSimpleExtent.unitsAt au))
        ⟨(superMarks au (bitmapNbits devSize au) logp).bitmap, 0, 0,
          (superMarks au (bitmapNbits devSize au) logp).allocSum, ⟨0, 0, 0, 0⟩⟩ b := by
  obtain ⟨b, hok, htally⟩ := buildEntries_tallied hunit hs hdev
    ⟨(superMarks au (bitmapNbits devSize au) logp).bitmap, 0, 0,
      (superMarks au (bitmapNbits devSize au) logp).allocSum, ⟨0, 0, 0, 0⟩⟩
  have hau := hunit.bounds.1
  refine ⟨b, ?_, htally⟩
  rw [famfsBuildBitmap, if_neg hau.ne', if_neg (hunit.not_misaligned (Nat.mod_self au)),
    setExtentInBitmap_super hunit hlen, Runs.ok_bind, hok]

end

end Famfs

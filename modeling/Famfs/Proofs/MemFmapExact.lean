import Famfs.Spec.MemFmap

/-! What `validate_mem_fmap` finds out about a map: of every list of extents it looks at the first
element only. -/

namespace Famfs

open Machine

def FmapSimpleExt.Right (e : FmapSimpleExt) : Prop := e.structTag = LOG_SIMPLE_EXT_TAG ∧ e.seDevindex = 0

/-- The map is right as far as one looks: the tags of the header and of the interleaved extents, the
arrays that there have to be, and of each list of simple extents or strips the places `looked`. -/
def FmapMemHeader.RightAt (looked : ℕ → Prop) (fm : FmapMemHeader) : Prop :=
  fm.structTag = LOG_HEADER_TAG ∧
    match fm.extents with
    | .simple se => ∃ a, se = some a ∧ ∀ i < fm.next, looked i → (a i).Right
    | .interleaved ie => ∀ i < fm.next, ∃ a, ie = some a ∧ (a i).structTag = LOG_IEXT_TAG ∧
        ∀ j < (a i).ieNstrips, ∃ strips, (a i).se = some strips ∧ (looked j → (strips j).Right)
    | .other _ => True

def FmapMemHeader.Right (fm : FmapMemHeader) : Prop := fm.RightAt fun _ => True

theorem FmapMemHeader.RightAt.mono {p q : ℕ → Prop} (hpq : ∀ i, q i → p i) {fm : FmapMemHeader} (h : fm.RightAt p) :
    fm.RightAt q := by
  obtain ⟨tag, next, extents⟩ := fm
  obtain ⟨htag, hrest⟩ := h
  refine ⟨htag, ?_⟩
  cases extents with
  | simple se =>
    obtain ⟨a, hse, hall⟩ := hrest
    exact ⟨a, hse, fun i hi hq => hall i hi (hpq i hq)⟩
  | interleaved ie =>
    intro i hi
    obtain ⟨a, hie, hiext, hstrips⟩ := hrest i hi
    refine ⟨a, hie, hiext, fun j hj => ?_⟩
    obtain ⟨strips, hse, hright⟩ := hstrips j hj
    exact ⟨strips, hse, fun hq => hright (hpq j hq)⟩
  | other t => trivial

section

variable {se : Option (ℕ → FmapSimpleExt)} {ie : Option (ℕ → FmapMemIext)} {fm : FmapMemHeader} {n i : ℕ}
  {enforce : Bool} {rc : ℤ}

theorem simpleExtTurn_zero :
    simpleExtTurn se enforce i = .ok 0 ↔ ∃ a, se = some a ∧ (enforce = true → (a 0).Right) := by
  cases se with
  | none => simp [simpleExtTurn, loadElem]
  | some a =>
    cases enforce with
    | false => exact iff_of_true rfl ⟨a, rfl, fun h => by cases h⟩
    | true =>
      simp only [simpleExtTurn, loadElem, Runs.ok_bind, true_and, FmapSimpleExt.Right, Option.some.injEq, exists_eq_left',
        forall_const]
      by_cases htag : (a 0).structTag = LOG_SIMPLE_EXT_TAG
      · by_cases hdev : (a 0).seDevindex = 0
        · rw [if_neg (not_not.2 htag), if_neg (not_not.2 hdev)]
          exact iff_of_true rfl ⟨htag, hdev⟩
        · rw [if_neg (not_not.2 htag), if_pos hdev]
          exact iff_of_false (by decide) fun h => hdev h.2
      · rw [if_pos htag]
        exact iff_of_false (by decide) fun h => htag h.1

theorem validateSimpleExtlist_zero : validateSimpleExtlist se n enforce = .ok 0 ↔
    ∀ j < n, ∃ a, se = some a ∧ (enforce = true → j = 0 → (a j).Right) := by
  rw [validateSimpleExtlist, Runs.firstNonzero_eq_zero]
  simp only [List.mem_range, simpleExtTurn_zero]
  constructor
  · intro h j hj
    obtain ⟨a, hse, hright⟩ := h j hj
    refine ⟨a, hse, ?_⟩
    rintro henforce rfl
    exact hright henforce
  · intro h j hj
    obtain ⟨a, hse, hright⟩ := h 0 (Nat.zero_lt_of_lt hj)
    exact ⟨a, hse, fun henforce => hright henforce rfl⟩

theorem interleavedExtTurn_zero : interleavedExtTurn ie enforce i = .ok 0 ↔
    ∃ a, ie = some a ∧ (enforce = true → (a i).structTag = LOG_IEXT_TAG) ∧
      ∀ j < (a i).ieNstrips, ∃ strips, (a i).se = some strips ∧ (enforce = true → j = 0 → (strips j).Right) := by
  cases ie with
  | none => simp [interleavedExtTurn, loadElem]
  | some a =>
    simp only [interleavedExtTurn, loadElem, Runs.ok_bind, Option.some.injEq, exists_eq_left']
    split_ifs with hwrong
    · exact iff_of_false (by decide) fun h => hwrong.2 (h.1 hwrong.1)
    · rw [validateSimpleExtlist_zero, iff_and_self]
      exact fun _ henforce => not_not.1 fun htag => hwrong ⟨henforce, htag⟩

theorem validateInterleaved_zero :
    Runs.firstNonzero (fun _ => if ie.isNone then .ok (-1) else validateInterleavedExtlist ie n enforce)
        (List.range n) = .ok 0 ↔ ∀ i < n, interleavedExtTurn ie enforce i = .ok 0 := by
  rw [Runs.firstNonzero_eq_zero]
  simp only [List.mem_range, validateInterleavedExtlist]
  cases ie with
  | none =>
    refine forall₂_congr fun i _ => iff_of_false ?_ ?_
    · simp
    · simp [interleavedExtTurn, loadElem]
  | some a =>
    simp only [Option.isNone_some, Bool.false_eq_true, if_false, Runs.firstNonzero_eq_zero, List.mem_range]
    exact ⟨fun h i hi => h i hi i hi, fun h _ _ => h⟩

theorem validateMemFmap_zero : validateMemFmap (some fm) true = .ok 0 ↔ fm.RightAt (· = 0) := by
  obtain ⟨tag, next, extents⟩ := fm
  simp only [validateMemFmap, FmapMemHeader.RightAt]
  by_cases htag : tag = LOG_HEADER_TAG
  · rw [if_neg (not_not.2 htag), and_iff_right htag]
    cases extents with
    | simple se =>
      cases se with
      | none => simp
      | some a => simp [validateSimpleExtlist_zero]
    | interleaved ie =>
      simp only [validateInterleaved_zero, interleavedExtTurn_zero, forall_const]
    | other t => simp
  · rw [if_pos htag]
    exact iff_of_false (by decide) fun h => htag h.1

end

/-- Validation tells right maps from others unless only elements behind the first one of their list
are wrong. -/
theorem mem_fmap_exact_iff (fm : FmapMemHeader) :
    (validateMemFmap (some fm) true = .ok 0 ↔ fm.Right) ↔ (fm.RightAt (· = 0) → fm.Right) := by
  rw [validateMemFmap_zero]
  exact ⟨Iff.mp, fun h => ⟨h, fun hright => hright.mono fun _ _ => trivial⟩⟩

/-- The second of two extents is on device 1, and so is the second of two strips. -/
theorem mem_fmap_second_wrong :
    let second : ℕ → FmapSimpleExt := fun i => ⟨LOG_SIMPLE_EXT_TAG, i⟩
    let simple : FmapMemHeader := ⟨LOG_HEADER_TAG, 2, .simple (some second)⟩
    let striped : FmapMemHeader := ⟨LOG_HEADER_TAG, 1, .interleaved (some fun _ => ⟨LOG_IEXT_TAG, 2, some second⟩)⟩
    (validateMemFmap (some simple) true = .ok 0 ∧ ¬ simple.Right) ∧
      validateMemFmap (some striped) true = .ok 0 ∧ ¬ striped.Right := by
  refine ⟨⟨rfl, ?_⟩, rfl, ?_⟩
  · rintro ⟨-, a, ha, hright⟩
    cases ha
    exact absurd (hright 1 (by decide) trivial).2 (by decide)
  · rintro ⟨-, hright⟩
    obtain ⟨a, ha, -, hstrips⟩ := hright 0 (by decide)
    cases ha
    obtain ⟨strips, hse, hstrip⟩ := hstrips 1 (by decide)
    cases hse
    exact absurd (hstrip trivial).2 (by decide)

section

variable {se : Option (ℕ → FmapSimpleExt)} {a : ℕ → FmapMemIext} {fm : FmapMemHeader} {mem : FmapMem} {n i : ℕ} {rc : ℤ}

theorem FmapMemHeader.Right.accepted (h : fm.Right) : validateMemFmap (some fm) true = .ok 0 :=
  validateMemFmap_zero.2 (h.mono fun _ _ => trivial)

end

end Famfs

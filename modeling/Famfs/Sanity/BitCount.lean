import Famfs.Sanity.AllocBits

/-! How many bits are set. Marking an extent counts an error for every bit it finds set, and a
unit of space for every other; the bits it sets are the difference. -/

namespace Famfs

open Machine Intervals

/-- How many bits are set in `after` and were not in `before`. -/
noncomputable def newBits (before after : Bitmap) : ℕ :=
  Set.ncard {b | muBitmapTest before b = false ∧ muBitmapTest after b = true}

noncomputable def setBits (bitmap : Bitmap) : ℕ := Set.ncard {b | muBitmapTest bitmap b = true}

theorem finite_set (bitmap : Bitmap) : {b | muBitmapTest bitmap b = true}.Finite :=
  (Set.finite_lt_nat bitmap.bits).subset fun b hb => by
    by_contra hge
    have hset : muBitmapTest bitmap b = true := hb
    rw [muBitmapTest_past (not_lt.1 hge)] at hset
    exact Bool.noConfusion hset

theorem newBits_trans {x y z : Bitmap} (hxy : ∀ b, muBitmapTest x b = true → muBitmapTest y b = true)
    (hyz : ∀ b, muBitmapTest y b = true → muBitmapTest z b = true) : newBits x z = newBits x y + newBits y z := by
  have hsplit : {b | muBitmapTest x b = false ∧ muBitmapTest z b = true} =
      {b | muBitmapTest x b = false ∧ muBitmapTest y b = true} ∪ {b | muBitmapTest y b = false ∧ muBitmapTest z b = true} := by
    ext b
    constructor
    · rintro ⟨hx, hz⟩
      cases hy : muBitmapTest y b with
      | true => exact Or.inl ⟨hx, hy⟩
      | false => exact Or.inr ⟨hy, hz⟩
    · rintro (⟨hx, hy⟩ | ⟨hy, hz⟩)
      · exact ⟨hx, hyz b hy⟩
      · refine ⟨?_, hz⟩
        cases hx : muBitmapTest x b with
        | true => exact absurd (hxy b hx) (by rw [hy]; exact Bool.false_ne_true)
        | false => rfl
  have hdisj : Disjoint {b | muBitmapTest x b = false ∧ muBitmapTest y b = true}
      {b | muBitmapTest y b = false ∧ muBitmapTest z b = true} := by
    rw [Set.disjoint_left]
    rintro b ⟨-, h1⟩ ⟨h2, -⟩
    rw [h1] at h2
    exact Bool.noConfusion h2
  rw [newBits, newBits, newBits, hsplit]
  exact Set.ncard_union_eq hdisj ((finite_set y).subset fun b hb => hb.2) ((finite_set z).subset fun b hb => hb.2)

theorem setBits_le {bitmap : Bitmap} (m : ℕ) (h : ∀ b, muBitmapTest bitmap b = true → b < m) : setBits bitmap ≤ m := by
  calc setBits bitmap ≤ (Set.Iio m).ncard := Set.ncard_le_ncard (fun b hb => h b hb) (Set.finite_Iio _)
    _ = m := by rw [Set.ncard_eq_toFinset_card', Set.toFinset_Iio, Nat.card_Iio]

theorem newBits_le {before after : Bitmap} (m : ℕ)
    (h : ∀ b, muBitmapTest before b = false → muBitmapTest after b = true → b < m) : newBits before after ≤ m := by
  calc newBits before after ≤ (Set.Iio m).ncard :=
        Set.ncard_le_ncard (fun b hb => h b hb.1 hb.2) (Set.finite_Iio _)
    _ = m := by rw [Set.ncard_eq_toFinset_card', Set.toFinset_Iio, Nat.card_Iio]

theorem newBits_self (bitmap : Bitmap) : newBits bitmap bitmap = 0 := by
  have hnone : {b | muBitmapTest bitmap b = false ∧ muBitmapTest bitmap b = true} = ∅ := by
    ext b
    simp
  rw [newBits, hnone, Set.ncard_empty]

theorem newBits_testAndSet {bitmap : Bitmap} {k : ℕ} (hclear : muBitmapTest bitmap k = false) (hk : k < bitmap.bits) :
    newBits bitmap (muBitmapTestAndSet bitmap k).2 = 1 := by
  have hone : {b | muBitmapTest bitmap b = false ∧ muBitmapTest (muBitmapTestAndSet bitmap k).2 b = true} = {k} := by
    ext b
    simp only [muBitmapTest_testAndSet, hk, and_true, Bool.or_eq_true, decide_eq_true_eq, Set.mem_ofPred_eq,
      Set.mem_singleton_iff]
    constructor
    · rintro ⟨hfree, hset | heq⟩
      · rw [hfree] at hset
        exact Bool.noConfusion hset
      · exact heq
    · rintro rfl
      exact ⟨hclear, Or.inr rfl⟩
  rw [newBits, hone, Set.ncard_singleton]

theorem setExtentLoop_tally (au np k : ℕ) (m : ExtentMarks) (hin : k + np ≤ m.bitmap.bits) :
    (setExtentLoop au np k m).errors + newBits m.bitmap (setExtentLoop au np k m).bitmap = m.errors + np ∧
      Nat.ModEq (2 ^ 64) (setExtentLoop au np k m).allocSum
        (m.allocSum + au * newBits m.bitmap (setExtentLoop au np k m).bitmap) := by
  induction np generalizing k m with
  | zero => exact ⟨by rw [setExtentLoop, newBits_self], by rw [setExtentLoop, newBits_self]; exact Nat.ModEq.refl _⟩
  | succ np ih =>
    have hgrow : ∀ b, muBitmapTest m.bitmap b = true → muBitmapTest (muBitmapTestAndSet m.bitmap k).2 b = true := by
      intro b hb
      rw [muBitmapTest_testAndSet, hb, Bool.true_or]
    have hrest : ∀ m1 : ExtentMarks, m1.bitmap = (muBitmapTestAndSet m.bitmap k).2 →
        newBits m.bitmap (setExtentLoop au np (k + 1) m1).bitmap =
          newBits m.bitmap m1.bitmap + newBits m1.bitmap (setExtentLoop au np (k + 1) m1).bitmap := by
      intro m1 hm1
      refine newBits_trans (hm1 ▸ hgrow) fun b hb => ?_
      rw [muBitmapTest_setExtentLoop, hb, Bool.true_or]
    simp only [setExtentLoop, muBitmapTestAndSet_fst]
    cases hbit : muBitmapTest m.bitmap k with
    | true =>
      have hsame : (muBitmapTestAndSet m.bitmap k).2 = m.bitmap := by rw [muBitmapTestAndSet, hbit, if_pos rfl]
      simp only [Bool.not_true, Bool.false_eq_true, if_false, hsame]
      obtain ⟨herr, hsum⟩ := ih (k + 1) { m with bitmap := m.bitmap, errors := m.errors + 1 } (by simpa using by omega)
      exact ⟨by simp only at herr; omega, hsum⟩
    | false =>
      simp only [Bool.not_false, if_true]
      obtain ⟨herr, hsum⟩ := ih (k + 1)
        { m with bitmap := (muBitmapTestAndSet m.bitmap k).2, allocSum := u64 (m.allocSum + au) }
        (by simpa using by omega)
      rw [hrest _ rfl, newBits_testAndSet hbit (by omega)]
      simp only at herr hsum ⊢
      refine ⟨by omega, hsum.trans ?_⟩
      simp only [Nat.mul_add, Nat.mul_one, ← Nat.add_assoc]
      exact Nat.ModEq.add_right _ (Nat.mod_modEq _ _)

theorem setExtentLoop_allocSum_lt {au np k : ℕ} {m : ExtentMarks} (h : m.allocSum < 2 ^ 64) :
    (setExtentLoop au np k m).allocSum < 2 ^ 64 := by
  induction np generalizing k m with
  | zero => exact h
  | succ np ih =>
    rw [setExtentLoop]
    apply ih
    split
    · exact u64_lt _
    · exact h

end Famfs

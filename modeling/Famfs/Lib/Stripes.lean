import Mathlib.Tactic

/-! Bytes laid out in stripes of `k` strips by chunks of `c` bytes. A byte is found by its
stripe, its strip and its place in the chunk; which bytes come first is then decided by the
stripe, the strip and the place, in this order. -/

namespace Stripes

variable {c k : ℕ}

/-- The strip that byte `o` goes to. -/
def strip (c k o : ℕ) : ℕ := o / c % k

/-- The place of byte `o` in its strip. -/
def offset (c k o : ℕ) : ℕ := o / c / k * c + o % c

/-- Bytes of a strip that a file of `size` bytes takes. -/
def used (c k size j : ℕ) : ℕ := size / (k * c) * c + min c (size % (k * c) - j * c)

theorem strip_lt (c : ℕ) (hk : 0 < k) (o : ℕ) : strip c k o < k := Nat.mod_lt _ hk

theorem digits_div {d r t : ℕ} (ht : t < d) : (r * d + t) / d = r := by
  rw [Nat.add_comm, Nat.add_mul_div_right _ _ (Nat.zero_lt_of_lt ht), Nat.div_eq_of_lt ht, Nat.zero_add]

theorem digits_lt_iff {d r t q u : ℕ} (ht : t < d) (hu : u ≤ d) : r * d + t < q * d + u ↔ r < q ∨ (r = q ∧ t < u) := by
  rcases Nat.lt_trichotomy r q with h | rfl | h
  · have := Nat.mul_le_mul_right d (Nat.succ_le_of_lt h)
    rw [Nat.succ_mul] at this
    exact iff_of_true (by omega) (Or.inl h)
  · rw [Nat.add_lt_add_iff_left]
    simp
  · have := Nat.mul_le_mul_right d (Nat.succ_le_of_lt h)
    rw [Nat.succ_mul] at this
    exact iff_of_false (by omega) (by omega)

theorem strip_place {r j t : ℕ} (hj : j < k) (ht : t < c) :
    strip c k ((r * k + j) * c + t) = j ∧ offset c k ((r * k + j) * c + t) = r * c + t := by
  rw [strip, offset, digits_div ht, digits_div hj, Nat.mul_add_mod_self_right, Nat.mul_add_mod_self_right, Nat.mod_eq_of_lt hj,
    Nat.mod_eq_of_lt ht]
  exact ⟨rfl, rfl⟩

section

variable (hc : 0 < c)

include hc

theorem exists_place (hk : 0 < k) (o : ℕ) :
    ∃ r j t, j < k ∧ t < c ∧ o = (r * k + j) * c + t ∧ strip c k o = j ∧ offset c k o = r * c + t := by
  refine ⟨o / c / k, o / c % k, o % c, strip_lt c hk o, Nat.mod_lt _ hc, ?_, rfl, rfl⟩
  rw [Nat.div_add_mod', Nat.div_add_mod']

theorem place_lt_iff {r j t size : ℕ} (hj : j < k) (ht : t < c) :
    (r * k + j) * c + t < size ↔ r * c + t < used c k size j := by
  have hkc : j * c + t < k * c := by
    have := Nat.mul_le_mul_right c (Nat.succ_le_of_lt hj)
    rw [Nat.succ_mul] at this
    omega
  have hm := Nat.mod_lt size (Nat.mul_pos (Nat.zero_lt_of_lt hj) hc)
  have hsize : size = size / (k * c) * (k * c) + size % (k * c) := (Nat.div_add_mod' _ _).symm
  have hplace : (r * k + j) * c + t = r * (k * c) + (j * c + t) := by ring
  rw [used, digits_lt_iff ht (Nat.min_le_left _ _), hplace]
  conv_lhs => rw [hsize]
  rw [digits_lt_iff hkc hm.le]
  omega

theorem offset_lt_used (hk : 0 < k) {o size : ℕ} (ho : o < size) : offset c k o < used c k size (strip c k o) := by
  obtain ⟨r, j, t, hj, ht, rfl, hstrip, hofs⟩ := exists_place hc hk o
  rw [hstrip, hofs]
  exact (place_lt_iff hc hj ht).1 ho

theorem ext (hk : 0 < k) {o o' : ℕ} (hstrip : strip c k o = strip c k o') (hofs : offset c k o = offset c k o') : o = o' := by
  obtain ⟨r, j, t, -, ht, rfl, hj, hx⟩ := exists_place hc hk o
  obtain ⟨r', j', t', -, ht', rfl, hj', hx'⟩ := exists_place hc hk o'
  rw [hj, hj'] at hstrip
  rw [hx, hx'] at hofs
  have hr : r = r' := by
    have h := digits_div (r := r) ht
    rw [hofs, digits_div ht'] at h
    exact h.symm
  subst hr hstrip
  omega

theorem exists_of_lt_used {x j size : ℕ} (hj : j < k) (hx : x < used c k size j) :
    ∃ o < size, strip c k o = j ∧ offset c k o = x := by
  have ht := Nat.mod_lt x hc
  refine ⟨(x / c * k + j) * c + x % c, ?_, ?_⟩
  · rw [place_lt_iff hc hj ht, Nat.div_add_mod']
    exact hx
  · obtain ⟨h1, h2⟩ := strip_place (r := x / c) hj ht
    exact ⟨h1, h2.trans (Nat.div_add_mod' x c)⟩

theorem used_le (hk : 0 < k) {size m j : ℕ} (h : size ≤ m * (k * c)) : used c k size j ≤ m * c := by
  have hkc := Nat.mul_pos hk hc
  have hsize : size = size / (k * c) * (k * c) + size % (k * c) := (Nat.div_add_mod' _ _).symm
  have hmin := Nat.min_le_left c (size % (k * c) - j * c)
  have hq : size / (k * c) ≤ m := by
    rw [← Nat.mul_le_mul_right_iff hkc]
    omega
  rw [used]
  rcases Nat.eq_or_lt_of_le hq with heq | hlt
  · have hzero : size % (k * c) = 0 := by
      rw [heq] at hsize
      omega
    rw [heq, hzero, Nat.zero_sub, Nat.min_zero, Nat.add_zero]
  · have := Nat.mul_le_mul_right c (Nat.succ_le_of_lt hlt)
    rw [Nat.succ_mul] at this
    omega

end

end Stripes

import Mathlib.Tactic

/-! Fixed-width C integers. Values are natural numbers, every operation that can
leave the width says so with an explicit reduction, and a signed reading is the
two's complement one. Last, a ring of `n` slots and two counters that never decrease: what is
counted goes through slot `k % n`, and counters less than a lap apart have different slots. -/

namespace Machine

/-- The value an unsigned 64-bit variable keeps. -/
def u64 (n : ℕ) : ℕ := n % 2 ^ 64

/-- The value an unsigned 32-bit variable keeps. -/
def u32 (n : ℕ) : ℕ := n % 2 ^ 32

/-- The signed reading of a 64-bit pattern. -/
def s64 (n : ℕ) : ℤ := if u64 n < 2 ^ 63 then (u64 n : ℤ) else (u64 n : ℤ) - 2 ^ 64

/-- The signed reading of a 32-bit pattern. -/
def s32 (n : ℕ) : ℤ := if u32 n < 2 ^ 31 then (u32 n : ℤ) else (u32 n : ℤ) - 2 ^ 32

/-- `a - b` on unsigned 64-bit operands, wrapping below zero. -/
def sub64 (a b : ℕ) : ℕ := u64 (u64 a + 2 ^ 64 - u64 b)

/-- `~n` of an unsigned 64-bit operand. -/
def not64 (n : ℕ) : ℕ := 2 ^ 64 - 1 - u64 n

theorem u64_of_lt {n : ℕ} (h : n < 2 ^ 64) : u64 n = n := Nat.mod_eq_of_lt h

theorem u32_of_lt {n : ℕ} (h : n < 2 ^ 32) : u32 n = n := Nat.mod_eq_of_lt h

theorem u64_lt (n : ℕ) : u64 n < 2 ^ 64 := Nat.mod_lt _ (by norm_num)

theorem s64_of_lt {n : ℕ} (h : n < 2 ^ 63) : s64 n = n := by
  have hu : u64 n = n := u64_of_lt (by omega)
  rw [s64, hu, if_pos h]

theorem lt_of_s64_pos {n : ℕ} (hn : n < 2 ^ 64) (h : 0 < s64 n) : n < 2 ^ 63 := by
  by_contra hge
  rw [s64, u64_of_lt hn, if_neg hge] at h
  omega

theorem s32_of_lt {n : ℕ} (h : n < 2 ^ 31) : s32 n = n := by
  have hu : u32 n = n := u32_of_lt (by omega)
  rw [s32, hu, if_pos h]

theorem sub64_of_le {a b : ℕ} (ha : a < 2 ^ 64) (hb : b ≤ a) : sub64 a b = a - b := by
  simp only [sub64, u64]
  omega

theorem le_of_and_pred {n k : ℕ} (h : n &&& (n - 1) = 0) (hlt : n < 2 ^ (k + 1)) : n ≤ 2 ^ k := by
  by_contra hn
  have hbit : ∀ m, 2 ^ k ≤ m → m < 2 ^ (k + 1) → m.testBit k = true := by
    intro m h1 h2
    have hq : m / 2 ^ k = 1 := Nat.div_eq_of_lt_le (by omega) (by rw [pow_succ] at h2; omega)
    rw [Nat.testBit_eq_decide_div_mod_eq, hq]
    rfl
  have hand : (n &&& (n - 1)).testBit k = true := by
    rw [Nat.testBit_and, hbit n (by omega) hlt, hbit (n - 1) (by omega) (by omega)]
    rfl
  rw [h, Nat.zero_testBit] at hand
  exact Bool.false_ne_true hand

theorem eq_two_pow_of_and_pred {n : ℕ} (h : n &&& (n - 1) = 0) (hn : n ≠ 0) : ∃ k, n = 2 ^ k :=
  ⟨n.log2, Nat.le_antisymm (le_of_and_pred h Nat.lt_log2_self) (Nat.log2_self_le hn)⟩

theorem and_not64_mask {n k : ℕ} (hn : n < 2 ^ 64) (hk : k ≤ 64) : n &&& not64 (2 ^ k - 1) = n / 2 ^ k * 2 ^ k := by
  have hle : 2 ^ k ≤ 2 ^ 64 := Nat.pow_le_pow_right (by norm_num) hk
  have hpos : 0 < 2 ^ k := Nat.two_pow_pos k
  have hmask : not64 (2 ^ k - 1) = 2 ^ 64 - (2 ^ k - 1 + 1) := by
    rw [not64, u64_of_lt (by omega)]
    omega
  refine Nat.eq_of_testBit_eq fun i => ?_
  rw [Nat.testBit_and, hmask, Nat.testBit_two_pow_sub_succ (by omega), Nat.testBit_two_pow_sub_one,
    Nat.testBit_mul_two_pow, Nat.testBit_div_two_pow]
  by_cases hki : k ≤ i
  · rw [Nat.sub_add_cancel hki]
    by_cases hi : i < 64
    · simp [hki, hi]
    · have hhigh : n.testBit i = false :=
        Nat.testBit_lt_two_pow (hn.trans_le (Nat.pow_le_pow_right (by norm_num) (not_lt.1 hi)))
      simp [hhigh]
  · simp [hki, not_le.1 hki]

/-- Round a quotient up, as C code writes it. -/
def divUp (n d : ℕ) : ℕ := (n + d - 1) / d

theorem divUp_mul_ge (n : ℕ) {d : ℕ} (hd : 0 < d) : n ≤ divUp n d * d := by
  have h := Nat.lt_div_mul_add (a := n + d - 1) hd
  unfold divUp
  omega

theorem divUp_mul (k : ℕ) {d : ℕ} (hd : 0 < d) : divUp (k * d) d = k := by
  unfold divUp
  rw [show k * d + d - 1 = k * d + (d - 1) by omega, Nat.add_comm, Nat.add_mul_div_right _ _ hd,
    Nat.div_eq_of_lt (by omega), Nat.zero_add]

theorem divUp_le {n d m : ℕ} (hd : 0 < d) : divUp n d ≤ m ↔ n ≤ m * d := by
  unfold divUp
  rw [Nat.div_le_iff_le_mul_add_pred hd]
  constructor
  · intro h; rw [Nat.mul_comm]; omega
  · intro h; rw [Nat.mul_comm]; omega

theorem divUp_divUp (n : ℕ) {d e : ℕ} (hd : 0 < d) (he : 0 < e) : divUp (divUp n d) e = divUp n (e * d) := by
  refine eq_of_forall_ge_iff fun m => ?_
  rw [divUp_le he, divUp_le hd, divUp_le (Nat.mul_pos he hd), Nat.mul_assoc]

theorem divUp_mul_lt {n d : ℕ} (hd : 0 < d) : divUp n d * d < n + d := by
  have := Nat.div_mul_le_self (n + d - 1) d
  unfold divUp
  omega

theorem divUp_pos {n d : ℕ} (hd : 0 < d) (hn : 0 < n) : 0 < divUp n d := by
  by_contra h
  have := (divUp_le (n := n) (m := 0) hd).mp (by omega)
  omega

theorem divUp_zero {d : ℕ} (hd : 0 < d) : divUp 0 d = 0 :=
  Nat.eq_zero_of_le_zero ((divUp_le hd).2 (Nat.zero_le _))

theorem divUp_sub_min {n d : ℕ} (hd : 0 < d) (hn : 0 < n) : divUp n d = divUp (n - min n d) d + 1 := by
  by_cases hle : n ≤ d
  · rw [Nat.min_eq_left hle, Nat.sub_self, divUp_zero hd]
    have h1 : divUp n d ≤ 1 := (divUp_le hd).2 (by omega)
    have h2 := divUp_pos hd hn
    omega
  · rw [Nat.min_eq_right (by omega)]
    unfold divUp
    rw [← Nat.add_div_right _ hd]
    congr 1
    omega

end Machine

namespace Ring

variable {n c p : ℕ}

theorem mod_eq_iff (hcp : c ≤ p) (hlap : p < c + n) : p % n = c % n ↔ p = c := by
  constructor
  · intro h
    have hdvd : n ∣ p - c := (Nat.modEq_iff_dvd' hcp).1 h.symm
    have hzero : p - c = 0 := Nat.eq_zero_of_dvd_of_lt hdvd (by omega)
    omega
  · intro h
    rw [h]

theorem succ_mod_ne (hn : 2 ≤ n) : c % n ≠ (c + 1) % n := by
  intro heq
  have := (mod_eq_iff (Nat.le_succ c) (show c + 1 < c + n by omega)).1 heq.symm
  omega

theorem distance (hn : 0 < n) (hcp : c ≤ p) (hlap : p < c + n) :
    (if p % n < c % n then p % n + n else p % n) - c % n = p - c := by
  have hp := Nat.div_add_mod p n
  have hc := Nat.div_add_mod c n
  have hpn := Nat.mod_lt p hn
  have hcn := Nat.mod_lt c hn
  have hle : c / n ≤ p / n := Nat.div_le_div_right hcp
  have hcases : p / n = c / n ∨ p / n = c / n + 1 := by
    have hlt : p / n < c / n + 2 := by
      rw [Nat.div_lt_iff_lt_mul hn, Nat.add_mul, Nat.mul_comm]
      omega
    omega
  rcases hcases with h | h
  · rw [h] at hp
    split_ifs <;> omega
  · rw [h, Nat.mul_add, Nat.mul_one] at hp
    split_ifs <;> omega

end Ring

import Famfs.Lib.Machine

/-! Memory is cut into lines of one size. A range of bytes touches the lines from the one its first
byte is in to the one its last byte is in. -/

namespace Lines

open Machine

/-- The addresses of the lines of size `d` that the range of `len` bytes at `start` touches. -/
def touched (d start len : ℕ) : List ℕ :=
  if len = 0 then [] else List.range' (start / d * d) (divUp (start + len - start / d * d) d) d

theorem touched_increasing {d : ℕ} (hd : 0 < d) (start len : ℕ) : (touched d start len).Pairwise (· < ·) := by
  rw [touched]
  split_ifs
  · exact List.Pairwise.nil
  · exact List.pairwise_lt_range' d hd

theorem mem_touched {d start len a : ℕ} (hd : 0 < d) :
    a ∈ touched d start len ↔ d ∣ a ∧ ∃ x, (a ≤ x ∧ x < a + d) ∧ (start ≤ x ∧ x < start + len) := by
  rw [touched]
  split_ifs with hlen
  · refine iff_of_false (List.not_mem_nil) ?_
    rintro ⟨-, x, -, hx⟩
    omega
  have hbelow : start / d * d ≤ start := Nat.div_mul_le_self start d
  have habove : start < start / d * d + d := Nat.lt_div_mul_add hd
  rw [List.mem_range']
  constructor
  · rintro ⟨i, hi, rfl⟩
    have hlast : i * d < start + len - start / d * d := by
      by_contra hge
      exact absurd ((divUp_le hd).2 (not_lt.1 hge)) (not_le.2 hi)
    rw [Nat.mul_comm i] at hlast
    refine ⟨Nat.dvd_add (Nat.dvd_mul_left d _) (Nat.dvd_mul_right d i), max (start / d * d + d * i) start, ?_⟩
    omega
  · rintro ⟨⟨c, rfl⟩, x, ⟨hax, hxa⟩, hsx, hx⟩
    have hfirst : start / d ≤ c := by
      rw [← Nat.lt_succ_iff, Nat.div_lt_iff_lt_mul hd, Nat.succ_mul, Nat.mul_comm]
      omega
    have hsplit : d * c = start / d * d + d * (c - start / d) := by
      rw [Nat.mul_comm _ d, ← Nat.mul_add, Nat.add_sub_cancel' hfirst]
    refine ⟨c - start / d, ?_, hsplit⟩
    by_contra hge
    have hend := (divUp_le hd).1 (not_lt.1 hge)
    rw [Nat.mul_comm (c - start / d) d] at hend
    omega

end Lines

import Mathlib.Data.List.DropRight
import Mathlib.Data.Nat.Digits.Lemmas
import Mathlib.Tactic

/-! Records of bytes: a record is a row of blocks, and a field of it is cut out at its
offset. Numbers are little endian. -/

namespace Records

def leNat (b : List UInt8) : ℕ := Nat.ofDigits 256 (b.map UInt8.toNat)

/-- The `k` bytes from offset `off` on. -/
def cut (b : List UInt8) (off k : ℕ) : List UInt8 := (b.drop off).take k

/-- A fixed array without the zeroes at its end. -/
def trim (b : List UInt8) : List UInt8 := b.rdropWhile (· = 0)

theorem leNat_digits (k n : ℕ) :
    leNat ((List.range k).map fun i => UInt8.ofNat (n / 256 ^ i)) = n % 256 ^ k := by
  induction k with
  | zero => simp [leNat, Nat.mod_one]
  | succ k ih =>
    have hlast : (UInt8.ofNat (n / 256 ^ k)).toNat = n / 256 ^ k % 256 := UInt8.toNat_ofNat'
    rw [leNat] at ih ⊢
    rw [List.range_succ, List.map_append, List.map_append, Nat.ofDigits_append, ih, List.map_singleton,
      List.map_singleton, Nat.ofDigits_singleton, hlast, List.length_map, List.length_map, List.length_range,
      Nat.mod_pow_succ]

theorem cut_skip {a : List UInt8} {off : ℕ} (h : a.length ≤ off) (r : List UInt8) (k : ℕ) :
    cut (a ++ r) off k = cut r (off - a.length) k := by
  rw [cut, cut, List.drop_append, List.drop_of_length_le h, List.nil_append]

theorem cut_here {a : List UInt8} {k : ℕ} (h : a.length = k) (r : List UInt8) : cut (a ++ r) 0 k = a := by
  rw [cut, List.drop_zero, ← h, List.take_left]

theorem cut_all {a : List UInt8} {k : ℕ} (h : a.length = k) : cut a 0 k = a := by
  rw [cut, List.drop_zero, ← h, List.take_length]

theorem cut_flatMap {α : Type} {f : α → List UInt8} {w : ℕ} (hw : ∀ x, (f x).length = w) (l : List α) {k : ℕ}
    (hk : k < l.length) (r : List UInt8) : cut (l.flatMap f ++ r) (w * k) w = f l[k] := by
  induction l generalizing k with
  | nil => exact absurd hk (Nat.not_lt_zero k)
  | cons x l ih =>
    rw [List.flatMap_cons, List.append_assoc]
    cases k with
    | zero => exact cut_here (hw x) _
    | succ k =>
      have hlt : k < l.length := by simpa using hk
      rw [cut_skip (by rw [hw, Nat.mul_succ]; omega), hw, Nat.mul_succ, Nat.add_sub_cancel, ih hlt]
      rfl

theorem trim_append_zeroes {s : List UInt8} (hs : (0 : UInt8) ∉ s) (k : ℕ) :
    trim (s ++ List.replicate k 0) = s := by
  induction k with
  | zero =>
    rw [List.replicate_zero, List.append_nil, trim, List.rdropWhile_eq_self_iff]
    intro hne hlast
    have hzero : s.getLast hne = 0 := of_decide_eq_true hlast
    exact hs (hzero ▸ List.getLast_mem hne)
  | succ k ih =>
    rw [List.replicate_succ', ← List.append_assoc, trim, List.rdropWhile_concat_pos _ _ _ (by simp)]
    exact ih

end Records

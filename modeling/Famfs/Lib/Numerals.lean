import Mathlib.Tactic
import Mathlib.Data.Nat.Digits.Defs
import Famfs.Lib.Machine

/-! Numbers as texts: the conversions `%d`, `%lld`, `0x%llx` and `0%o` of `printf`, and
`strtoull` with base 0, over bytes. Reading back what was written gives the number. -/

namespace Numerals

open Machine

def digitChar (d : ℕ) : UInt8 := if d < 10 then UInt8.ofNat (48 + d) else UInt8.ofNat (87 + d)

/-- The value of a digit; 36 for any other byte. -/
def digitValue (c : UInt8) : ℕ :=
  if 48 ≤ c.toNat ∧ c.toNat ≤ 57 then c.toNat - 48
  else if 97 ≤ c.toNat ∧ c.toNat ≤ 122 then c.toNat - 87
  else if 65 ≤ c.toNat ∧ c.toNat ≤ 90 then c.toNat - 55
  else 36

def numeral (base n : ℕ) : List UInt8 :=
  if n = 0 then [digitChar 0] else (Nat.digits base n).reverse.map digitChar

def formatSigned (z : ℤ) : List UInt8 := if z < 0 then 45 :: numeral 10 z.natAbs else numeral 10 z.natAbs

def formatHex (n : ℕ) : List UInt8 := 48 :: 120 :: numeral 16 n

def formatOctal (n : ℕ) : List UInt8 := 48 :: numeral 8 n

def isSpace (c : UInt8) : Bool := c.toNat = 32 ∨ (9 ≤ c.toNat ∧ c.toNat ≤ 13)

/-- The digits at the front of a text. -/
def scan (base : ℕ) : List UInt8 → ℕ → ℕ
  | [], acc => acc
  | c :: cs, acc => if digitValue c < base then scan base cs (acc * base + digitValue c) else acc

/-- The magnitude, with the base taken from its first bytes. -/
def magnitude : List UInt8 → ℕ
  | 48 :: x :: c :: cs =>
    if (x = 120 ∨ x = 88) ∧ digitValue c < 16 then scan 16 (c :: cs) 0 else scan 8 (x :: c :: cs) 0
  | 48 :: cs => scan 8 cs 0
  | cs => scan 10 cs 0

/-- A magnitude that does not fit saturates; a minus sign negates in the type of the result. -/
def strtoull (text : List UInt8) : ℕ :=
  match text.dropWhile isSpace with
  | 45 :: cs => if magnitude cs < 2 ^ 64 then sub64 0 (magnitude cs) else 2 ^ 64 - 1
  | 43 :: cs => min (magnitude cs) (2 ^ 64 - 1)
  | cs => min (magnitude cs) (2 ^ 64 - 1)

theorem digitValue_digitChar {d : ℕ} (hd : d < 36) : digitValue (digitChar d) = d := by
  interval_cases d <;> decide

theorem scan_map {base : ℕ} (hbase : base ≤ 36) {ds : List ℕ} (hds : ∀ d ∈ ds, d < base) (acc : ℕ) :
    scan base (ds.map digitChar) acc = ds.foldl (fun a d => a * base + d) acc := by
  induction ds generalizing acc with
  | nil => rfl
  | cons d ds ih =>
    have hd : d < base := hds d (List.mem_cons_self ..)
    rw [List.map_cons, scan, digitValue_digitChar (by omega), if_pos hd, List.foldl_cons]
    exact ih (fun e he => hds e (List.mem_cons_of_mem _ he)) _

theorem foldl_reverse_digits (base : ℕ) (ds : List ℕ) :
    ds.reverse.foldl (fun a d => a * base + d) 0 = Nat.ofDigits base ds := by
  rw [List.foldl_reverse, Nat.ofDigits_eq_foldr]
  congr 1
  funext d a
  rw [Nat.cast_id, Nat.add_comm, Nat.mul_comm]

theorem scan_numeral {base : ℕ} (h2 : 2 ≤ base) (hbase : base ≤ 36) (n : ℕ) : scan base (numeral base n) 0 = n := by
  unfold numeral
  split_ifs with hn
  · rw [hn, scan, digitValue_digitChar (by omega), if_pos (by omega), scan, Nat.zero_mul]
  · have hds : ∀ d ∈ (Nat.digits base n).reverse, d < base := fun d hd =>
      Nat.digits_lt_base (by omega) (List.mem_reverse.1 hd)
    rw [scan_map hbase hds, foldl_reverse_digits, Nat.ofDigits_digits]

theorem numeral_cons {base : ℕ} (h2 : 2 ≤ base) (n : ℕ) :
    ∃ d ds, d < base ∧ (d = 0 → n = 0 ∧ ds = []) ∧ numeral base n = digitChar d :: ds := by
  unfold numeral
  split_ifs with hn
  · exact ⟨0, [], by omega, fun _ => ⟨hn, rfl⟩, rfl⟩
  · have hne := Nat.digits_ne_nil_iff_ne_zero (b := base).2 hn
    refine ⟨(Nat.digits base n).getLast hne, ((Nat.digits base n).dropLast.reverse).map digitChar,
      Nat.digits_lt_base (by omega) (List.getLast_mem hne), fun h0 => absurd h0 (Nat.getLast_digit_ne_zero base hn), ?_⟩
    conv_lhs => rw [← List.dropLast_append_getLast hne]
    rw [List.reverse_append, List.map_append]
    rfl

theorem digitChar_plain {d : ℕ} (hd : d < 16) :
    isSpace (digitChar d) = false ∧ digitChar d ≠ 45 ∧ digitChar d ≠ 43 ∧ digitChar d ≠ 120 ∧ digitChar d ≠ 88 ∧
      (digitChar d = 48 ↔ d = 0) := by
  interval_cases d <;> decide

theorem magnitude_decimal (n : ℕ) : magnitude (numeral 10 n) = n := by
  obtain ⟨d, ds, hd, hzero, hcons⟩ := numeral_cons (show 2 ≤ 10 by omega) n
  have hscan := scan_numeral (show 2 ≤ 10 by omega) (by omega) n
  obtain ⟨-, -, -, -, -, h48⟩ := digitChar_plain (show d < 16 by omega)
  by_cases h0 : d = 0
  · obtain ⟨hn, hds⟩ := hzero h0
    rw [hcons, hds, h0, hn]
    rfl
  · rw [hcons] at hscan ⊢
    rw [magnitude]
    · exact hscan
    · intro x c cs hx
      exact h0 (h48.1 (List.cons.inj hx).1)
    · intro cs hx
      exact h0 (h48.1 (List.cons.inj hx).1)

theorem magnitude_hex (n : ℕ) : magnitude (formatHex n) = n := by
  obtain ⟨d, ds, hd, -, hcons⟩ := numeral_cons (show 2 ≤ 16 by omega) n
  have hscan := scan_numeral (show 2 ≤ 16 by omega) (by omega) n
  rw [hcons] at hscan
  rw [formatHex, hcons, magnitude, if_pos ⟨Or.inl rfl, by rw [digitValue_digitChar (by omega)]; exact hd⟩, hscan]

theorem magnitude_octal (n : ℕ) : magnitude (formatOctal n) = n := by
  obtain ⟨d, ds, hd, -, hcons⟩ := numeral_cons (show 2 ≤ 8 by omega) n
  have hscan := scan_numeral (show 2 ≤ 8 by omega) (by omega) n
  obtain ⟨-, -, -, h120, h88, -⟩ := digitChar_plain (show d < 16 by omega)
  rw [hcons] at hscan
  rw [formatOctal, hcons]
  cases ds with
  | nil => exact hscan
  | cons c cs =>
    rw [magnitude, if_neg fun hx => hx.1.elim h120 h88]
    exact hscan

theorem strtoull_unsigned {c : UInt8} {cs : List UInt8} (hspace : isSpace c = false) (hminus : c ≠ 45) (hplus : c ≠ 43)
    (hlt : magnitude (c :: cs) < 2 ^ 64) : strtoull (c :: cs) = magnitude (c :: cs) := by
  unfold strtoull
  rw [List.dropWhile_cons_of_neg (by rw [hspace]; exact Bool.false_ne_true)]
  split
  · rename_i heq
    exact absurd (List.cons.inj heq).1 hminus
  · rename_i heq
    exact absurd (List.cons.inj heq).1 hplus
  · exact min_eq_left (by omega)

theorem strtoull_formatHex {n : ℕ} (hn : n < 2 ^ 64) : strtoull (formatHex n) = n := by
  have hmag := magnitude_hex n
  rw [formatHex] at hmag ⊢
  rw [strtoull_unsigned (by decide) (by decide) (by decide) (by rw [hmag]; exact hn), hmag]

theorem strtoull_formatOctal {n : ℕ} (hn : n < 2 ^ 64) : strtoull (formatOctal n) = n := by
  have hmag := magnitude_octal n
  rw [formatOctal] at hmag ⊢
  rw [strtoull_unsigned (by decide) (by decide) (by decide) (by rw [hmag]; exact hn), hmag]

theorem strtoull_numeral {n : ℕ} (hn : n < 2 ^ 64) : strtoull (numeral 10 n) = n := by
  have hmag := magnitude_decimal n
  obtain ⟨d, ds, hd, -, hcons⟩ := numeral_cons (show 2 ≤ 10 by omega) n
  obtain ⟨hspace, hminus, hplus, -⟩ := digitChar_plain (show d < 16 by omega)
  rw [hcons] at hmag ⊢
  rw [strtoull_unsigned hspace hminus hplus (by rw [hmag]; exact hn), hmag]

theorem strtoull_formatSigned {z : ℤ} (hz : z.natAbs < 2 ^ 64) : (strtoull (formatSigned z) : ℤ) = z % 2 ^ 64 := by
  unfold formatSigned
  split_ifs with hneg
  · have hmag := magnitude_decimal z.natAbs
    have hminus : strtoull (45 :: numeral 10 z.natAbs) = sub64 0 z.natAbs := by
      unfold strtoull
      rw [List.dropWhile_cons_of_neg (by decide)]
      simp only [hmag, if_pos hz]
    rw [hminus]
    simp only [sub64, u64]
    omega
  · rw [strtoull_numeral hz]
    omega

theorem strtoull_s64 {n : ℕ} (hn : n < 2 ^ 64) : strtoull (formatSigned (s64 n)) = n := by
  have hback := strtoull_formatSigned (z := s64 n) (by simp only [s64, u64]; split_ifs <;> omega)
  have hmod : s64 n % 2 ^ 64 = n := by
    simp only [s64, u64]
    split_ifs <;> omega
  omega

theorem strtoull_s32 {n : ℕ} (hn : n < 2 ^ 32) : u32 (strtoull (formatSigned (s32 n))) = n := by
  have hback := strtoull_formatSigned (z := s32 n) (by simp only [s32, u32]; split_ifs <;> omega)
  have hmod : s32 n % 2 ^ 64 % 2 ^ 32 = n := by
    simp only [s32, u32]
    split_ifs <;> omega
  simp only [u32]
  omega

end Numerals

import Mathlib.Tactic

/-! CRC-32 as zlib computes it: reflected, initial value and final value inverted. -/

namespace Crc32

def bitStep (c : ℕ) : ℕ := if c % 2 = 1 then (c / 2) ^^^ 0xedb88320 else c / 2

def byteStep (c : ℕ) (b : UInt8) : ℕ := bitStep^[8] (c ^^^ b.toNat)

def update (crc : ℕ) (buf : List UInt8) : ℕ := (buf.foldl byteStep (crc ^^^ 0xffffffff)) ^^^ 0xffffffff

/-- `k n`, with `n` evaluated first. -/
def force (n : ℕ) (k : ℕ → ℕ) : ℕ :=
  match n with
  | 0 => k 0
  | n + 1 => k (n + 1)

theorem force_eq (n : ℕ) (k : ℕ → ℕ) : force n k = k n := by
  cases n with
  | zero => rfl
  | succ n => rfl

/-- The register after a buffer, evaluated after every byte. -/
def feed : List UInt8 → ℕ → ℕ
  | [], c => c
  | b :: bs, c => force (byteStep c b) fun c => feed bs c

theorem feed_eq (buf : List UInt8) (c : ℕ) : feed buf c = buf.foldl byteStep c := by
  induction buf generalizing c with
  | nil => rfl
  | cons b bs ih => rw [feed, force_eq, ih, List.foldl_cons]

theorem update_eq_feed (crc : ℕ) (buf : List UInt8) :
    update crc buf = feed buf (crc ^^^ 0xffffffff) ^^^ 0xffffffff := by
  rw [update, feed_eq]

-- the check value of the standard: "123456789"
example : update 0 [49, 50, 51, 52, 53, 54, 55, 56, 57] = 0xcbf43926 := by decide +kernel

end Crc32

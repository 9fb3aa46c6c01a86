import Famfs.Spec.SizeArgs

/-! Which texts are read as the size they say. A size is an integer constant with one of the
six unit letters behind it or with nothing. Every such text that fits into 64 bits is read
exactly, but nothing else is refused: the error that `get_multiplier` reports only skips
the multiplication. -/

namespace Famfs

open Machine Numerals

variable {text : CStr} {v n k : ℕ}

/-- What may stand behind the constant, and the power of 1024 it stands for. -/
inductive UnitSuffix : CStr → ℕ → Prop where
  | none : UnitSuffix [] 0
  | kilo {c : UInt8} (hc : c = 107 ∨ c = 75) : UnitSuffix [c] 1
  | mega {c : UInt8} (hc : c = 109 ∨ c = 77) : UnitSuffix [c] 2
  | giga {c : UInt8} (hc : c = 103 ∨ c = 71) : UnitSuffix [c] 3

def SizeText (text : CStr) (v : ℕ) : Prop :=
  ∃ constant suffix n k, text = constant ++ suffix ∧ IsLiteral constant n ∧ UnitSuffix suffix k ∧ v = n * 1024 ^ k

/-- The size that a text says is the value used, and a text that says none which fits is refused. -/
def SizeArg.Exact (arg : SizeArg) (text : CStr) : Prop :=
  (∀ v, SizeText text v → v < 2 ^ 64 → arg.read text = .ok (some v)) ∧
    ((¬ ∃ v, SizeText text v ∧ v < 2 ^ 64) → arg.read text = .ok none)

theorem UnitSuffix.stops {suffix : CStr} (h : UnitSuffix suffix k) : Stops suffix := by
  intro c hc
  cases h with
  | none => cases hc
  | kilo h => obtain rfl := Option.some.inj hc; rcases h with rfl | rfl <;> decide
  | mega h => obtain rfl := Option.some.inj hc; rcases h with rfl | rfl <;> decide
  | giga h => obtain rfl := Option.some.inj hc; rcases h with rfl | rfl <;> decide

theorem UnitSuffix.multiplier {suffix : CStr} (h : UnitSuffix suffix k) :
    getMultiplier (some suffix) = ((1024 ^ k : ℕ) : ℤ) := by
  cases h with
  | none => rfl
  | kilo h => rcases h with rfl | rfl <;> rfl
  | mega h => rcases h with rfl | rfl <;> rfl
  | giga h => rcases h with rfl | rfl <;> rfl

theorem UnitSuffix.length_le {suffix : CStr} (h : UnitSuffix suffix k) : suffix.length ≤ 1 := by
  cases h <;> simp

theorem sizeFromText_of_sizeText (h : SizeText text v) (hv : v < 2 ^ 64) : sizeFromText text = v := by
  obtain ⟨constant, suffix, n, k, rfl, hlit, hsuffix, rfl⟩ := h
  have hpos : 0 < 1024 ^ k := by positivity
  have hn : n < 2 ^ 64 := lt_of_le_of_lt (Nat.le_mul_of_pos_right n hpos) hv
  have hmult : (0 : ℤ) < ((1024 ^ k : ℕ) : ℤ) := by exact_mod_cast hpos
  rw [sizeFromText, hlit.strtoull_append hn hsuffix.stops, hlit.strtoullEnd_append hsuffix.stops, hsuffix.multiplier,
    if_pos hmult, Int.toNat_natCast, u64_of_lt hv]

theorem SizeText.fills_tmpstr (h : SizeText text v) (hlen : TMPSTR_COPY ≤ text.length) :
    (strtoullEnd (text.take TMPSTR_COPY)).length ≤ 1 := by
  obtain ⟨constant, suffix, n, k, rfl, hlit, hsuffix, -⟩ := h
  have hone := hsuffix.length_le
  by_cases hcut : TMPSTR_COPY ≤ constant.length
  · obtain ⟨m, htake⟩ := hlit.take (show 3 ≤ TMPSTR_COPY by decide)
    have hstop : Stops [] := fun c hc => by cases hc
    have hend := htake.strtoullEnd_append hstop
    rw [List.take_append_of_le_length hcut, ← List.append_nil (constant.take _), hend]
    exact Nat.zero_le 1
  · have hall : (constant ++ suffix).length ≤ TMPSTR_COPY := by
      rw [List.length_append]
      omega
    rw [List.take_of_length_le hall, hlit.strtoullEnd_append hsuffix.stops]
    exact hone

theorem SizeArg.read_short (arg : SizeArg) (hshort : arg = .configChunkSize → text.length < TMPSTR_COPY) :
    arg.read text = .ok (some (sizeFromText text)) := by
  cases arg with
  | configChunkSize =>
    have hlt := hshort rfl
    rw [SizeArg.read, if_neg fun h => absurd h.1 (Nat.not_le.2 hlt), List.take_of_length_le hlt.le]
  | _ => rfl

theorem SizeArg.read_ne_none (arg : SizeArg) (text : CStr) : arg.read text ≠ .ok none := by
  intro h
  cases arg with
  | configChunkSize =>
    rw [SizeArg.read] at h
    split_ifs at h
    cases Except.ok.inj h
  | _ => cases Except.ok.inj h

/-- A size argument is read exactly if and only if it says a size that fits into 64 bits,
in fewer than 255 bytes where it is the value of the yaml key. -/
theorem size_arg_exact_iff (arg : SizeArg) (text : CStr) :
    arg.Exact text ↔
      (∃ v, SizeText text v ∧ v < 2 ^ 64) ∧ (arg = .configChunkSize → text.length < TMPSTR_COPY) := by
  refine ⟨fun hexact => ?_, ?_⟩
  · by_cases hsize : ∃ v, SizeText text v ∧ v < 2 ^ 64
    · refine ⟨hsize, ?_⟩
      rintro rfl
      obtain ⟨v, htext, hv⟩ := hsize
      by_contra hlong
      have hlen := Nat.not_lt.1 hlong
      have hread := hexact.1 v htext hv
      rw [SizeArg.read, if_pos ⟨hlen, Or.inr (htext.fills_tmpstr hlen)⟩] at hread
      cases hread
    · exact absurd (hexact.2 hsize) (arg.read_ne_none text)
  · rintro ⟨hsize, hshort⟩
    refine ⟨fun v htext hv => ?_, fun hno => absurd hsize hno⟩
    rw [arg.read_short hshort, sizeFromText_of_sizeText htext hv]

/-- `famfs creat -s 2MB`: the unit is not the last byte, so `get_multiplier` reports an error,
and the file is made with two bytes. -/
theorem size_arg_ignores_error :
    SizeArg.creatSize.read (lit "2MB") = .ok (some 2) ∧ ¬ SizeArg.creatSize.Exact (lit "2MB") ∧
      SizeArg.mkfsLoglen.read (lit "1t") = .ok (some 1) ∧ SizeArg.cpChunkSize.read (lit "-1") = .ok (some (2 ^ 64 - 1)) ∧
      SizeArg.creatChunkSize.read (lit "17179869185g") = .ok (some (2 ^ 30)) := by
  have hread : SizeArg.creatSize.read (lit "2MB") = .ok (some 2) := by decide +kernel
  have hbyte : ∀ v, ¬ SizeText (lit "2MB") v := by
    rintro v ⟨constant, suffix, n, k, htext, hlit, hsuffix, -⟩
    have hend := hlit.strtoullEnd_append hsuffix.stops
    have hone := hsuffix.length_le
    rw [← htext] at hend
    rw [← hend] at hone
    revert hone
    decide +kernel
  refine ⟨hread, fun hexact => ?_, by decide +kernel, by decide +kernel, by decide +kernel⟩
  have hnone := hexact.2 fun ⟨v, htext, _⟩ => hbyte v htext
  rw [hread] at hnone
  cases hnone

end Famfs

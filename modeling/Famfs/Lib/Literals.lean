import Famfs.Lib.Numerals

/-! Where `strtoull` with base 0 stops, and the integer constants that it reads whole:
decimal without a leading zero, octal after a `0`, hexadecimal after `0x`. -/

namespace Numerals

variable {base n : ℕ} {ds tail text : List UInt8}

/-- The text behind the digits at its front. -/
def scanEnd (base : ℕ) (text : List UInt8) : List UInt8 := text.dropWhile fun c => digitValue c < base

def magnitudeEnd : List UInt8 → List UInt8
  | 48 :: x :: c :: cs =>
    if (x = 120 ∨ x = 88) ∧ digitValue c < 16 then scanEnd 16 (c :: cs) else scanEnd 8 (x :: c :: cs)
  | 48 :: cs => scanEnd 8 cs
  | cs => scanEnd 10 cs

/-- The text behind blanks and a sign. -/
def unsignedPart (text : List UInt8) : List UInt8 :=
  match text.dropWhile isSpace with
  | 45 :: cs => cs
  | 43 :: cs => cs
  | cs => cs

/-- What the end pointer points to: all of the text if it has no number at its front. -/
def strtoullEnd (text : List UInt8) : List UInt8 :=
  if (unsignedPart text).head?.any (fun c => digitValue c < 10) then magnitudeEnd (unsignedPart text) else text

/-- An integer constant and its value. -/
inductive IsLiteral : List UInt8 → ℕ → Prop where
  | decimal {d : UInt8} {ds : List UInt8} (hfirst : d ≠ 48) (hds : ∀ c ∈ d :: ds, digitValue c < 10) :
      IsLiteral (d :: ds) (scan 10 (d :: ds) 0)
  | octal {ds : List UInt8} (hds : ∀ c ∈ ds, digitValue c < 8) : IsLiteral (48 :: ds) (scan 8 ds 0)
  | hex {x d : UInt8} {ds : List UInt8} (hx : x = 120 ∨ x = 88) (hds : ∀ c ∈ d :: ds, digitValue c < 16) :
      IsLiteral (48 :: x :: d :: ds) (scan 16 (d :: ds) 0)

/-- Text that neither a digit of a base up to 16 starts nor the `x` of a hexadecimal constant. -/
def Stops (tail : List UInt8) : Prop := ∀ c ∈ tail.head?, 16 ≤ digitValue c ∧ c ≠ 120 ∧ c ≠ 88

theorem digit_plain {c : UInt8} (hc : digitValue c < 10) : isSpace c = false ∧ c ≠ 45 ∧ c ≠ 43 ∧ c ≠ 120 ∧ c ≠ 88 := by
  have hrange : 48 ≤ c.toNat ∧ c.toNat ≤ 57 := by
    unfold digitValue at hc
    split_ifs at hc <;> omega
  have hne : ∀ b : UInt8, b.toNat < 48 ∨ 57 < b.toNat → c ≠ b := by
    rintro b hb rfl
    omega
  refine ⟨?_, hne 45 (by decide), hne 43 (by decide), hne 120 (by decide), hne 88 (by decide)⟩
  rw [isSpace, decide_eq_false_iff_not]
  omega

theorem scan_append (hds : ∀ c ∈ ds, digitValue c < base) (hstop : Stops tail) (hbase : base ≤ 16) (acc : ℕ) :
    scan base (ds ++ tail) acc = scan base ds acc := by
  induction ds generalizing acc with
  | nil =>
    cases tail with
    | nil => rfl
    | cons c cs =>
      have hc := (hstop c rfl).1
      exact if_neg (by omega)
  | cons d ds ih =>
    have hd := hds d List.mem_cons_self
    rw [List.cons_append, scan, if_pos hd, scan, if_pos hd]
    exact ih (fun c hc => hds c (List.mem_cons_of_mem _ hc)) _

theorem scanEnd_append (hds : ∀ c ∈ ds, digitValue c < base) (hstop : Stops tail) (hbase : base ≤ 16) :
    scanEnd base (ds ++ tail) = tail := by
  rw [scanEnd, List.dropWhile_append_of_pos fun c hc => decide_eq_true (hds c hc)]
  cases tail with
  | nil => rfl
  | cons c cs =>
    have hc := (hstop c rfl).1
    exact List.dropWhile_cons_of_neg (by rw [decide_eq_true_eq]; omega)

theorem magnitude_of_decimal {d : UInt8} {cs : List UInt8} (hd : d ≠ 48) :
    magnitude (d :: cs) = scan 10 (d :: cs) 0 ∧ magnitudeEnd (d :: cs) = scanEnd 10 (d :: cs) := by
  have hthree : ∀ x c cs', d :: cs = 48 :: x :: c :: cs' → False := fun _ _ _ h => hd (List.cons.inj h).1
  have hone : ∀ cs', d :: cs = 48 :: cs' → False := fun _ h => hd (List.cons.inj h).1
  exact ⟨magnitude.eq_3 _ hthree hone, magnitudeEnd.eq_3 _ hthree hone⟩

theorem magnitude_of_octal {cs : List UInt8} (hx : ∀ c ∈ cs.head?, c ≠ 120 ∧ c ≠ 88) :
    magnitude (48 :: cs) = scan 8 cs 0 ∧ magnitudeEnd (48 :: cs) = scanEnd 8 cs := by
  match cs with
  | [] => exact ⟨rfl, rfl⟩
  | [x] => exact ⟨rfl, rfl⟩
  | x :: c :: cs =>
    obtain ⟨h120, h88⟩ := hx x rfl
    exact ⟨if_neg fun h => h.1.elim h120 h88, if_neg fun h => h.1.elim h120 h88⟩

theorem IsLiteral.magnitude_append (h : IsLiteral text n) (hstop : Stops tail) :
    magnitude (text ++ tail) = n ∧ magnitudeEnd (text ++ tail) = tail := by
  cases h with
  | decimal hfirst hds =>
    obtain ⟨hmag, hend⟩ := magnitude_of_decimal hfirst
    rw [List.cons_append, hmag, hend]
    exact ⟨scan_append hds hstop (by omega) 0, scanEnd_append hds hstop (by omega)⟩
  | @octal ds hds =>
    have hx : ∀ c ∈ (ds ++ tail).head?, c ≠ 120 ∧ c ≠ 88 := by
      intro c hc
      cases ds with
      | nil => exact (hstop c hc).2
      | cons d ds =>
        obtain rfl : d = c := Option.some.inj hc
        have hd := hds d List.mem_cons_self
        exact (digit_plain (by omega)).2.2.2
    obtain ⟨hmag, hend⟩ := magnitude_of_octal hx
    rw [List.cons_append, hmag, hend]
    exact ⟨scan_append hds hstop (by omega) 0, scanEnd_append hds hstop (by omega)⟩
  | @hex x d ds hx hds =>
    have hd := hds d List.mem_cons_self
    have hmag : magnitude (48 :: x :: d :: ds ++ tail) = scan 16 (d :: ds ++ tail) 0 := if_pos ⟨hx, hd⟩
    have hend : magnitudeEnd (48 :: x :: d :: ds ++ tail) = scanEnd 16 (d :: ds ++ tail) := if_pos ⟨hx, hd⟩
    rw [hmag, hend]
    exact ⟨scan_append hds hstop le_rfl 0, scanEnd_append hds hstop le_rfl⟩

theorem IsLiteral.cons (h : IsLiteral text n) : ∃ c cs, text = c :: cs ∧ digitValue c < 10 := by
  cases h with
  | decimal _ hds => exact ⟨_, _, rfl, hds _ List.mem_cons_self⟩
  | octal _ => exact ⟨_, _, rfl, by decide⟩
  | hex _ _ => exact ⟨_, _, rfl, by decide⟩

theorem unsignedPart_of_digit {c : UInt8} {cs : List UInt8} (hc : digitValue c < 10) : unsignedPart (c :: cs) = c :: cs := by
  obtain ⟨hspace, hminus, hplus, -⟩ := digit_plain hc
  unfold unsignedPart
  rw [List.dropWhile_cons_of_neg (by rw [hspace]; exact Bool.false_ne_true)]
  split
  · rename_i heq
    exact absurd (List.cons.inj heq).1 hminus
  · rename_i heq
    exact absurd (List.cons.inj heq).1 hplus
  · rfl

theorem IsLiteral.strtoull_append (h : IsLiteral text n) (hn : n < 2 ^ 64) (hstop : Stops tail) :
    strtoull (text ++ tail) = n := by
  obtain ⟨c, cs, rfl, hc⟩ := h.cons
  obtain ⟨hspace, hminus, hplus, -⟩ := digit_plain hc
  obtain ⟨hmag, -⟩ := h.magnitude_append hstop
  rw [List.cons_append] at hmag ⊢
  rw [strtoull_unsigned hspace hminus hplus (by rw [hmag]; exact hn), hmag]

theorem IsLiteral.strtoullEnd_append (h : IsLiteral text n) (hstop : Stops tail) : strtoullEnd (text ++ tail) = tail := by
  obtain ⟨c, cs, rfl, hc⟩ := h.cons
  obtain ⟨-, hend⟩ := h.magnitude_append hstop
  rw [List.cons_append] at hend ⊢
  rw [strtoullEnd, unsignedPart_of_digit hc, if_pos (by simpa using hc), hend]

theorem IsLiteral.take (h : IsLiteral text n) {k : ℕ} (hk : 3 ≤ k) : ∃ m, IsLiteral (text.take k) m := by
  obtain ⟨j, rfl⟩ := Nat.exists_eq_add_of_le' hk
  cases h with
  | decimal hfirst hds => exact ⟨_, .decimal hfirst fun c hc => hds c (List.mem_of_mem_take (i := j + 3) hc)⟩
  | octal hds => exact ⟨_, .octal fun c hc => hds c (List.mem_of_mem_take hc)⟩
  | hex hx hds => exact ⟨_, .hex hx fun c hc => hds c (List.mem_of_mem_take (i := j + 1) hc)⟩

end Numerals

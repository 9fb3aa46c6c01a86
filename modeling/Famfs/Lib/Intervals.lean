import Mathlib.Data.Set.Card
import Mathlib.Order.CompletePartialOrder
import Mathlib.Tactic

/-! Segments of a line of numbered units and layouts of disjoint segments.

A layout over `N` units lets a segment run past `N`, but every segment starts
below it. Two such segments that meet anywhere already meet below `N`, so looking
at the first `N` units is enough to keep a layout disjoint. -/

namespace Intervals

/-- `(start, length)`. -/
abbrev Seg := ℕ × ℕ

def Seg.Has (c : Seg) (b : ℕ) : Prop := c.1 ≤ b ∧ b < c.1 + c.2

instance (c : Seg) (b : ℕ) : Decidable (c.Has b) := inferInstanceAs (Decidable (_ ∧ _))

def Seg.Apart (c d : Seg) : Prop := ∀ b, c.Has b → ¬ d.Has b

def Covers (cs : List Seg) (b : ℕ) : Prop := ∃ c ∈ cs, c.Has b

theorem Seg.Apart.symm {c d : Seg} (h : c.Apart d) : d.Apart c := fun b hd hc => h b hc hd

theorem Seg.has_succ {j n b : ℕ} : Seg.Has (j, n + 1) b ↔ b = j ∨ Seg.Has (j + 1, n) b := by
  unfold Seg.Has
  constructor
  · rintro ⟨h1, h2⟩
    simp only at h1 h2 ⊢
    omega
  · rintro (rfl | ⟨h1, h2⟩) <;> simp only at * <;> omega

theorem Seg.decide_has_succ (j n N b : ℕ) :
    (decide (b = j ∧ j < N) || decide (Seg.Has (j + 1, n) b ∧ b < N)) = decide (Seg.Has (j, n + 1) b ∧ b < N) := by
  rw [Bool.eq_iff_iff]
  simp only [Bool.or_eq_true, decide_eq_true_eq, Seg.has_succ]
  constructor
  · rintro (⟨rfl, hb⟩ | ⟨hb, hlt⟩)
    · exact ⟨Or.inl rfl, hb⟩
    · exact ⟨Or.inr hb, hlt⟩
  · rintro ⟨rfl | hb, hlt⟩
    · exact Or.inl ⟨rfl, hlt⟩
    · exact Or.inr ⟨hb, hlt⟩

theorem Seg.not_has_zero {j b : ℕ} : ¬ Seg.Has (j, 0) b := by
  rintro ⟨h1, h2⟩
  simp only at h1 h2
  omega

@[simp] theorem covers_nil (b : ℕ) : ¬ Covers [] b := by simp [Covers]

@[simp] theorem covers_cons (c : Seg) (cs : List Seg) (b : ℕ) :
    Covers (c :: cs) b ↔ c.Has b ∨ Covers cs b := by simp [Covers]

@[simp] theorem covers_append (cs ds : List Seg) (b : ℕ) :
    Covers (cs ++ ds) b ↔ Covers cs b ∨ Covers ds b := by
  simp only [Covers, List.mem_append, or_and_right, exists_or]

theorem apart_of_below {N : ℕ} {c d : Seg} (hc : c.1 < N) (hd : d.1 < N)
    (h : ∀ b < N, c.Has b → ¬ d.Has b) : c.Apart d := by
  intro b hcb hdb
  by_cases hb : b < N
  · exact h b hb hcb hdb
  · -- both run past `N`, so both hold its last unit
    exact h (N - 1) (by omega) ⟨by omega, by have := hcb.2; omega⟩
      ⟨by omega, by have := hdb.2; omega⟩

theorem apart_iff {c d : Seg} (hc : 0 < c.2) (hd : 0 < d.2) :
    c.Apart d ↔ c.1 + c.2 ≤ d.1 ∨ d.1 + d.2 ≤ c.1 := by
  constructor
  · intro h
    by_contra hn
    push Not at hn
    rcases Nat.le_total c.1 d.1 with hle | hle
    · exact h d.1 ⟨hle, hn.1⟩ ⟨le_rfl, by omega⟩
    · exact h c.1 ⟨le_rfl, by omega⟩ ⟨hle, hn.2⟩
  · rintro (h | h) b ⟨hb1, hb2⟩ ⟨hb3, hb4⟩ <;> omega

/-- What an allocator of `N` units is for: no unit is handed out twice. -/
structure Layout (N : ℕ) where
  segs : List Seg
  starts : ∀ c ∈ segs, c.1 < N
  apart : segs.Pairwise Seg.Apart

def Layout.empty (N : ℕ) : Layout N := ⟨[], by simp, List.Pairwise.nil⟩

/-- The abstract allocation step: a segment whose units below `N` are all free. -/
def Layout.place {N : ℕ} (L : Layout N) (c : Seg) (hc : c.1 < N)
    (hfree : ∀ b < N, c.Has b → ¬ Covers L.segs b) : Layout N where
  segs := L.segs ++ [c]
  starts := by
    intro d hd
    rcases List.mem_append.mp hd with hd | hd
    · exact L.starts d hd
    · rw [List.mem_singleton.mp hd]; exact hc
  apart := by
    refine List.pairwise_append.mpr ⟨L.apart, List.pairwise_singleton _ _, ?_⟩
    intro d hd e he
    rw [List.mem_singleton.mp he]
    exact apart_of_below (L.starts d hd) hc fun b hb hdb hcb => hfree b hb hcb ⟨d, hd, hdb⟩

/-- Some of the segments of a layout, in any order. -/
def Layout.part {N : ℕ} (L : Layout N) {cs ds : List Seg} (h : L.segs.Perm (cs ++ ds)) : Layout N where
  segs := cs
  starts := fun c hc => L.starts c (h.mem_iff.2 (List.mem_append_left ds hc))
  apart := (List.pairwise_append.1 (L.apart.perm h fun hcd => hcd.symm)).1

theorem covers_perm {cs ds : List Seg} (h : cs.Perm ds) (b : ℕ) : Covers cs b ↔ Covers ds b := by
  simp only [Covers, h.mem_iff]

/-- A table of bits shows a layout when a bit below `N` is set exactly for a unit
that some segment holds. -/
def Layout.ShownBy {N : ℕ} (L : Layout N) (t : ℕ → Bool) : Prop :=
  ∀ b < N, t b = true ↔ Covers L.segs b

theorem Layout.ShownBy.free {N : ℕ} {L : Layout N} {t : ℕ → Bool} (h : L.ShownBy t) {c : Seg}
    (hclear : ∀ b, c.Has b → t b = false) : ∀ b < N, c.Has b → ¬ Covers L.segs b := by
  intro b hb hcb hcov
  have := (h b hb).mpr hcov
  rw [hclear b hcb] at this
  exact Bool.false_ne_true this

theorem Layout.covers_left {N : ℕ} (L : Layout N) {cs ds : List Seg} (h : L.segs = cs ++ ds) (b : ℕ) :
    Covers cs b ↔ Covers L.segs b ∧ ¬ Covers ds b := by
  have hap := L.apart
  rw [h, List.pairwise_append] at hap
  rw [h, covers_append]
  constructor
  · rintro ⟨c, hc, hcb⟩
    refine ⟨Or.inl ⟨c, hc, hcb⟩, ?_⟩
    rintro ⟨d, hd, hdb⟩
    exact hap.2.2 c hc d hd b hcb hdb
  · rintro ⟨hc | hd, hn⟩
    · exact hc
    · exact absurd hd hn

/-! Counting. Segments that meet, or that meet a set which is taken already, hold fewer units
than their lengths say. -/

def total (cs : List Seg) : ℕ := (cs.map Prod.snd).sum

/-- The units of the segments outside `M`. -/
def outside (M : Set ℕ) (cs : List Seg) : Set ℕ := {x | Covers cs x ∧ x ∉ M}

theorem Seg.finite (c : Seg) : {x | c.Has x}.Finite :=
  (Set.finite_lt_nat (c.1 + c.2)).subset fun _ hx => hx.2

theorem Seg.ncard (c : Seg) : {x | c.Has x}.ncard = c.2 := by
  have heq : {x | c.Has x} = Set.Ico c.1 (c.1 + c.2) := rfl
  rw [heq, Set.ncard_eq_toFinset_card', Set.toFinset_Ico, Nat.card_Ico]
  omega

theorem outside_cons (M : Set ℕ) (c : Seg) (cs : List Seg) :
    outside M (c :: cs) = {x | c.Has x ∧ x ∉ M ∧ ¬ Covers cs x} ∪ outside M cs := by
  ext x
  simp only [outside, covers_cons, Set.mem_union, Set.mem_ofPred_eq]
  tauto

theorem outside_finite (M : Set ℕ) (cs : List Seg) : (outside M cs).Finite := by
  induction cs with
  | nil => exact Set.finite_empty.subset fun x hx => (covers_nil x hx.1).elim
  | cons c cs ih =>
    rw [outside_cons]
    exact (c.finite.subset fun x hx => hx.1).union ih

theorem outside_ncard_cons (M : Set ℕ) (c : Seg) (cs : List Seg) :
    (outside M (c :: cs)).ncard = {x | c.Has x ∧ x ∉ M ∧ ¬ Covers cs x}.ncard + (outside M cs).ncard := by
  rw [outside_cons]
  refine Set.ncard_union_eq ?_ (c.finite.subset fun x hx => hx.1) (outside_finite M cs)
  exact Set.disjoint_left.mpr fun x hx hcs => hx.2.2 hcs.1

theorem outside_ncard_le (M : Set ℕ) (cs : List Seg) : (outside M cs).ncard ≤ total cs := by
  induction cs with
  | nil => simp [outside, total]
  | cons c cs ih =>
    have hsub : {x | c.Has x ∧ x ∉ M ∧ ¬ Covers cs x} ⊆ {x | c.Has x} := fun x hx => hx.1
    have hle := Set.ncard_le_ncard hsub c.finite
    rw [c.ncard] at hle
    rw [outside_ncard_cons]
    simp only [total, List.map_cons, List.sum_cons]
    exact Nat.add_le_add hle ih

theorem outside_ncard_eq_iff (M : Set ℕ) (cs : List Seg) :
    (outside M cs).ncard = total cs ↔ cs.Pairwise Seg.Apart ∧ ∀ c ∈ cs, ∀ x, c.Has x → x ∉ M := by
  induction cs with
  | nil => simp [outside, total]
  | cons c cs ih =>
    have hsub : {x | c.Has x ∧ x ∉ M ∧ ¬ Covers cs x} ⊆ {x | c.Has x} := fun x hx => hx.1
    have hle := Set.ncard_le_ncard hsub c.finite
    have hrest := outside_ncard_le M cs
    have hwhole : {x | c.Has x ∧ x ∉ M ∧ ¬ Covers cs x}.ncard = c.2 ↔ ∀ x, c.Has x → x ∉ M ∧ ¬ Covers cs x := by
      rw [← c.ncard]
      constructor
      · intro heq x hx
        have hmem : x ∈ {x | c.Has x ∧ x ∉ M ∧ ¬ Covers cs x} := by
          rw [Set.eq_of_subset_of_ncard_le hsub heq.ge c.finite]
          exact hx
        exact hmem.2
      · intro hall
        congr 1
        ext x
        exact ⟨fun hx => hx.1, fun hx => ⟨hx, hall x hx⟩⟩
    have hsplit : (outside M (c :: cs)).ncard = total (c :: cs) ↔
        {x | c.Has x ∧ x ∉ M ∧ ¬ Covers cs x}.ncard = c.2 ∧ (outside M cs).ncard = total cs := by
      rw [outside_ncard_cons]
      rw [c.ncard] at hle
      simp only [total, List.map_cons, List.sum_cons] at hrest ⊢
      omega
    rw [hsplit, hwhole, ih, List.pairwise_cons, List.forall_mem_cons]
    constructor
    · rintro ⟨hc, hap, hM⟩
      exact ⟨⟨fun d hd x hcx hdx => (hc x hcx).2 ⟨d, hd, hdx⟩, hap⟩, fun x hx => (hc x hx).1, hM⟩
    · rintro ⟨⟨hc, hap⟩, hcM, hM⟩
      exact ⟨fun x hx => ⟨hcM x hx, fun ⟨d, hd, hdx⟩ => hc d hd x hx hdx⟩, hap, hM⟩

end Intervals

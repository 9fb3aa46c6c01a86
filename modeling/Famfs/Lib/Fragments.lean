import Mathlib.Tactic
import Mathlib.Data.Set.Card
import Mathlib.Order.Interval.Finset.Nat

/-! Maximal runs of places with a property in a range of numbers. A run is fixed by any
of its places, every place with the property is in one, and there are as many runs as
places where one starts. -/

namespace Fragments

variable {p : ℕ → Prop} {a b s t n m i : ℕ}

/-- The places `s, …, s + n - 1` are a maximal run in `[a, b)`. -/
structure IsRun (p : ℕ → Prop) (a b s n : ℕ) : Prop where
  pos : 0 < n
  left : a ≤ s
  right : s + n ≤ b
  all : ∀ i, s ≤ i → i < s + n → p i
  before : s = a ∨ ¬ p (s - 1)
  after : s + n = b ∨ ¬ p (s + n)

def runs (p : ℕ → Prop) (a b : ℕ) : Set (ℕ × ℕ) := {r | IsRun p a b r.1 r.2}

def lengths (p : ℕ → Prop) (a b : ℕ) : Set ℕ := {n | ∃ s, IsRun p a b s n}

/-- The greatest length, or zero if there is no run. -/
def IsLongest (p : ℕ → Prop) (a b n : ℕ) : Prop := IsGreatest (lengths p a b) n ∨ lengths p a b = ∅ ∧ n = 0

def IsShortest (p : ℕ → Prop) (a b n : ℕ) : Prop := IsLeast (lengths p a b) n ∨ lengths p a b = ∅ ∧ n = 0

theorem IsRun.start_le (h : IsRun p a b s n) (h' : IsRun p a b t m) (hi : s ≤ i ∧ i < s + n) (hi' : t ≤ i ∧ i < t + m) : t ≤ s := by
  by_contra hlt
  have hbefore := h'.before.resolve_left (by have := h.left; omega)
  exact hbefore (h.all (t - 1) (by omega) (by omega))

theorem IsRun.end_le (h : IsRun p a b s n) (h' : IsRun p a b t m) (hi : s ≤ i ∧ i < s + n) (hi' : t ≤ i ∧ i < t + m) : s + n ≤ t + m := by
  by_contra hlt
  have hafter := h'.after.resolve_left (by have := h.right; omega)
  exact hafter (h.all (t + m) (by omega) (by omega))

theorem IsRun.unique (h : IsRun p a b s n) (h' : IsRun p a b t m) (hi : s ≤ i ∧ i < s + n) (hi' : t ≤ i ∧ i < t + m) :
    s = t ∧ n = m := by
  have := h.start_le h' hi hi'
  have := h'.start_le h hi' hi
  have := h.end_le h' hi hi'
  have := h'.end_le h hi' hi
  omega

theorem exists_run_at (hs : a ≤ s) (hb : s < b) (hp : p s) (hbefore : s = a ∨ ¬ p (s - 1)) : ∃ n, IsRun p a b s n := by
  classical
  have hend : ∃ e, s < e ∧ (e = b ∨ ¬ p e) := ⟨b, hb, .inl rfl⟩
  obtain ⟨hlt, hstop⟩ := Nat.find_spec hend
  have hle : Nat.find hend ≤ b := Nat.find_min' hend ⟨hb, .inl rfl⟩
  refine ⟨Nat.find hend - s, by omega, hs, by omega, ?_, hbefore, ?_⟩
  · intro i hi hlt'
    by_contra hnot
    have hsi : s < i := lt_of_le_of_ne hi fun heq => hnot (heq ▸ hp)
    exact Nat.find_min hend (show i < Nat.find hend by omega) ⟨hsi, .inr hnot⟩
  · rwa [Nat.add_sub_cancel' hlt.le]

theorem exists_run_of_mem (hi : a ≤ i) (hb : i < b) (hp : p i) : ∃ s n, IsRun p a b s n ∧ s ≤ i ∧ i < s + n := by
  induction i, hi using Nat.le_induction with
  | base =>
    obtain ⟨n, hn⟩ := exists_run_at le_rfl hb hp (.inl rfl)
    exact ⟨a, n, hn, le_rfl, by have := hn.pos; omega⟩
  | succ i hi ih =>
    by_cases hprev : p i
    · obtain ⟨s, n, hn, hsi, hlt⟩ := ih (by omega) hprev
      by_cases hin : i + 1 < s + n
      · exact ⟨s, n, hn, by omega, hin⟩
      · rcases hn.after with heq | hstop
        · omega
        · exact absurd hp ((show s + n = i + 1 by omega) ▸ hstop)
    · obtain ⟨n, hn⟩ := exists_run_at (show a ≤ i + 1 by omega) hb hp (.inr hprev)
      exact ⟨i + 1, n, hn, le_rfl, by have := hn.pos; omega⟩

variable [DecidablePred p]

/-- Places where a run starts. -/
def starts (p : ℕ → Prop) [DecidablePred p] (a b : ℕ) : Finset ℕ := {s ∈ Finset.Ico a b | p s ∧ (s = a ∨ ¬ p (s - 1))}

theorem mem_starts : s ∈ starts p a b ↔ ∃ n, IsRun p a b s n := by
  rw [starts, Finset.mem_filter, Finset.mem_Ico]
  constructor
  · rintro ⟨⟨hs, hb⟩, hp, hbefore⟩
    exact exists_run_at hs hb hp hbefore
  · rintro ⟨n, hn⟩
    have := hn.pos
    have := hn.right
    exact ⟨⟨hn.left, by omega⟩, hn.all s le_rfl (by omega), hn.before⟩

theorem runs_ncard (p : ℕ → Prop) [DecidablePred p] (a b : ℕ) : (runs p a b).ncard = (starts p a b).card := by
  have himage : Prod.fst '' runs p a b = starts p a b := by
    ext s
    rw [Finset.mem_coe, mem_starts]
    constructor
    · rintro ⟨⟨s, n⟩, hn, rfl⟩
      exact ⟨n, hn⟩
    · rintro ⟨n, hn⟩
      exact ⟨(s, n), hn, rfl⟩
  have hinj : Set.InjOn Prod.fst (runs p a b) := by
    rintro ⟨s, n⟩ hn ⟨t, m⟩ hm (rfl : s = t)
    have hpos := IsRun.pos hn
    have hpos' := IsRun.pos hm
    exact Prod.ext rfl (IsRun.unique (i := s) hn hm ⟨le_rfl, by simpa using hpos⟩ ⟨le_rfl, by simpa using hpos'⟩).2
  rw [← hinj.ncard_image, himage, Set.ncard_coe_finset]

theorem card_filter_succ (q : ℕ → Prop) [DecidablePred q] (hab : a ≤ b) :
    (Finset.filter q (Finset.Ico a (b + 1))).card = (Finset.filter q (Finset.Ico a b)).card + if q b then 1 else 0 := by
  rw [← Finset.insert_Ico_right_eq_Ico_add_one hab, Finset.filter_insert]
  split_ifs with hq
  · rw [Finset.card_insert_of_notMem (by simp)]
  · rw [Nat.add_zero]

theorem starts_succ (hab : a ≤ b) :
    (starts p a (b + 1)).card = (starts p a b).card + if p b ∧ (b = a ∨ ¬ p (b - 1)) then 1 else 0 :=
  card_filter_succ _ hab

theorem IsRun.subset (h : IsRun p a b s n) : Finset.Ico s (s + n) ⊆ Finset.filter p (Finset.Ico a b) := by
  intro i hi
  rw [Finset.mem_Ico] at hi
  have := h.left
  have := h.right
  exact Finset.mem_filter.2 ⟨Finset.mem_Ico.2 ⟨by omega, by omega⟩, h.all i hi.1 hi.2⟩

theorem IsRun.length_le (h : IsRun p a b s n) : n ≤ (Finset.filter p (Finset.Ico a b)).card := by
  have hcard := Finset.card_le_card h.subset
  rwa [Nat.card_Ico, Nat.add_sub_cancel_left] at hcard

theorem lengths_eq_empty : lengths p a b = ∅ ↔ (Finset.filter p (Finset.Ico a b)).card = 0 := by
  rw [Finset.card_eq_zero, Finset.filter_eq_empty_iff]
  constructor
  · intro hnone i hi hp
    obtain ⟨hle, hlt⟩ := Finset.mem_Ico.1 hi
    obtain ⟨s, n, hn, -⟩ := exists_run_of_mem hle hlt hp
    exact Set.eq_empty_iff_forall_notMem.1 hnone n ⟨s, hn⟩
  · intro hnone
    refine Set.eq_empty_iff_forall_notMem.2 ?_
    rintro n ⟨s, hn⟩
    have hpos := hn.pos
    have := hn.right
    exact hnone (Finset.mem_Ico.2 ⟨hn.left, by omega⟩) (hn.all s le_rfl (by omega))

theorem isShortest_zero_iff : IsShortest p a b 0 ↔ (Finset.filter p (Finset.Ico a b)).card = 0 := by
  rw [← lengths_eq_empty]
  constructor
  · rintro (⟨⟨s, hn⟩, -⟩ | ⟨hnone, -⟩)
    · exact absurd hn.pos (lt_irrefl 0)
    · exact hnone
  · exact fun hnone => .inr ⟨hnone, rfl⟩

theorem isLongest_card_iff : IsLongest p a b (Finset.filter p (Finset.Ico a b)).card ↔ (runs p a b).ncard ≤ 1 := by
  have hfinite : (runs p a b).Finite := by
    refine ((Set.finite_Iic b).prod (Set.finite_Iic b)).subset ?_
    rintro ⟨s, n⟩ hn
    have := IsRun.right hn
    simp only [Set.mem_prod, Set.mem_Iic] at this ⊢
    omega
  rw [Set.ncard_le_one hfinite]
  constructor
  · rintro (⟨⟨s, hn⟩, -⟩ | ⟨hnone, -⟩)
    · -- the run has as many places as there are, so that it has them all
      have hall : Finset.Ico s (s + (Finset.filter p (Finset.Ico a b)).card) = Finset.filter p (Finset.Ico a b) :=
        Finset.eq_of_subset_of_card_le hn.subset (by simp)
      have hone : ∀ r ∈ runs p a b, r = (s, (Finset.filter p (Finset.Ico a b)).card) := by
        rintro ⟨t, m⟩ hm
        have hpos := IsRun.pos hm
        have hleft := IsRun.left hm
        have hright := IsRun.right hm
        have hfirst := IsRun.all hm t le_rfl (by simpa using hpos)
        simp only at hpos hleft hright hfirst
        have hin : t ∈ Finset.Ico s (s + (Finset.filter p (Finset.Ico a b)).card) := by
          rw [hall]
          exact Finset.mem_filter.2 ⟨Finset.mem_Ico.2 ⟨by omega, by omega⟩, hfirst⟩
        obtain ⟨hs, hm'⟩ := IsRun.unique (i := t) hm hn ⟨le_rfl, by simpa using hpos⟩ (Finset.mem_Ico.1 hin)
        exact Prod.ext hs hm'
      intro r hr q hq
      rw [hone r hr, hone q hq]
    · rintro ⟨s, n⟩ hn
      exact absurd ⟨s, hn⟩ (Set.eq_empty_iff_forall_notMem.1 hnone n)
  · intro hone
    by_cases hnone : (Finset.filter p (Finset.Ico a b)).card = 0
    · exact .inr ⟨lengths_eq_empty.2 hnone, hnone⟩
    · obtain ⟨i, hi⟩ := Finset.card_pos.1 (Nat.pos_of_ne_zero hnone)
      rw [Finset.mem_filter, Finset.mem_Ico] at hi
      obtain ⟨s, n, hn, -⟩ := exists_run_of_mem hi.1.1 hi.1.2 hi.2
      have hsub : Finset.filter p (Finset.Ico a b) ⊆ Finset.Ico s (s + n) := by
        intro j hj
        rw [Finset.mem_filter, Finset.mem_Ico] at hj
        obtain ⟨t, m, hm, htj, hjm⟩ := exists_run_of_mem hj.1.1 hj.1.2 hj.2
        obtain ⟨rfl, rfl⟩ := Prod.ext_iff.1 (hone (t, m) hm (s, n) hn)
        exact Finset.mem_Ico.2 ⟨htj, hjm⟩
      have hle := Finset.card_le_card hsub
      rw [Nat.card_Ico, Nat.add_sub_cancel_left] at hle
      have heq : (Finset.filter p (Finset.Ico a b)).card = n := le_antisymm hle hn.length_le
      rw [heq]
      refine .inl ⟨⟨s, hn⟩, ?_⟩
      rintro m ⟨t, hm⟩
      rw [← heq]
      exact hm.length_le

end Fragments

import Mathlib.Algebra.BigOperators.Ring.Finset
import Mathlib.Logic.Relation
import Mathlib.Tactic

/-! Runs of a step relation: what every step preserves, a run preserves. Runs of a
computation that can stop early: it returns when each part returns. Last, what the threads
of a pool hold together, when one of them goes on. -/

namespace Runs

open Relation

variable {σ : Type*} {step : σ → σ → Prop}

theorem invariant {P : σ → Prop} (hstep : ∀ s t, P s → step s t → P t) {s t : σ}
    (hrun : ReflTransGen step s t) (hs : P s) : P t := by
  induction hrun with
  | refl => exact hs
  | tail _ hst ih => exact hstep _ _ ih hst

theorem first_step {P : σ → Prop} {s t : σ} (hrun : ReflTransGen step s t) (hs : ¬ P s) (ht : P t) :
    ∃ a b, ReflTransGen step s a ∧ ¬ P a ∧ step a b ∧ P b ∧ ReflTransGen step b t := by
  induction hrun with
  | refl => exact absurd ht hs
  | @tail b c hrun hstep ih =>
    by_cases hb : P b
    · obtain ⟨a, b', hsa, ha, hab, hb', hbt⟩ := ih hb
      exact ⟨a, b', hsa, ha, hab, hb', hbt.tail hstep⟩
    · exact ⟨b, c, hrun, hb, hstep, ht, .refl⟩

theorem monotone {P : σ → Prop} {R : σ → σ → Prop} (hrefl : ∀ s, R s s)
    (htrans : ∀ {a b c}, R a b → R b c → R a c) (hstep : ∀ s t, P s → step s t → P t ∧ R s t)
    {s t : σ} (hrun : ReflTransGen step s t) (hs : P s) : R s t := by
  have h : P t ∧ R s t := by
    induction hrun with
    | refl => exact ⟨hs, hrefl s⟩
    | tail _ hst ih =>
      obtain ⟨hp, hr⟩ := hstep _ _ ih.1 hst
      exact ⟨hp, htrans ih.2 hr⟩
  exact h.2

/-- Of two parties, the steps of one bring it nearer to its goal and those of the other do
not take it away: if the one goes on for ever, the goal is reached. -/
theorem leads_to {mine theirs goal : σ → σ → Prop} {P : σ → Prop} (work : σ → ℕ)
    (hmine : ∀ s t, P s → mine s t → goal s t ∨ (P t ∧ work t < work s))
    (htheirs : ∀ s t, P s → theirs s t → P t ∧ work t ≤ work s) {run : ℕ → σ}
    (hsteps : ∀ i, mine (run i) (run (i + 1)) ∨ theirs (run i) (run (i + 1)))
    (hfair : ∀ i, ∃ j ≥ i, mine (run j) (run (j + 1))) {i : ℕ} (hi : P (run i)) :
    ∃ j ≥ i, P (run j) ∧ goal (run j) (run (j + 1)) := by
  -- first on the work left, then on the distance to the next step of the one
  induction hw : work (run i) using Nat.strong_induction_on generalizing i with
  | _ w ihwork =>
    obtain ⟨j, hij, hj⟩ := hfair i
    induction hd : j - i generalizing i with
    | zero =>
      obtain rfl : i = j := by omega
      rcases hmine _ _ hi hj with hgoal | ⟨hP, hlt⟩
      · exact ⟨i, le_rfl, hi, hgoal⟩
      · obtain ⟨k, hk, h⟩ := ihwork _ (hw ▸ hlt) hP rfl
        exact ⟨k, by omega, h⟩
    | succ d ih =>
      have hless : ∀ {v : ℕ}, v < w → work (run (i + 1)) = v → P (run (i + 1)) →
          ∃ j ≥ i, P (run j) ∧ goal (run j) (run (j + 1)) := by
        intro v hv hwork hP
        obtain ⟨k, hk, h⟩ := ihwork v hv hP hwork
        exact ⟨k, by omega, h⟩
      rcases hsteps i with hstep | hstep
      · rcases hmine _ _ hi hstep with hgoal | ⟨hP, hlt⟩
        · exact ⟨i, le_rfl, hi, hgoal⟩
        · exact hless (hw ▸ hlt) rfl hP
      · obtain ⟨hP, hle⟩ := htheirs _ _ hi hstep
        rcases hle.lt_or_eq with hlt | heq
        · exact hless (hw ▸ hlt) rfl hP
        · obtain ⟨k, hk, h⟩ := ih hP (heq.trans hw) (by omega) (by omega)
          exact ⟨k, by omega, h⟩

theorem reaches {goal : σ → σ → Prop} {P : σ → Prop} (work : σ → ℕ)
    (hstep : ∀ s, P s → ∃ t, step s t ∧ (goal s t ∨ (P t ∧ work t < work s))) {s : σ} (hs : P s) :
    ∃ t u, ReflTransGen step s t ∧ P t ∧ step t u ∧ goal t u := by
  induction hw : work s using Nat.strong_induction_on generalizing s with
  | _ w ih =>
    obtain ⟨t, hst, hgoal | ⟨hP, hlt⟩⟩ := hstep s hs
    · exact ⟨s, t, .refl, hs, hst, hgoal⟩
    · obtain ⟨u, v, hrun, h⟩ := ih _ (hw ▸ hlt) hP rfl
      exact ⟨u, v, .head hst hrun, h⟩

/-- Runs that show the label of each step and the state after it. -/
def Trace {ρ : Type*} (step : σ → ρ → σ → Prop) : σ → List (ρ × σ) → Prop
  | _, [] => True
  | s, (r, t) :: rest => step s r t ∧ Trace step t rest

theorem Trace.reaches {ρ : Type*} {step : σ → ρ → σ → Prop} {s : σ} {l : List (ρ × σ)} (h : Trace step s l)
    {e : ρ × σ} (he : e ∈ l) : ReflTransGen (fun s t => ∃ r, step s r t) s e.2 := by
  induction l generalizing s with
  | nil => simp at he
  | cons first rest ih =>
    obtain ⟨hstep, hrest⟩ := h
    rcases List.mem_cons.1 he with rfl | he
    · exact .single ⟨_, hstep⟩
    · exact .head ⟨_, hstep⟩ (ih hrest he)

section

variable {ε α β γ : Type}

@[simp] theorem ok_bind (a : α) (f : α → Except ε β) : (Except.ok a >>= f) = f a := rfl

@[simp] theorem error_bind (e : ε) (f : α → Except ε β) : (Except.error e >>= f) = .error e := rfl

theorem bind_eq_ok {x : Except ε α} {f : α → Except ε β} {b : β} :
    (x >>= f) = .ok b ↔ ∃ a, x = .ok a ∧ f a = .ok b := by
  cases x with
  | ok a => simp
  | error e => simp

theorem foldlM_error {f : β → α → Except ε β} {l : List α} {b : β} {e : ε} (h : l.foldlM f b = .error e) :
    ∃ b' a, f b' a = .error e := by
  induction l generalizing b with
  | nil => cases h
  | cons a l ih =>
    rw [List.foldlM_cons] at h
    cases hstep : f b a with
    | error e' =>
      rw [hstep] at h
      cases h
      exact ⟨b, a, hstep⟩
    | ok b' =>
      rw [hstep] at h
      exact ih h

theorem foldlM_congr {f g : β → α → Except ε β} {l : List α} (h : ∀ a ∈ l, ∀ b, f b a = g b a) (b : β) :
    l.foldlM f b = l.foldlM g b := by
  induction l generalizing b with
  | nil => rfl
  | cons a l ih =>
    rw [List.forall_mem_cons] at h
    simp only [List.foldlM_cons, h.1, ih h.2]

theorem foldlM_flatMap (f : β → γ → Except ε β) (g : α → List γ) (l : List α) (b : β) :
    (l.flatMap g).foldlM f b = l.foldlM (fun b a => (g a).foldlM f b) b := by
  induction l generalizing b with
  | nil => rfl
  | cons a l ih => simp only [List.flatMap_cons, List.foldlM_append, List.foldlM_cons, ih]

/-- A fold composes what its steps do, whatever relation is closed under joining the labels of
the steps. -/
theorem foldlM_composes {R : List γ → β → β → Prop} (hnil : ∀ b, R [] b b)
    (happend : ∀ {xs ys a b c}, R xs a b → R ys b c → R (xs ++ ys) a c) {f : β → α → Except ε β} {g : α → List γ}
    {l : List α} (hstep : ∀ a ∈ l, ∀ b, ∃ b', f b a = .ok b' ∧ R (g a) b b') (b : β) :
    ∃ b', l.foldlM f b = .ok b' ∧ R (l.flatMap g) b b' := by
  induction l generalizing b with
  | nil => exact ⟨b, rfl, hnil b⟩
  | cons a l ih =>
    obtain ⟨b1, h1, hr1⟩ := hstep a (by simp) b
    obtain ⟨b2, h2, hr2⟩ := ih (fun x hx => hstep x (by simp [hx])) b1
    rw [List.foldlM_cons, h1, ok_bind, List.flatMap_cons]
    exact ⟨b2, h2, happend hr1 hr2⟩

/-- The loop that returns the first result which is not 0, and 0 when there is none. -/
def firstNonzero (body : α → Except ε ℤ) : List α → Except ε ℤ
  | [] => .ok 0
  | a :: l => do
    let rc ← body a
    if rc ≠ 0 then .ok rc else firstNonzero body l

theorem firstNonzero_eq_zero {body : α → Except ε ℤ} {l : List α} :
    firstNonzero body l = .ok 0 ↔ ∀ a ∈ l, body a = .ok 0 := by
  induction l with
  | nil => exact iff_of_true rfl fun a ha => by cases ha
  | cons a l ih =>
    rw [firstNonzero, bind_eq_ok, List.forall_mem_cons, ← ih]
    constructor
    · rintro ⟨rc, hbody, hrest⟩
      split_ifs at hrest with hrc
      · cases hrest
        exact absurd rfl hrc
      · rw [not_not] at hrc
        exact ⟨hrc ▸ hbody, hrest⟩
    · rintro ⟨hbody, hrest⟩
      exact ⟨0, hbody, hrest⟩

theorem prefix_concat {l L : List α} {x : α} (h : l <+: L) (hx : L[l.length]? = some x) : l ++ [x] <+: L := by
  obtain ⟨r, rfl⟩ := h
  rw [List.getElem?_append_right le_rfl, Nat.sub_self] at hx
  obtain ⟨h0, rfl⟩ := List.getElem?_eq_some_iff.1 hx
  refine ⟨r.tail, ?_⟩
  rw [List.append_assoc, List.singleton_append, ← List.head_eq_getElem_zero (List.ne_nil_of_length_pos h0),
    List.cons_head_tail]

end

end Runs

namespace Threads

open Finset

variable {T σ : Type*} [Fintype T]

/-- The sum over the threads of what each holds. -/
def total (held : σ → ℕ) (pc : T → σ) : ℕ := ∑ t, held (pc t)

theorem le_total (held : σ → ℕ) (pc : T → σ) (t : T) : held (pc t) ≤ total held pc :=
  single_le_sum (f := fun t => held (pc t)) (fun _ _ => Nat.zero_le _) (mem_univ t)

theorem total_eq_zero {held : σ → ℕ} {pc : T → σ} (h : ∀ t, held (pc t) = 0) : total held pc = 0 :=
  sum_eq_zero fun t _ => h t

variable [DecidableEq T]

theorem total_update (held : σ → ℕ) (pc : T → σ) (t : T) (x : σ) :
    total held (Function.update pc t x) + held (pc t) = total held pc + held x := by
  have hothers : ∑ u ∈ univ.erase t, held (Function.update pc t x u) = ∑ u ∈ univ.erase t, held (pc u) := by
    apply sum_congr rfl
    intro u hu
    rw [Function.update_of_ne (ne_of_mem_erase hu)]
  rw [total, total, ← add_sum_erase _ _ (mem_univ t), ← add_sum_erase _ (fun u => held (pc u)) (mem_univ t), hothers,
    Function.update_self]
  omega

end Threads

import Famfs.Lib.Runs

/-! Computations that leave a trace of what they touch. A computation that stops keeps the trace
up to there, so that a bound on the trace says nothing of what it never reached. -/

structure Traced (α ε β : Type) where
  trace : List α
  result : Except ε β

namespace Traced

variable {α ε β γ δ : Type}

def chain (x : Traced α ε β) (f : β → Traced α ε γ) : Traced α ε γ :=
  match x.result with
  | .ok b => ⟨x.trace ++ (f b).trace, (f b).result⟩
  | .error e => ⟨x.trace, .error e⟩

instance : Monad (Traced α ε) where
  pure b := ⟨[], .ok b⟩
  bind := chain

/-- Touching is all it does. -/
def touch (as : List α) : Traced α ε Unit := ⟨as, .ok ()⟩

/-- Nothing is touched. -/
def lift (x : Except ε β) : Traced α ε β := ⟨[], x⟩

/-- Everything that is touched satisfies `P`. -/
def Within (P : α → Prop) (x : Traced α ε β) : Prop := ∀ a ∈ x.trace, P a

def Returns (x : Traced α ε β) : Prop := ∃ b, x.result = .ok b

theorem eq_of_parts {x y : Traced α ε β} (htrace : x.trace = y.trace) (hresult : x.result = y.result) : x = y := by
  cases x
  cases y
  cases htrace
  cases hresult
  rfl

@[simp] theorem result_pure (b : β) : (pure b : Traced α ε β).result = .ok b := rfl

@[simp] theorem result_touch (as : List α) : (touch as : Traced α ε Unit).result = .ok () := rfl

@[simp] theorem result_lift (x : Except ε β) : (lift x : Traced α ε β).result = x := rfl

@[simp] theorem result_bind (x : Traced α ε β) (f : β → Traced α ε γ) :
    (x >>= f).result = x.result >>= fun b => (f b).result := by
  change (chain x f).result = _
  unfold chain
  cases x.result <;> rfl

theorem result_foldlM (f : β → δ → Traced α ε β) (l : List δ) (b : β) :
    (l.foldlM f b).result = l.foldlM (fun b a => (f b a).result) b := by
  induction l generalizing b with
  | nil => rfl
  | cons a l ih => simp only [List.foldlM_cons, result_bind, ih]

section

variable {P : α → Prop}

@[simp] theorem within_pure (b : β) : Within P (pure b : Traced α ε β) := fun _ ha => absurd ha List.not_mem_nil

@[simp] theorem within_lift (x : Except ε β) : Within P (lift x : Traced α ε β) := fun _ ha => absurd ha List.not_mem_nil

theorem within_bind {x : Traced α ε β} {f : β → Traced α ε γ} :
    Within P (x >>= f) ↔ Within P x ∧ ∀ b, x.result = .ok b → Within P (f b) := by
  change Within P (chain x f) ↔ _
  unfold chain Within
  cases x.result with
  | ok b => simp [List.mem_append, or_imp, forall_and]
  | error e => simp

@[simp] theorem within_touch_bind (as : List α) (f : Unit → Traced α ε γ) :
    Within P (touch as >>= f) ↔ (∀ a ∈ as, P a) ∧ Within P (f ()) := by
  rw [within_bind]
  exact and_congr_right fun _ => ⟨fun h => h () rfl, fun h _ _ => h⟩

@[simp] theorem within_lift_bind (x : Except ε β) (f : β → Traced α ε γ) :
    Within P (lift x >>= f) ↔ ∀ b, x = .ok b → Within P (f b) := by
  rw [within_bind]
  simp

end

/-- `good` holds of the elements up to the first one that is not `ok`, which it holds of too. -/
def UpTo (ok good : δ → Prop) : List δ → Prop
  | [] => True
  | a :: l => good a ∧ (ok a → UpTo ok good l)

section

variable {ok good : δ → Prop}

theorem upTo_append {l m : List δ} :
    UpTo ok good (l ++ m) ↔ UpTo ok good l ∧ ((∀ a ∈ l, ok a) → UpTo ok good m) := by
  induction l with
  | nil => simp [UpTo]
  | cons a l ih =>
    simp only [List.cons_append, UpTo, ih, List.forall_mem_cons]
    tauto

theorem upTo_range {ok good : ℕ → Prop} {n : ℕ} :
    UpTo ok good (List.range n) ↔ ∀ i < n, (∀ k < i, ok k) → good i := by
  induction n with
  | zero => simp [UpTo]
  | succ n ih =>
    rw [List.range_succ, upTo_append, ih]
    simp only [UpTo, List.mem_range, implies_true, and_true, Nat.lt_succ_iff_lt_or_eq, or_imp, forall_and, forall_eq]

theorem returns_foldlM {f : β → δ → Traced α ε β} {l : List δ} (hok : ∀ a ∈ l, ∀ b, (f b a).Returns ↔ ok a) (b : β) :
    (l.foldlM f b).Returns ↔ ∀ a ∈ l, ok a := by
  induction l generalizing b with
  | nil => exact iff_of_true ⟨b, rfl⟩ (by simp)
  | cons a l ih =>
    have ih := ih fun x hx => hok x (List.mem_cons_of_mem a hx)
    have ha := hok a List.mem_cons_self b
    simp only [Returns, List.foldlM_cons, result_bind, Runs.bind_eq_ok, List.forall_mem_cons] at ih ha ⊢
    constructor
    · rintro ⟨c, b', hb', hc⟩
      exact ⟨ha.1 ⟨b', hb'⟩, (ih b').1 ⟨c, hc⟩⟩
    · rintro ⟨ha', hl⟩
      obtain ⟨b', hb'⟩ := ha.2 ha'
      obtain ⟨c, hc⟩ := (ih b').2 hl
      exact ⟨c, b', hb', hc⟩

/-- If what an element touches and whether the loop goes on after it do not depend on the state,
the loop stays within a bound when its elements do, up to the one where it stops. -/
theorem within_foldlM {P : α → Prop} {f : β → δ → Traced α ε β} {l : List δ}
    (hok : ∀ a ∈ l, ∀ b, (f b a).Returns ↔ ok a) (hgood : ∀ a ∈ l, ∀ b, Within P (f b a) ↔ good a) (b : β) :
    Within P (l.foldlM f b) ↔ UpTo ok good l := by
  induction l generalizing b with
  | nil => exact iff_of_true (within_pure b) trivial
  | cons a l ih =>
    have ih := ih (fun x hx => hok x (List.mem_cons_of_mem a hx)) fun x hx => hgood x (List.mem_cons_of_mem a hx)
    rw [List.foldlM_cons, within_bind, UpTo, hgood a List.mem_cons_self, ← hok a List.mem_cons_self b]
    refine and_congr_right fun _ => ?_
    constructor
    · rintro h ⟨b', hb'⟩
      exact (ih b').1 (h b' hb')
    · intro h b' hb'
      exact (ih b').2 (h ⟨b', hb'⟩)

end

end Traced

import Famfs.Lib.Traced

/-! Loops that are given fuel and hand it on to the loops they call. More fuel only adds to what
such a loop does, so that it does what its turns do one after the other: it stays within a bound
when each turn it comes to does, and it returns what the turn returns that ends it. -/

namespace Loops

open Relation Traced

variable {α ε β γ S R : Type}

/-- `x` is `y`, or it ran out of fuel on the way. -/
def Extends (x y : Traced α ε (Option β)) : Prop := x = y ∨ (x.result = .ok none ∧ x.trace <+: y.trace)

/-- `f` goes on where `x` did not run out of fuel. -/
def andThen (x : Traced α ε (Option β)) (f : β → Traced α ε (Option γ)) : Traced α ε (Option γ) :=
  x >>= fun
    | none => pure none
    | some b => f b

theorem Extends.refl (x : Traced α ε (Option β)) : Extends x x := Or.inl rfl

theorem Extends.trans {x y z : Traced α ε (Option β)} (hxy : Extends x y) (hyz : Extends y z) : Extends x z := by
  rcases hxy with rfl | ⟨hx, htrace⟩
  · exact hyz
  · rcases hyz with rfl | ⟨-, htrace'⟩
    · exact Or.inr ⟨hx, htrace⟩
    · exact Or.inr ⟨hx, htrace.trans htrace'⟩

theorem Extends.within {P : α → Prop} {x y : Traced α ε (Option β)} (h : Extends x y) (hy : Within P y) : Within P x := by
  rcases h with rfl | ⟨-, htrace⟩
  · exact hy
  · exact fun a ha => hy a (htrace.subset ha)

theorem Extends.result {x y : Traced α ε (Option β)} (h : Extends x y) (hx : x.result ≠ .ok none) :
    y.result = x.result := by
  rcases h with rfl | ⟨hnone, -⟩
  · rfl
  · exact absurd hnone hx

section

variable {x : Traced α ε (Option β)} {f : β → Traced α ε (Option γ)}

theorem andThen_of_some {b : β} (h : x.result = .ok (some b)) :
    (andThen x f).trace = x.trace ++ (f b).trace ∧ (andThen x f).result = (f b).result := by
  change (chain x _).trace = _ ∧ (chain x _).result = _
  unfold chain
  rw [h]
  exact ⟨rfl, rfl⟩

theorem andThen_of_none (h : x.result = .ok none) :
    (andThen x f).trace = x.trace ∧ (andThen x f).result = .ok none := by
  change (chain x _).trace = _ ∧ (chain x _).result = _
  unfold chain
  rw [h]
  exact ⟨List.append_nil _, rfl⟩

theorem andThen_of_error {e : ε} (h : x.result = .error e) :
    (andThen x f).trace = x.trace ∧ (andThen x f).result = .error e := by
  change (chain x _).trace = _ ∧ (chain x _).result = _
  unfold chain
  rw [h]
  exact ⟨rfl, rfl⟩

theorem result_andThen :
    (andThen x f).result = x.result >>= fun o => o.elim (.ok none) fun b => (f b).result := by
  rcases hx : x.result with e | (_ | b)
  · exact (andThen_of_error hx).2
  · exact (andThen_of_none hx).2
  · exact (andThen_of_some hx).2

theorem andThen_eq_some {c : γ} :
    (andThen x f).result = .ok (some c) ↔ ∃ b, x.result = .ok (some b) ∧ (f b).result = .ok (some c) := by
  rw [result_andThen, Runs.bind_eq_ok]
  constructor
  · rintro ⟨_ | b, hx, hf⟩
    · cases hf
    · exact ⟨b, hx, hf⟩
  · rintro ⟨b, hx, hf⟩
    exact ⟨some b, hx, hf⟩

theorem andThen_ne_none (hx : x.result ≠ .ok none) (hf : ∀ b, (f b).result ≠ .ok none) :
    (andThen x f).result ≠ .ok none := by
  rcases hresult : x.result with e | (_ | b)
  · rw [(andThen_of_error hresult).2]
    simp
  · exact absurd hresult hx
  · rw [(andThen_of_some hresult).2]
    exact hf b

theorem within_andThen {P : α → Prop} :
    Within P (andThen x f) ↔ Within P x ∧ ∀ b, x.result = .ok (some b) → Within P (f b) := by
  unfold andThen
  rw [within_bind]
  refine and_congr_right fun _ => ⟨fun h b hb => h (some b) hb, ?_⟩
  rintro h (_ | b) hb
  · exact within_pure _
  · exact h b hb

theorem Extends.andThen {y : Traced α ε (Option β)} {g : β → Traced α ε (Option γ)} (h : Extends x y)
    (hfg : ∀ b, Extends (f b) (g b)) : Extends (Loops.andThen x f) (Loops.andThen y g) := by
  rcases h with rfl | ⟨hx, htrace⟩
  · rcases hx : x.result with e | (_ | b)
    · obtain ⟨hf, hf'⟩ := andThen_of_error (f := f) hx
      obtain ⟨hg, hg'⟩ := andThen_of_error (f := g) hx
      exact Or.inl (eq_of_parts (hf.trans hg.symm) (hf'.trans hg'.symm))
    · exact Or.inr ⟨(andThen_of_none hx).2, by rw [(andThen_of_none hx).1, (andThen_of_none hx).1]⟩
    · obtain ⟨hf, hf'⟩ := andThen_of_some (f := f) hx
      obtain ⟨hg, hg'⟩ := andThen_of_some (f := g) hx
      rcases hfg b with heq | ⟨hnone, hb⟩
      · exact Or.inl (eq_of_parts (by rw [hf, hg, heq]) (by rw [hf', hg', heq]))
      · refine Or.inr ⟨hf'.trans hnone, ?_⟩
        rw [hf, hg]
        exact (List.prefix_append_right_inj _).2 hb
  · refine Or.inr ⟨(andThen_of_none hx).2, ?_⟩
    rw [(andThen_of_none hx).1]
    refine htrace.trans ?_
    change _ <+: (chain y _).trace
    unfold chain
    cases y.result with
    | error e => exact List.prefix_rfl
    | ok b => exact List.prefix_append _ _

end

/-- A loop by its turns: a turn runs out of fuel, leads to the next state or ends the loop. -/
def loop (turn : ℕ → S → Traced α ε (Option (S ⊕ R))) : ℕ → S → Traced α ε (Option R)
  | 0, _ => pure none
  | fuel + 1, s => andThen (turn fuel s) (Sum.elim (loop turn fuel) fun r => pure (some r))

section

variable (turn : ℕ → S → Traced α ε (Option (S ⊕ R)))

def Mono : Prop := ∀ fuel s, Extends (turn fuel s) (turn (fuel + 1) s)

def Goes (s t : S) : Prop := ∃ fuel, (turn fuel s).result = .ok (some (.inl t))

def Ends (s : S) (r : R) : Prop := ∃ fuel, (turn fuel s).result = .ok (some (.inr r))

def Halts (s : S) : Prop := ∃ fuel, (loop turn fuel s).result ≠ .ok none

end

section

variable {turn : ℕ → S → Traced α ε (Option (S ⊕ R))}

theorem turn_le (hmono : Mono turn) {m n : ℕ} (h : m ≤ n) (s : S) : Extends (turn m s) (turn n s) := by
  induction h with
  | refl => exact .refl _
  | step _ ih => exact ih.trans (hmono _ s)

theorem loop_mono (hmono : Mono turn) (fuel : ℕ) (s : S) : Extends (loop turn fuel s) (loop turn (fuel + 1) s) := by
  induction fuel generalizing s with
  | zero => exact Or.inr ⟨rfl, List.nil_prefix⟩
  | succ fuel ih =>
    refine (hmono fuel s).andThen ?_
    rintro (t | r)
    · exact ih t
    · exact .refl _

theorem loop_le (hmono : Mono turn) {m n : ℕ} (h : m ≤ n) (s : S) : Extends (loop turn m s) (loop turn n s) := by
  induction h with
  | refl => exact .refl _
  | step _ ih => exact ih.trans (loop_mono hmono _ s)

theorem loop_goes (hmono : Mono turn) {s t : S} (h : Goes turn s t) :
    ∃ need, ∀ fuel ≥ need, (loop turn (fuel + 1) s).result = (loop turn fuel t).result ∧
      ∀ P : α → Prop, Within P (loop turn (fuel + 1) s) → Within P (loop turn fuel t) := by
  obtain ⟨need, hturn⟩ := h
  refine ⟨need, fun fuel hfuel => ?_⟩
  have hmore : (turn fuel s).result = .ok (some (.inl t)) :=
    ((turn_le hmono hfuel s).result (by rw [hturn]; simp)).trans hturn
  refine ⟨(andThen_of_some hmore).2, fun P hP => ?_⟩
  exact (within_andThen.1 hP).2 _ hmore

theorem within_loop_iff (hmono : Mono turn) {P : α → Prop} {s : S} :
    (∀ fuel, Within P (loop turn fuel s)) ↔
      ∀ t, ReflTransGen (Goes turn) s t → ∀ fuel, Within P (turn fuel t) := by
  constructor
  · intro h t hrun
    -- what the loop does from a state that it comes to is part of what it does
    have hstep : ∀ s t, (∀ fuel, Within P (loop turn fuel s)) → Goes turn s t → ∀ fuel, Within P (loop turn fuel t) := by
      intro s t hs hst fuel
      obtain ⟨need, hneed⟩ := loop_goes hmono hst
      have hmore := (hneed (max need fuel) (Nat.le_max_left _ _)).2 P (hs _)
      exact (loop_le hmono (Nat.le_max_right need fuel) t).within hmore
    have ht := Runs.invariant hstep hrun h
    exact fun fuel => (within_andThen.1 (ht (fuel + 1))).1
  · intro h fuel
    induction fuel generalizing s with
    | zero => exact within_pure _
    | succ fuel ih =>
      refine within_andThen.2 ⟨h s .refl fuel, ?_⟩
      rintro (t | r) ht
      · exact ih fun u hu => h u (.head ⟨fuel, ht⟩ hu)
      · exact within_pure _

theorem loop_ends_iff (hmono : Mono turn) {s : S} {r : R} :
    (∃ fuel, (loop turn fuel s).result = .ok (some r)) ↔ ∃ t, ReflTransGen (Goes turn) s t ∧ Ends turn t r := by
  constructor
  · rintro ⟨fuel, h⟩
    induction fuel generalizing s with
    | zero => cases h
    | succ fuel ih =>
      obtain ⟨t | r', hturn, hrest⟩ := andThen_eq_some.1 h
      · obtain ⟨u, hrun, hends⟩ := ih hrest
        exact ⟨u, .head ⟨fuel, hturn⟩ hrun, hends⟩
      · obtain rfl : r' = r := by simpa using hrest
        exact ⟨s, .refl, fuel, hturn⟩
  · rintro ⟨t, hrun, fuel, hends⟩
    induction hrun using ReflTransGen.head_induction_on with
    | refl => exact ⟨fuel + 1, andThen_eq_some.2 ⟨_, hends, rfl⟩⟩
    | head hst _ ih =>
      obtain ⟨fuel', hloop⟩ := ih
      obtain ⟨need, hneed⟩ := loop_goes hmono hst
      refine ⟨max need fuel' + 1, (hneed _ (Nat.le_max_left _ _)).1.trans ?_⟩
      exact ((loop_le hmono (Nat.le_max_right need fuel') _).result (by rw [hloop]; simp)).trans hloop

theorem loop_unique (hmono : Mono turn) {s : S} {m n : ℕ} {r r' : R} (hm : (loop turn m s).result = .ok (some r))
    (hn : (loop turn n s).result = .ok (some r')) : r = r' := by
  have h1 := (loop_le hmono (Nat.le_max_left m n) s).result (by rw [hm]; simp)
  have h2 := (loop_le hmono (Nat.le_max_right m n) s).result (by rw [hn]; simp)
  rw [h1, hm, hn] at h2
  simpa using h2

theorem halts_of_goes (hmono : Mono turn) {s t : S} (h : Goes turn s t) : Halts turn s ↔ Halts turn t := by
  obtain ⟨need, hneed⟩ := loop_goes hmono h
  constructor
  · rintro ⟨fuel, hfuel⟩
    refine ⟨max need fuel, ?_⟩
    rw [← (hneed _ (Nat.le_max_left _ _)).1, (loop_le hmono (by omega) s).result hfuel]
    exact hfuel
  · rintro ⟨fuel, hfuel⟩
    refine ⟨max need fuel + 1, ?_⟩
    rw [(hneed _ (Nat.le_max_left _ _)).1, (loop_le hmono (Nat.le_max_right need fuel) t).result hfuel]
    exact hfuel

theorem halts_of_run (hmono : Mono turn) {s t : S} (h : ReflTransGen (Goes turn) s t) : Halts turn s ↔ Halts turn t := by
  induction h with
  | refl => exact Iff.rfl
  | tail _ hst ih => exact ih.trans (halts_of_goes hmono hst)

theorem not_halts_of_idle {s : S} (h : ∀ fuel, (turn fuel s).result = .ok (some (.inl s))) : ¬ Halts turn s := by
  rintro ⟨fuel, hfuel⟩
  induction fuel with
  | zero => exact hfuel rfl
  | succ fuel ih =>
    refine ih ?_
    rwa [loop, (andThen_of_some (h fuel)).2] at hfuel

theorem halts_of_turn (hmono : Mono turn) {s : S} (hturn : ∃ fuel, (turn fuel s).result ≠ .ok none)
    (hnext : ∀ t, Goes turn s t → Halts turn t) : Halts turn s := by
  obtain ⟨fuel, hfuel⟩ := hturn
  rcases hresult : (turn fuel s).result with e | (_ | (t | r))
  · exact ⟨fuel + 1, by rw [loop, (andThen_of_error hresult).2]; simp⟩
  · exact absurd hresult hfuel
  · exact (halts_of_goes hmono ⟨fuel, hresult⟩).2 (hnext t ⟨fuel, hresult⟩)
  · exact ⟨fuel + 1, by rw [loop, (andThen_of_some hresult).2]; simp⟩

end

end Loops

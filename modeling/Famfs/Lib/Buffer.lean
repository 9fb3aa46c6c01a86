import Famfs.Lib.Records

/-! A buffer of bytes with little-endian fields. A store changes the bytes of its field
only; a row of records is stored one after the other, each within its own bytes. -/

namespace Buffer

open Records

abbrev Buf := ℕ → UInt8

/-- A field of `k` bytes; what does not fit is cut off. -/
def store (buf : Buf) (off k v : ℕ) : Buf := fun i =>
  if off ≤ i ∧ i < off + k then UInt8.ofNat (v / 256 ^ (i - off)) else buf i

def load (buf : Buf) (off k : ℕ) : ℕ := leNat ((List.range k).map fun i => buf (off + i))

/-- Equal bytes from `off` on, `k` of them. -/
def Agree (a b : Buf) (off k : ℕ) : Prop := ∀ i, off ≤ i → i < off + k → a i = b i

theorem load_congr {a b : Buf} {off k : ℕ} (h : Agree a b off k) : load a off k = load b off k := by
  unfold load
  congr 1
  apply List.map_congr_left
  intro i hi
  exact h (off + i) (by omega) (by have := List.mem_range.1 hi; omega)

theorem Agree.mono {a b : Buf} {off k off' k' : ℕ} (h : Agree a b off k) (hoff : off ≤ off')
    (hend : off' + k' ≤ off + k) : Agree a b off' k' :=
  fun i hi hlt => h i (by omega) (by omega)

theorem Agree.trans {a b c : Buf} {off k : ℕ} (hab : Agree a b off k) (hbc : Agree b c off k) : Agree a c off k :=
  fun i hi hlt => (hab i hi hlt).trans (hbc i hi hlt)

theorem store_agree (buf : Buf) {off k off' k' : ℕ} (h : off + k ≤ off' ∨ off' + k' ≤ off) (v : ℕ) :
    Agree (store buf off k v) buf off' k' := by
  intro i hi hlt
  exact if_neg (by omega)

theorem store_congr {a b : Buf} {off' k' : ℕ} (h : Agree a b off' k') (off k v : ℕ) :
    Agree (store a off k v) (store b off k v) off' k' := by
  intro i hi hlt
  unfold store
  split_ifs
  · rfl
  · exact h i hi hlt

theorem load_store (buf : Buf) (off k v : ℕ) : load (store buf off k v) off k = v % 256 ^ k := by
  rw [← leNat_digits k v]
  unfold load
  congr 1
  apply List.map_congr_left
  intro i hi
  have hlt := List.mem_range.1 hi
  unfold store
  rw [if_pos (by omega), Nat.add_sub_cancel_left]

theorem load_store_of_disjoint (buf : Buf) {off k off' k' : ℕ} (h : off + k ≤ off' ∨ off' + k' ≤ off) (v : ℕ) :
    load (store buf off k v) off' k' = load buf off' k' :=
  load_congr (store_agree buf h v)

theorem load_add (buf : Buf) (off k l : ℕ) : load buf off (k + l) = load buf off k + 256 ^ k * load buf (off + k) l := by
  unfold load leNat
  rw [List.range_add, List.map_append, List.map_append, Nat.ofDigits_append, List.length_map, List.length_map,
    List.length_range, List.map_map, List.map_map]
  congr 3
  simp only [List.map_map]
  congr 1
  funext i
  simp only [Function.comp_apply, Nat.add_assoc]

section

variable {α : Type} {w : ℕ}

/-- How a record is put into a buffer: it keeps to its `w` bytes, and what it leaves there
depends on them only. -/
structure Writes (put : Buf → ℕ → α → Buf) (w : ℕ) : Prop where
  outside : ∀ buf off x off' k', off + w ≤ off' ∨ off' + k' ≤ off → Agree (put buf off x) buf off' k'
  inside : ∀ a b off x, Agree a b off w → Agree (put a off x) (put b off x) off w

def putRow (put : Buf → ℕ → α → Buf) (w : ℕ) : Buf → ℕ → List α → Buf
  | buf, _, [] => buf
  | buf, off, x :: xs => putRow put w (put buf off x) (off + w) xs

variable {put : Buf → ℕ → α → Buf}

theorem putRow_before (hput : Writes put w) {xs : List α} {buf : Buf} {off off' k' : ℕ} (h : off' + k' ≤ off) :
    Agree (putRow put w buf off xs) buf off' k' := by
  induction xs generalizing buf off with
  | nil => exact fun _ _ _ => rfl
  | cons x xs ih => exact (ih (by omega)).trans (hput.outside buf off x off' k' (Or.inr h))

theorem putRow_get (hput : Writes put w) (buf : Buf) (off : ℕ) {xs : List α} {j : ℕ} {x : α} (hj : xs[j]? = some x) :
    Agree (putRow put w buf off xs) (put buf (off + w * j) x) (off + w * j) w := by
  induction xs generalizing buf off j with
  | nil => simp at hj
  | cons y ys ih =>
    cases j with
    | zero =>
      simp only [List.getElem?_cons_zero, Option.some.injEq] at hj
      rw [hj, Nat.mul_zero, Nat.add_zero]
      exact putRow_before hput (le_refl (off + w))
    | succ j =>
      have hoff : off + w * (j + 1) = off + w + w * j := by ring
      rw [hoff]
      refine (ih _ _ (by simpa using hj)).trans (hput.inside _ _ _ _ ?_)
      exact hput.outside buf off y _ _ (Or.inl (by omega))

end

end Buffer

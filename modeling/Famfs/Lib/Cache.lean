import Mathlib.Logic.Function.Basic

/-! Memory behind a cache that is not kept coherent: a line stays as it was loaded until the
processor drops it, whatever another node has written to the memory behind it. -/

namespace Cache

structure Memory (A V : Type) where
  mem : A → V
  cache : A → Option V

namespace Memory

variable {A V : Type} [DecidableEq A] (m : Memory A V) {a b : A}

/-- What a load returns. -/
def seen (m : Memory A V) (a : A) : V := (m.cache a).getD (m.mem a)

def load (m : Memory A V) (a : A) : V × Memory A V :=
  (m.seen a, { m with cache := Function.update m.cache a (some (m.seen a)) })

/-- The line is written back if this processor has written it, and dropped. -/
def invalidate (m : Memory A V) (a : A) : Memory A V := { m with cache := Function.update m.cache a none }

/-- A store to a line that no other node writes. -/
def store (m : Memory A V) (a : A) (v : V) : Memory A V :=
  ⟨Function.update m.mem a v, Function.update m.cache a (some v)⟩

@[simp] theorem load_fst (a : A) : (m.load a).1 = m.seen a := rfl

@[simp] theorem load_mem (a : A) : (m.load a).2.mem = m.mem := rfl

@[simp] theorem load_seen (a b : A) : (m.load a).2.seen b = m.seen b := by
  by_cases hb : b = a
  · subst hb
    simp [load, seen]
  · simp [load, seen, Function.update_of_ne hb]

@[simp] theorem invalidate_mem (a : A) : (m.invalidate a).mem = m.mem := rfl

@[simp] theorem invalidate_seen (a : A) : (m.invalidate a).seen a = m.mem a := by
  simp [invalidate, seen]

theorem invalidate_seen_of_ne (h : b ≠ a) : (m.invalidate a).seen b = m.seen b := by
  simp [invalidate, seen, Function.update_of_ne h]

@[simp] theorem store_mem (a : A) (v : V) : (m.store a v).mem a = v := Function.update_self _ _ _

@[simp] theorem store_seen (a : A) (v : V) : (m.store a v).seen a = v := by
  simp [store, seen]

end Memory

end Cache

import Mathlib.Data.List.Nodup
import Mathlib.Logic.Function.Basic
import Mathlib.Tactic

/-! Circular doubly linked lists through a root: following `next` from the root goes
through the members in order and back to it, and `prev` the other way round. -/

namespace Links

variable {α : Type*}

structure IsRing (next prev : α → α) (root : α) (L : List α) : Prop where
  next_eq : (root :: L).map next = L ++ [root]
  prev_eq : (L ++ [root]).map prev = root :: L
  nodup : (root :: L).Nodup

variable {next prev : α → α} {root : α} {L A B : List α}

theorem IsRing.next_mem (h : IsRing next prev root L) {a : α} (ha : a ∈ root :: L) : next a ∈ root :: L := by
  have hmem : next a ∈ L ++ [root] := h.next_eq ▸ List.mem_map_of_mem ha
  simpa [or_comm] using hmem

theorem IsRing.prev_mem (h : IsRing next prev root L) {a : α} (ha : a ∈ root :: L) : prev a ∈ root :: L := by
  have hmem : a ∈ L ++ [root] := by simpa [or_comm] using ha
  exact h.prev_eq ▸ List.mem_map_of_mem hmem

theorem IsRing.next_split (h : IsRing next prev root (A ++ B)) : next (A.getLastD root) = B.headD root := by
  have heq := h.next_eq
  rw [← List.cons_append, List.map_append, List.append_assoc] at heq
  have hB : B.map next = (B ++ [root]).tail ∧ (root :: A).map next = A ++ [B.headD root] := by
    cases B with
    | nil => simpa using heq
    | cons b B =>
      have hcons : A ++ (b :: B ++ [root]) = (A ++ [b]) ++ (B ++ [root]) := by simp
      rw [hcons] at heq
      obtain ⟨hA, hB⟩ := List.append_inj heq (by simp)
      exact ⟨hB, hA⟩
  have hlast : ((root :: A).map next).getLast? = some (B.headD root) := by
    rw [hB.2, List.getLast?_concat]
  rw [List.getLast?_map, List.getLast?_cons] at hlast
  simpa [List.getLastD_eq_getLast?] using hlast

theorem isRing_nil (hnext : next root = root) (hprev : prev root = root) : IsRing next prev root [] :=
  ⟨by simp [hnext], by simp [hprev], by simp⟩

variable [DecidableEq α]

theorem map_update_of_notMem {β : Type*} (f : α → β) {a : α} {l : List α} (ha : a ∉ l) (b : β) :
    l.map (Function.update f a b) = l.map f := by
  apply List.map_congr_left
  intro c hc
  exact Function.update_of_ne (fun heq : c = a => ha (heq ▸ hc)) _ _

theorem IsRing.insert (h : IsRing next prev root L) {x : α} (hx : x ∉ root :: L) :
    IsRing (Function.update (Function.update next x (next root)) root x)
      (Function.update (Function.update prev (next root) x) x root) root (x :: L) := by
  have hxr : x ≠ root := fun heq => hx (heq ▸ List.mem_cons_self)
  have hxL : x ∉ L := fun hmem => hx (List.mem_cons_of_mem _ hmem)
  have hrL : root ∉ L := (List.nodup_cons.1 h.nodup).1
  have hnext := h.next_eq
  rw [List.map_cons] at hnext
  refine ⟨?_, ?_, List.nodup_cons.2 ⟨?_, List.nodup_cons.2 ⟨hxL, (List.nodup_cons.1 h.nodup).2⟩⟩⟩
  · rw [List.map_cons, List.map_cons, Function.update_self, Function.update_of_ne hxr, Function.update_self,
      map_update_of_notMem _ hrL, map_update_of_notMem _ hxL, hnext]
    rfl
  · -- the old first member, or the root, comes after the new one
    obtain ⟨M, hM⟩ : ∃ M, L ++ [root] = next root :: M := ⟨_, hnext.symm⟩
    have hnodup : (next root :: M).Nodup := by
      rw [← hM, List.nodup_append_comm]
      exact h.nodup
    have hxM : x ∉ next root :: M := by
      rw [← hM]
      simp [hxL, hxr]
    have hprev := h.prev_eq
    rw [hM, List.map_cons] at hprev
    rw [List.cons_append, hM, List.map_cons, Function.update_self, map_update_of_notMem _ hxM, List.map_cons,
      Function.update_self, map_update_of_notMem _ (List.nodup_cons.1 hnodup).1, (List.cons.inj hprev).2]
  · simp [hxr.symm, hrL]

theorem IsRing.unlink {x : α} (h : IsRing next prev root (A ++ x :: B)) :
    IsRing (Function.update next (prev x) (next x)) (Function.update prev (next x) (prev x)) root (A ++ B) := by
  have hnext : (root :: A).map next = A ++ [x] ∧ (x :: B).map next = B ++ [root] := by
    have heq := h.next_eq
    rw [← List.cons_append, List.map_append, show A ++ x :: B ++ [root] = (A ++ [x]) ++ (B ++ [root]) by simp] at heq
    exact List.append_inj heq (by simp)
  have hprev : (A ++ [x]).map prev = root :: A ∧ (B ++ [root]).map prev = x :: B := by
    have heq := h.prev_eq
    rw [show A ++ x :: B ++ [root] = (A ++ [x]) ++ (B ++ [root]) by simp, List.map_append,
      ← List.cons_append] at heq
    exact List.append_inj heq (by simp)
  have hnodup := h.nodup
  rw [← List.cons_append, List.nodup_append] at hnodup
  obtain ⟨hA, hxB, hdisj⟩ := hnodup
  -- the members before, whose last is `prev x`, and those after, whose first is `next x`
  have hbefore : root :: A = A.map prev ++ [prev x] := by rw [← hprev.1, List.map_append, List.map_singleton]
  have hafter : B ++ [root] = next x :: B.map next := by rw [← hnext.2, List.map_cons]
  have hfst := hnext.1
  rw [hbefore, List.map_append, List.map_singleton] at hfst
  have hsnd := hprev.2
  rw [hafter, List.map_cons] at hsnd
  have hp : prev x ∉ A.map prev := by
    rw [hbefore, List.nodup_append] at hA
    exact fun hmem => hA.2.2 _ hmem _ (List.mem_singleton_self _) rfl
  have hpB : prev x ∉ B := fun hmem =>
    hdisj (prev x) (hbefore ▸ List.mem_append_right _ (List.mem_singleton_self _)) _ (List.mem_cons_of_mem _ hmem) rfl
  have hn : next x ∉ B.map next := by
    have hnodup : (B ++ [root]).Nodup := by
      refine List.nodup_append.2 ⟨(List.nodup_cons.1 hxB).2, List.nodup_singleton _, fun a ha b hb => ?_⟩
      rw [List.mem_singleton.1 hb]
      exact fun heq => hdisj root List.mem_cons_self a (List.mem_cons_of_mem _ ha) heq.symm
    rw [hafter] at hnodup
    exact (List.nodup_cons.1 hnodup).1
  have hnA : next x ∉ A := by
    intro hmem
    have hin : next x ∈ B ++ [root] := hafter ▸ List.mem_cons_self
    rcases List.mem_append.1 hin with hB | hroot
    · exact hdisj _ (List.mem_cons_of_mem _ hmem) _ (List.mem_cons_of_mem _ hB) rfl
    · exact (List.nodup_cons.1 hA).1 (List.mem_singleton.1 hroot ▸ hmem)
  refine ⟨?_, ?_, ?_⟩
  · rw [← List.cons_append, hbefore, List.map_append, List.map_append, List.map_singleton, Function.update_self,
      map_update_of_notMem _ hp, map_update_of_notMem _ hpB, List.append_inj_left hfst (by simp), List.append_assoc,
      List.append_assoc, hafter]
    rfl
  · rw [List.append_assoc, hafter, List.map_append, List.map_cons, Function.update_self, map_update_of_notMem _ hnA,
      map_update_of_notMem _ hn, (List.cons.inj hsnd).2, ← List.cons_append, hbefore, List.append_assoc]
    rfl
  · rw [← List.cons_append]
    exact List.nodup_append.2 ⟨hA, (List.nodup_cons.1 hxB).2, fun a ha b hb => hdisj a ha b (List.mem_cons_of_mem _ hb)⟩

end Links

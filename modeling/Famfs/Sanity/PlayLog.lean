import Famfs.Proofs.LogRuns
import Famfs.Sanity.PlayEntries

/-! Replaying a prefix of a log. Where the first `m` entries have been replayed, a
replay of the first `n` gives what a replay of the first `max m n` gives. -/

namespace Famfs

open Paths Machine

def FamfsLog.body (logp : FamfsLog) (i : ℕ) : FamfsLogEntryBody := (logp.entries i).body

theorem append_body_old {crc32 : Crc32} {logp : FamfsLog} {e : FamfsLogEntry} {i : ℕ}
    (hi : i < logp.famfsLogNextIndex) : (famfsAppendLog crc32 logp e).body i = logp.body i := by
  rw [FamfsLog.body, append_entries_old crc32 logp e hi, FamfsLog.body]

theorem append_body_new {crc32 : Crc32} {logp : FamfsLog} {e : FamfsLogEntry} :
    (famfsAppendLog crc32 logp e).body logp.famfsLogNextIndex = e.body := by
  rw [FamfsLog.body, append_entries_new, stampLogEntry_body]

/-- A log of successful creations: no path twice, and the directory of each path
before it. -/
structure GoodLog (kabi : ℕ) (logp : FamfsLog) : Prop where
  entry : ∀ i < logp.famfsLogNextIndex, GoodEntry kabi (logp.body i)
  distinct : ∀ i < logp.famfsLogNextIndex, ∀ j < logp.famfsLogNextIndex,
    (logp.body i).names = (logp.body j).names → i = j
  parent : ∀ i < logp.famfsLogNextIndex, (logp.body i).names.dropLast = [] ∨
    ∃ j < i, (∃ md, logp.body j = .md md) ∧ (logp.body j).names = (logp.body i).names.dropLast

/-- The objects of the first `k` entries, with their nodes. -/
def objects (logp : FamfsLog) (node : ℕ → Node) (k : ℕ) : Objects :=
  (List.range k).map fun i => ((logp.body i).names, node i)

theorem objects_succ (logp : FamfsLog) (node : ℕ → Node) (k : ℕ) :
    objects logp node (k + 1) = objects logp node k ++ [((logp.body k).names, node k)] := by
  simp [objects, List.range_succ]

section

variable {kabi : ℕ} {logp : FamfsLog} {node : ℕ → Node}

theorem GoodLog.lookup (hg : GoodLog kabi logp) (node : ℕ → Node) {i k : ℕ} (hi : i < logp.famfsLogNextIndex)
    (hk : k ≤ logp.famfsLogNextIndex) :
    (objects logp node k).lookup (logp.body i).names = if i < k then some (node i) else none := by
  induction k with
  | zero => rfl
  | succ k ih =>
    rw [objects_succ, List.lookup_append, ih (by omega)]
    by_cases hik : i = k
    · subst hik
      simp
    · have hne : ((logp.body i).names == (logp.body k).names) = false :=
        beq_false_of_ne fun h => hik (hg.distinct i hi k (by omega) h)
      by_cases hlt : i < k
      · simp [hlt, show i < k + 1 by omega]
      · simp [List.lookup_cons, hne, hlt, show ¬ i < k + 1 by omega]

theorem lookup_objects {rel : List Name} {n : Node} {k : ℕ}
    (h : (objects logp node k).lookup rel = some n) : ∃ i < k, (logp.body i).names = rel ∧ node i = n := by
  induction k with
  | zero => cases h
  | succ k ih =>
    rw [objects_succ, List.lookup_append, Option.or_eq_some_iff] at h
    rcases h with h | ⟨-, h⟩
    · obtain ⟨i, hi, hrel⟩ := ih h
      exact ⟨i, by omega, hrel⟩
    · by_cases heq : rel = (logp.body k).names
      · subst heq
        rw [List.lookup_cons_self] at h
        exact ⟨k, Nat.lt_succ_self k, rfl, Option.some.inj h⟩
      · have hne : (rel == (logp.body k).names) = false := beq_false_of_ne heq
        simp [List.lookup_cons, hne] at h

theorem lookup_fresh {rel : List Name} (node : ℕ → Node) {k : ℕ} (hfresh : ∀ j < k, (logp.body j).names ≠ rel) :
    (objects logp node k).lookup rel = none := by
  rw [← Option.not_isSome_iff_eq_none, Option.isSome_iff_exists]
  rintro ⟨n, hn⟩
  obtain ⟨i, hi, hnames, -⟩ := lookup_objects hn
  exact hfresh i hi hnames

theorem GoodLog.lookup_cases (hg : GoodLog kabi logp) (rel : List Name) :
    (∀ node, (objects logp node logp.famfsLogNextIndex).lookup rel = none) ∨
      ∃ i < logp.famfsLogNextIndex, ∀ node, (objects logp node logp.famfsLogNextIndex).lookup rel = some (node i) := by
  by_cases hex : ∃ i < logp.famfsLogNextIndex, (logp.body i).names = rel
  · obtain ⟨i, hi, rfl⟩ := hex
    refine Or.inr ⟨i, hi, fun node => ?_⟩
    rw [hg.lookup node hi le_rfl, if_pos hi]
  · push Not at hex
    exact Or.inl fun node => lookup_fresh node hex

theorem GoodLog.creatable (hg : GoodLog kabi logp)
    (hdir : ∀ j md, logp.body j = .md md → ∃ a, node j = .dir a) {i k : ℕ} (hik : i ≤ k)
    (hi : i < logp.famfsLogNextIndex) (hk : k ≤ logp.famfsLogNextIndex) :
    Creatable (objects logp node k) (logp.body i).names := by
  refine ⟨(hg.entry i hi).nonempty, (hg.entry i hi).plain, ?_⟩
  rcases hg.parent i hi with hp | ⟨j, hj, ⟨md, hmd⟩, hp⟩
  · exact Or.inl hp
  · obtain ⟨a, ha⟩ := hdir j md hmd
    refine Or.inr ⟨a, ?_⟩
    rw [← hp, hg.lookup node (by omega) hk, if_pos (by omega), ha]

end

section

variable {cfg : PlayConfig} {logp : FamfsLog} {h0 : Host} {root : Path}

/-- The node with the objects of the first `k` entries. -/
def built (cfg : PlayConfig) (logp : FamfsLog) (h0 : Host) (root : Path) : ℕ → Host
  | 0 => h0
  | k + 1 => (built cfg logp h0 root k).set (root ++ (logp.body k).names) (some (playNode cfg (logp.body k)))

def playedObjects (cfg : PlayConfig) (logp : FamfsLog) (k : ℕ) : Objects :=
  objects logp (fun i => playNode cfg (logp.body i)) k

theorem playNode_dir (cfg : PlayConfig) (logp : FamfsLog) :
    ∀ j md, logp.body j = .md md → ∃ a, playNode cfg (logp.body j) = .dir a := by
  intro j md h
  rw [h]
  exact ⟨_, rfl⟩

theorem GoodLog.holds (hg : GoodLog cfg.kabi logp) (h : Holds h0 cfg.root root []) {k : ℕ}
    (hk : k ≤ logp.famfsLogNextIndex) :
    Holds (built cfg logp h0 root k) cfg.root root (playedObjects cfg logp k) := by
  induction k with
  | zero => exact h
  | succ k ih =>
    have hlt : k < logp.famfsLogNextIndex := by omega
    rw [playedObjects, objects_succ]
    refine (ih hlt.le).place (hg.creatable (playNode_dir cfg logp) le_rfl hlt hlt.le) ?_ _
    rw [playedObjects, hg.lookup _ hlt hlt.le, if_neg (lt_irrefl k)]

@[simp] theorem built_mount (k : ℕ) : (built cfg logp h0 root k).mount = h0.mount := by
  induction k with
  | zero => rfl
  | succ k ih => exact ih

theorem GoodLog.built_extends (hg : GoodLog cfg.kabi logp) (h : Holds h0 cfg.root root []) {a b : ℕ}
    (hab : a ≤ b) (hb : b ≤ logp.famfsLogNextIndex) :
    Extends (built cfg logp h0 root a) (built cfg logp h0 root b) := by
  induction b, hab using Nat.le_induction with
  | base => exact Extends.refl _
  | succ b hab ih =>
    have hlt : b < logp.famfsLogNextIndex := by omega
    have hfree : (built cfg logp h0 root b).tree (root ++ (logp.body b).names) = none := by
      rw [(hg.holds h hlt.le).below _ (hg.entry b hlt).nonempty, playedObjects, hg.lookup _ hlt hlt.le,
        if_neg (lt_irrefl b)]
    exact (ih hlt.le).trans (extends_set _ hfree _)

theorem playEntry_built (hcfg : Replaying cfg h0 root) (hg : GoodLog cfg.kabi logp)
    (h : Holds h0 cfg.root root []) {m i : ℕ} (hm : m ≤ logp.famfsLogNextIndex)
    (hi : i < logp.famfsLogNextIndex) {st : PlayState} (hst : st.host = built cfg logp h0 root (max m i))
    (hok : NoErrors st) :
    ∃ st', playEntry cfg Sys.healthy st (logp.body i) = .ok st' ∧ NoErrors st' ∧
      st'.host = built cfg logp h0 root (max m (i + 1)) := by
  have hmax : max m i ≤ logp.famfsLogNextIndex := by omega
  have hholds := hg.holds h hmax
  rw [← hst] at hholds
  have hcfg' : Replaying cfg st.host root := ⟨hcfg.wet, fun hs => by rw [hst, built_mount]; exact hcfg.v1 hs⟩
  have hc := hg.creatable (playNode_dir cfg logp) (Nat.le_max_right m i) hi hmax
  have hlook := hg.lookup (fun i => playNode cfg (logp.body i)) hi hmax
  by_cases hlt : i < m
  · rw [if_pos (by omega)] at hlook
    obtain ⟨st', heq, hok', hhost⟩ := playEntry_old hcfg' (hg.entry i hi) hholds hc hlook
      (playNode_matches (hg.entry i hi)) hok
    refine ⟨st', heq, hok', ?_⟩
    rw [hhost, hst]
    congr 1
    omega
  · rw [if_neg (by omega)] at hlook
    obtain ⟨st', heq, hok', hhost⟩ := playEntry_new hcfg' (hg.entry i hi) hholds hc hlook hok
    refine ⟨st', heq, hok', ?_⟩
    rw [hhost, hst, show max m i = i by omega, show max m (i + 1) = i + 1 by omega]
    rfl

theorem playLoop_built {crc32 : Crc32} (hcfg : Replaying cfg h0 root) (hg : GoodLog cfg.kabi logp)
    (hlog : LogOk crc32 logp) (h : Holds h0 cfg.root root []) {m : ℕ} (hm : m ≤ logp.famfsLogNextIndex)
    {N : ℕ} (n i : ℕ) (hi : i + n ≤ logp.famfsLogNextIndex) {st : PlayState}
    (hst : st.host = built cfg logp h0 root (max m i)) (hok : NoErrors st) :
    ∃ st', playLoop crc32 cfg (fun _ => Sys.healthy) { logp with famfsLogNextIndex := N } n i st = .ok (0, st') ∧
      st'.host = built cfg logp h0 root (max m (i + n)) := by
  induction n generalizing i st with
  | zero =>
    refine ⟨st, ?_, hst⟩
    have hzero : playErrors st.ls = 0 := by
      simp only [playErrors, hok.1, hok.2]
      rfl
    rw [playLoop, hzero]
  | succ n ih =>
    obtain ⟨st1, heq, hok1, hst1⟩ := playEntry_built hcfg hg h hm (show i < logp.famfsLogNextIndex by omega) hst hok
    obtain ⟨st', hloop, hst'⟩ := ih (i + 1) (by omega) hst1 hok1
    refine ⟨st', ?_, by rw [hst']; congr 1; omega⟩
    have hvalid := hlog.entry i (by omega)
    rw [playLoop, if_neg (by simpa using hvalid)]
    change (playEntry cfg Sys.healthy st (logp.body i) >>= _) = _
    rw [heq, Runs.ok_bind]
    exact hloop

end

end Famfs

import Famfs.Spec.Check

/-! What the verdict of `famfs check` is worth. The result of the recursion is dropped and
only its count is added up, and that count leaves out a directory that cannot be listed
and a file that cannot be opened. Neither a missing superblock nor a missing log shows in
the result. -/

namespace Famfs

open Machine Paths

def IsEntry (name : Name) : Bool := ¬ (name = dot ∨ name = dotdot)

mutual

/-- A file is checked if it was opened and has a map. -/
def CheckNode.good : CheckNode → Bool
  | .noStat => false
  | .reg fd mapGet => 0 ≤ fd ∧ mapGet = 0
  | .dir d => d.good
  | .special => true

def CheckDir.good : CheckDir → Bool
  | .mk opendir entries => opendir && entries.good

def CheckEntries.good : CheckEntries → Bool
  | .nil => true
  | .cons name node rest => (!IsEntry name || node.good) && rest.good

end

mutual

/-- The failures that are counted, in directories that can be listed. -/
def CheckNode.counted : CheckNode → ℕ
  | .noStat => 1
  | .reg fd mapGet => if 0 < fd ∧ mapGet ≠ 0 then 1 else 0
  | .dir d => d.counted
  | .special => 0

def CheckDir.counted : CheckDir → ℕ
  | .mk opendir entries => if opendir then entries.counted else 0

def CheckEntries.counted : CheckEntries → ℕ
  | .nil => 0
  | .cons name node rest => (if IsEntry name then node.counted else 0) + rest.counted

end

mutual

/-- The failures that are passed over: directories that cannot be listed, and files that
cannot be opened or whose descriptor is 0. -/
def CheckNode.missed : CheckNode → Bool
  | .noStat => false
  | .reg fd mapGet => fd < 0 ∨ fd = 0 ∧ mapGet ≠ 0
  | .dir d => d.missed
  | .special => false

def CheckDir.missed : CheckDir → Bool
  | .mk opendir entries => !opendir || entries.missed

def CheckEntries.missed : CheckEntries → Bool
  | .nil => false
  | .cons name node rest => IsEntry name && node.missed || rest.missed

end

def CheckDir.listed : CheckDir → Bool
  | .mk opendir _ => opendir

mutual

theorem CheckNode.good_iff (node : CheckNode) : node.good = true ↔ node.counted = 0 ∧ node.missed = false := by
  cases node with
  | noStat => simp [CheckNode.good, CheckNode.counted]
  | special => simp [CheckNode.good, CheckNode.counted, CheckNode.missed]
  | reg fd mapGet =>
    simp only [CheckNode.good, CheckNode.counted, CheckNode.missed, decide_eq_true_eq, decide_eq_false_iff_not]
    split_ifs with hbad
    · exact iff_of_false (fun hgood => hbad.2 hgood.2) (fun hnone => hnone.1.elim)
    · omega
  | dir d => simpa only [CheckNode.good, CheckNode.counted, CheckNode.missed] using d.good_iff

theorem CheckDir.good_iff (d : CheckDir) : d.good = true ↔ d.counted = 0 ∧ d.missed = false := by
  obtain ⟨opendir, entries⟩ := d
  cases opendir with
  | false => simp [CheckDir.good, CheckDir.missed]
  | true => simpa [CheckDir.good, CheckDir.counted, CheckDir.missed] using entries.good_iff

theorem CheckEntries.good_iff (entries : CheckEntries) : entries.good = true ↔ entries.counted = 0 ∧ entries.missed = false := by
  cases entries with
  | nil => simp [CheckEntries.good, CheckEntries.counted, CheckEntries.missed]
  | cons name node rest =>
    have hnode := node.good_iff
    have hrest := rest.good_iff
    cases hname : IsEntry name with
    | false => simpa [CheckEntries.good, CheckEntries.counted, CheckEntries.missed, hname] using hrest
    | true =>
      simp only [CheckEntries.good, CheckEntries.counted, CheckEntries.missed, hname, Bool.not_true, Bool.false_or,
        Bool.and_eq_true, hnode, hrest, if_true, Bool.true_and, Bool.or_eq_false_iff, Nat.add_eq_zero_iff]
      tauto

end

mutual

theorem checkNode_nerrs (node : CheckNode) {s : CheckSums} (hs : s.nerrs < 2 ^ 32) :
    (checkNode s node).nerrs = u32 (s.nerrs + node.counted) := by
  cases node with
  | noStat => rfl
  | special => exact (u32_of_lt hs).symm
  | reg fd mapGet =>
    simp only [checkNode, CheckNode.counted]
    by_cases hfd : fd ≤ 0
    · rw [if_pos hfd, if_neg fun hbad => not_lt.2 hfd hbad.1]
      exact (u32_of_lt hs).symm
    · by_cases hmap : mapGet = 0
      · rw [if_neg hfd, if_neg (not_not.2 hmap), if_neg fun hbad => hbad.2 hmap]
        exact (u32_of_lt hs).symm
      · rw [if_neg hfd, if_pos hmap, if_pos ⟨not_le.1 hfd, hmap⟩]
  | dir d =>
    simp only [checkNode, CheckNode.counted, recursiveCheck_nerrs d, u32]
    omega

theorem recursiveCheck_nerrs (d : CheckDir) : (famfsRecursiveCheck d).2.nerrs = u32 d.counted := by
  obtain ⟨opendir, entries⟩ := d
  cases opendir with
  | false => rfl
  | true =>
    have hloop := checkEntries_nerrs entries (s := .zero) (by decide)
    rw [CheckSums.zero, Nat.zero_add] at hloop
    simpa [famfsRecursiveCheck, CheckDir.counted, CheckSums.zero] using hloop

theorem checkEntries_nerrs (entries : CheckEntries) {s : CheckSums} (hs : s.nerrs < 2 ^ 32) :
    (checkEntries s entries).nerrs = u32 (s.nerrs + entries.counted) := by
  cases entries with
  | nil => exact (u32_of_lt hs).symm
  | cons name node rest =>
    by_cases hskip : name = dot ∨ name = dotdot
    · have hname : IsEntry name = false := decide_eq_false (not_not.2 hskip)
      rw [checkEntries, if_pos hskip, checkEntries_nerrs rest hs]
      simp [CheckEntries.counted, hname]
    · have hname : IsEntry name = true := decide_eq_true hskip
      have hnode := checkNode_nerrs node hs
      have hrest := checkEntries_nerrs rest (s := checkNode s node) (by rw [hnode]; exact Nat.mod_lt _ (by norm_num))
      rw [checkEntries, if_neg hskip, hrest, hnode]
      simp only [CheckEntries.counted, hname, if_true, u32]
      omega

end

theorem recursiveCheck_zero (d : CheckDir) : (famfsRecursiveCheck d).1 = 0 ↔ d.listed = true ∧ 2 ^ 32 ∣ d.counted := by
  have hcount := recursiveCheck_nerrs d
  obtain ⟨opendir, entries⟩ := d
  cases opendir with
  | false => simp [famfsRecursiveCheck, CheckDir.listed]
  | true =>
    simp only [famfsRecursiveCheck, CheckDir.listed, Bool.true_eq_false, if_false, true_and] at hcount ⊢
    rw [hcount, u32, Nat.dvd_iff_mod_eq_zero]
    split_ifs with hzero
    · exact iff_of_false one_ne_zero hzero
    · exact iff_of_true rfl (not_not.1 hzero)

theorem CheckDir.listed_of_good {d : CheckDir} (h : d.good = true) : d.listed = true := by
  obtain ⟨opendir, entries⟩ := d
  exact (Bool.and_eq_true_iff.1 h).1

/-- Calls before the tree that let `famfs_check` go on. -/
def CheckCalls.goesOn (calls : CheckCalls) : Bool := calls.absolute && calls.mounted && calls.statMeta

theorem famfsCheck_zero (calls : CheckCalls) (tree : CheckDir) :
    (famfsCheck calls tree).1 = 0 ↔ calls.goesOn = true ∧ (famfsRecursiveCheck tree).1 = 0 := by
  obtain ⟨absolute, mounted, statMeta, statSuperblock, statLog⟩ := calls
  cases absolute <;> cases mounted <;> cases statMeta <;> simp [famfsCheck, CheckCalls.goesOn]

/-- When the verdicts are right: a tree that can be listed and in which no failure is
counted has no failure that is passed over, and no superblock or log that is missing. -/
theorem check_verdict_iff (calls : CheckCalls) (tree : CheckDir) :
    (((famfsRecursiveCheck tree).1 = 0 ↔ tree.good = true) ↔
      (tree.listed = true → 2 ^ 32 ∣ tree.counted → tree.counted = 0 ∧ tree.missed = false)) ∧
    (((famfsCheck calls tree).1 = 0 → tree.good = true ∧ calls.statSuperblock = true ∧ calls.statLog = true) ↔
      (calls.goesOn = true → tree.listed = true → 2 ^ 32 ∣ tree.counted →
        (tree.counted = 0 ∧ tree.missed = false) ∧ calls.statSuperblock = true ∧ calls.statLog = true)) := by
  rw [famfsCheck_zero, recursiveCheck_zero, ← tree.good_iff]
  refine ⟨⟨fun h hlisted hcount => h.1 ⟨hlisted, hcount⟩, fun h => ⟨fun hzero => h hzero.1 hzero.2, fun hgood => ?_⟩⟩, ?_⟩
  · refine ⟨tree.listed_of_good hgood, ?_⟩
    rw [((tree.good_iff).1 hgood).1]
    exact dvd_zero _
  · constructor
    · exact fun h hgo hlisted hcount => h ⟨hgo, hlisted, hcount⟩
    · rintro h ⟨hgo, hlisted, hcount⟩
      exact h hgo hlisted hcount

def treeOf (node : CheckNode) : CheckDir := .mk true (.cons [97] node .nil)

/-- A file that cannot be opened, a directory that cannot be listed, and a missing
superblock, each with the verdict that all is well. -/
theorem check_passes_failures :
    ((famfsRecursiveCheck (treeOf (.reg (-1) 0))).1 = 0 ∧ (treeOf (.reg (-1) 0)).good = false) ∧
    ((famfsRecursiveCheck (treeOf (.dir (.mk false .nil)))).1 = 0 ∧ (treeOf (.dir (.mk false .nil))).good = false) ∧
    (famfsCheck ⟨true, true, true, false, true⟩ (treeOf (.reg 3 0))).1 = 0 := by
  decide

end Famfs

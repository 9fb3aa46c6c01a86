import Famfs.Lib.Runs
import Famfs.Spec.ProcMounts

/-! Which mount tables make `shadow_path_in_use` refuse a shadow path. The comparison is
the wrong way round: the path is refused if the shadow path of some mount differs from
it, and a mount with the same path or one above or below it is passed over. -/

namespace Famfs

open Machine Paths Runs

variable {xattr : CStr → Option CStr} {path s : CStr} {table : List ProcMount} {e : ProcMount}

def TidyPath (path : CStr) : Prop := path.head? = some slash ∧ path.getLast? ≠ some slash

instance (path : CStr) : Decidable (TidyPath path) := by
  unfold TidyPath
  infer_instance

/-- The same path, or one is a directory above the other. -/
def Overlaps (a b : CStr) : Prop := a = b ∨ a ++ [slash] <+: b ∨ b ++ [slash] <+: a

instance (a b : CStr) : Decidable (Overlaps a b) := by
  unfold Overlaps
  infer_instance

/-- The paths differ before the last byte of the shorter one. -/
def DiffersEarly (a b : CStr) : Prop := a.take (min (a.length - 1) (b.length - 1)) ≠ b.take (min (a.length - 1) (b.length - 1))

instance (a b : CStr) : Decidable (DiffersEarly a b) := by
  unfold DiffersEarly
  infer_instance

def ShadowOf (xattr : CStr → Option CStr) (e : ProcMount) (s : CStr) : Prop := namesFamfs e.fstype = true ∧ xattr e.mpt = some s

def ConflictIn (xattr : CStr → Option CStr) (table : List ProcMount) (path : CStr) : Prop :=
  ∃ e ∈ table, ∃ s, ShadowOf xattr e s ∧ Overlaps path s

def DifferentIn (xattr : CStr → Option CStr) (table : List ProcMount) (path : CStr) : Prop :=
  ∃ e ∈ table, ∃ s, ShadowOf xattr e s ∧ e.fits = true ∧ DiffersEarly path s

/-- No line that names famfs has a field too long for its array, unless the loop ends
before it. -/
def LinesFit (xattr : CStr → Option CStr) (table : List ProcMount) (path : CStr) : Prop :=
  ∀ pre e post, table = pre ++ e :: post → namesFamfs e.line = true → e.fits = false → DifferentIn xattr pre path

theorem Overlaps.not_differs (h : Overlaps path s) : ¬ DiffersEarly path s := by
  have hcut : ∀ {a b : CStr} {k : ℕ}, a ++ [slash] <+: b → k ≤ a.length → a.take k = b.take k := by
    rintro a b k ⟨t, rfl⟩ hk
    rw [List.append_assoc, List.take_append_of_le_length hk]
  unfold DiffersEarly
  rw [not_not]
  rcases h with rfl | h | h
  · rfl
  · exact hcut h (by omega)
  · exact (hcut h (by omega)).symm

theorem namesFamfs_line (h : namesFamfs e.fstype = true) : namesFamfs e.line = true := by
  simp only [namesFamfs, decide_eq_true_eq] at h ⊢
  refine h.trans ⟨e.dev ++ lit " " ++ e.mpt ++ lit " ", lit " " ++ e.opts ++ lit " 0 0\n", ?_⟩
  simp [ProcMount.line]

theorem TidyPath.strlenPred_eq (h : TidyPath s) : strlenPred s = s.length - 1 := by
  rw [strlenPred, if_neg]
  rintro rfl
  simp [TidyPath] at h

theorem entryInUse_cases (hpath : TidyPath path) (hshadow : ∀ s, ShadowOf xattr e s → TidyPath s) :
    (namesFamfs e.line = true ∧ e.fits = false ∧ entryInUse xattr path e = .error .outOfBounds) ∨
      (¬ (namesFamfs e.line = true ∧ e.fits = false) ∧
        ∃ b, entryInUse xattr path e = .ok b ∧ (b = true ↔ DifferentIn xattr [e] path)) := by
  have hdifferent : DifferentIn xattr [e] path ↔ ∃ s, ShadowOf xattr e s ∧ e.fits = true ∧ DiffersEarly path s := by
    simp [DifferentIn]
  rw [hdifferent]
  unfold entryInUse
  by_cases hline : namesFamfs e.line = false
  · rw [if_pos hline]
    refine .inr ⟨by simp [hline], false, rfl, iff_of_false Bool.false_ne_true ?_⟩
    rintro ⟨s, hs, -⟩
    rw [namesFamfs_line hs.1] at hline
    cases hline
  rw [if_neg hline]
  by_cases hfits : e.fits = false
  · rw [if_pos hfits]
    exact .inl ⟨by simpa using hline, hfits, rfl⟩
  rw [if_neg hfits]
  refine .inr ⟨fun hlong => hfits hlong.2, ?_⟩
  by_cases hfs : namesFamfs e.fstype = false
  · rw [if_pos hfs]
    refine ⟨false, rfl, iff_of_false Bool.false_ne_true ?_⟩
    rintro ⟨s, hs, -⟩
    simp [hs.1] at hfs
  rw [if_neg hfs]
  cases hx : xattr e.mpt with
  | none =>
    refine ⟨false, rfl, iff_of_false Bool.false_ne_true ?_⟩
    rintro ⟨s, hs, -⟩
    simp [hs.2] at hx
  | some s =>
    have hs : ShadowOf xattr e s := ⟨by simpa using hfs, hx⟩
    refine ⟨_, rfl, ?_⟩
    rw [hpath.strlenPred_eq, (hshadow s hs).strlenPred_eq, strncmpDiffers, decide_eq_true_eq, min_comm]
    constructor
    · exact fun hdiff => ⟨s, hs, by simpa using hfits, hdiff⟩
    · rintro ⟨s', hs', -, hdiff⟩
      obtain rfl : s' = s := Option.some.inj (hs'.2.symm.trans hx)
      exact hdiff

theorem differentIn_append (xattr : CStr → Option CStr) (l l' : List ProcMount) (path : CStr) :
    DifferentIn xattr (l ++ l') path ↔ DifferentIn xattr l path ∨ DifferentIn xattr l' path := by
  simp only [DifferentIn, List.mem_append, or_and_right, exists_or]

theorem linesFit_cons (hfine : ¬ (namesFamfs e.line = true ∧ e.fits = false)) :
    LinesFit xattr (e :: table) path ↔ DifferentIn xattr [e] path ∨ LinesFit xattr table path := by
  constructor
  · intro hall
    by_cases hdiff : DifferentIn xattr [e] path
    · exact .inl hdiff
    · refine .inr fun pre d post heq hline hlong => ?_
      have hpre := hall (e :: pre) d post (by rw [heq]; rfl) hline hlong
      exact ((differentIn_append xattr [e] pre path).1 hpre).resolve_left hdiff
  · rintro hor pre d post heq hline hlong
    cases pre with
    | nil =>
      obtain ⟨rfl, rfl⟩ := List.cons.inj heq
      exact absurd ⟨hline, hlong⟩ hfine
    | cons x pre =>
      obtain ⟨rfl, rfl⟩ := List.cons.inj heq
      exact (differentIn_append xattr [e] pre path).2 (hor.imp_right fun hall => hall pre d post rfl hline hlong)

theorem shadowLoop_cases (hpath : TidyPath path) (hshadow : ∀ e ∈ table, ∀ s, ShadowOf xattr e s → TidyPath s) :
    (¬ LinesFit xattr table path ∧ shadowLoop xattr path table = .error .outOfBounds) ∨
      (LinesFit xattr table path ∧ DifferentIn xattr table path ∧ shadowLoop xattr path table = .ok 1) ∨
      (LinesFit xattr table path ∧ ¬ DifferentIn xattr table path ∧ shadowLoop xattr path table = .ok 0) := by
  induction table with
  | nil =>
    refine .inr (.inr ⟨?_, by simp [DifferentIn], rfl⟩)
    rintro pre e post heq
    simp at heq
  | cons e table ih =>
    have hcons : DifferentIn xattr (e :: table) path ↔ DifferentIn xattr [e] path ∨ DifferentIn xattr table path :=
      differentIn_append xattr [e] table path
    rcases entryInUse_cases hpath (hshadow e List.mem_cons_self) with ⟨hline, hlong, hrun⟩ | ⟨hfine, b, hrun, hb⟩
    · refine .inl ⟨fun hfit => ?_, by rw [shadowLoop, hrun]; rfl⟩
      obtain ⟨d, hd, -⟩ := hfit [] e table rfl hline hlong
      simp at hd
    · rw [shadowLoop, hrun, ok_bind, linesFit_cons hfine, hcons]
      cases hbit : b with
      | true =>
        have hdiff := hb.1 hbit
        exact .inr (.inl ⟨.inl hdiff, .inl hdiff, rfl⟩)
      | false =>
        have hnot : ¬ DifferentIn xattr [e] path := fun hd => by simp [hb.2 hd] at hbit
        rw [or_iff_right hnot, or_iff_right hnot]
        exact ih fun d hd => hshadow d (List.mem_cons_of_mem _ hd)

/-- The answer is right if mounts that overlap and mounts that differ are both there, or
neither. A mount never does both. -/
theorem shadow_in_use_iff (hpath : TidyPath path) (hshadow : ∀ e ∈ table, ∀ s, ShadowOf xattr e s → TidyPath s) :
    ((∃ rc, shadowPathInUse xattr (some table) path = .ok rc ∧ (rc = 1 ↔ ConflictIn xattr table path) ∧
        (rc = 0 ↔ ¬ ConflictIn xattr table path)) ↔
      LinesFit xattr table path ∧ (ConflictIn xattr table path ↔ DifferentIn xattr table path)) ∧
    ∀ e ∈ table, ∀ s, ShadowOf xattr e s → Overlaps path s → ¬ DiffersEarly path s := by
  refine ⟨?_, fun e _ s _ hover => hover.not_differs⟩
  rw [shadowPathInUse]
  rcases shadowLoop_cases hpath hshadow with ⟨hlong, hrun⟩ | ⟨hfit, hdiff, hrun⟩ | ⟨hfit, hsame, hrun⟩
  · simp [hrun, hlong]
  · simp [hrun, hfit, hdiff]
  · simp [hrun, hfit, hsame]

def mountA : ProcMount := ⟨lit "/dev/dax0.0", lit "/mnt/a", lit "fuse.famfs", lit "rw"⟩
def mountB : ProcMount := ⟨lit "/dev/dax1.0", lit "/mnt/b", lit "fuse.famfs", lit "rw"⟩

def shadowsOfTwo (mpt : CStr) : Option CStr :=
  if mpt = mountA.mpt then some (lit "/run/famfs/a") else if mpt = mountB.mpt then some (lit "/srv/b") else none

theorem shadowOf_mountA : ShadowOf shadowsOfTwo mountA s ↔ s = lit "/run/famfs/a" := by
  simp [ShadowOf, show namesFamfs mountA.fstype = true by decide, shadowsOfTwo, eq_comm]

theorem shadowOf_mountB : ShadowOf shadowsOfTwo mountB s ↔ s = lit "/srv/b" := by
  simp [ShadowOf, show namesFamfs mountB.fstype = true by decide, shadowsOfTwo, show mountB.mpt ≠ mountA.mpt by decide, eq_comm]

theorem shadow_in_use_both : ∃ rc, shadowPathInUse shadowsOfTwo (some [mountA, mountB]) (lit "/run/famfs/a") = .ok rc ∧
    (rc = 1 ↔ ConflictIn shadowsOfTwo [mountA, mountB] (lit "/run/famfs/a")) ∧
    (rc = 0 ↔ ¬ ConflictIn shadowsOfTwo [mountA, mountB] (lit "/run/famfs/a")) := by
  have htidy : ∀ e ∈ [mountA, mountB], ∀ s, ShadowOf shadowsOfTwo e s → TidyPath s := by
    simp only [List.mem_cons, List.not_mem_nil, or_false, forall_eq_or_imp, forall_eq, shadowOf_mountA, shadowOf_mountB]
    decide
  refine (shadow_in_use_iff (by decide) htidy).1.2 ⟨?_, iff_of_true ?_ ?_⟩
  · intro pre e post heq _ hlong
    have hall : ∀ d ∈ [mountA, mountB], d.fits = true := by decide
    rw [hall e (by rw [heq]; simp)] at hlong
    cases hlong
  · exact ⟨mountA, by simp, _, shadowOf_mountA.2 rfl, .inl rfl⟩
  · exact ⟨mountB, by simp, _, shadowOf_mountB.2 rfl, by decide, by decide⟩

/-- The same shadow path is let through, and an unrelated one is refused. -/
theorem shadow_in_use_inverted :
    (shadowPathInUse shadowsOfTwo (some [mountA]) (lit "/run/famfs/a") = .ok 0 ∧
      ConflictIn shadowsOfTwo [mountA] (lit "/run/famfs/a")) ∧
    (shadowPathInUse shadowsOfTwo (some [mountA]) (lit "/srv/b") = .ok 1 ∧
      ¬ ConflictIn shadowsOfTwo [mountA] (lit "/srv/b")) := by
  refine ⟨⟨by decide, mountA, by simp, _, shadowOf_mountA.2 rfl, .inl rfl⟩, by decide, ?_⟩
  simp only [ConflictIn, List.mem_singleton, exists_eq_left, shadowOf_mountA]
  decide

end Famfs

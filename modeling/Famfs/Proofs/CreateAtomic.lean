import Famfs.Proofs.ReplayRuns
import Famfs.Sanity.CreateOutcomes

/-! A creation is atomic when a failure leaves the log and the namespace as they were,
and when a success logs the object it made. The calls make the object first and log it
last, and nothing is taken back; so atomicity comes down to conditions on the node and
on the system calls, which are exact. -/

namespace Famfs

open Paths

variable {b : FamfsLogEntryBody}

/-- The entry names the object `p` below `root` and says what it is. -/
inductive Describes (kabi : ℕ) (root : CStr) (h : Host) (p : Path) : FamfsLogEntryBody → Prop
  | mapped {fm : FamfsLogFileMeta} {attr : Attr} {map : IocMap}
      (hname : h.resolve (pathIn root fm.fmRelpath) = .found p) (hmap : playedMap kabi fm = some map)
      (hnode : h.tree p = some (.reg attr (.mapped fm.fmSize map))) : Describes kabi root h p (.fm fm)
  | shadow {fm : FamfsLogFileMeta} {attr : Attr} (hname : h.resolve (pathIn root fm.fmRelpath) = .found p)
      (hnode : h.tree p = some (.reg attr (.shadow (some fm)))) : Describes kabi root h p (.fm fm)
  | dir {md : FamfsLogMkdir} {attr : Attr} (hname : h.resolve (pathIn root md.mdRelpath) = .found p)
      (hnode : h.tree p = some (.dir attr)) : Describes kabi root h p (.md md)

def OnlyAt (h h' : Host) (p : Path) : Prop := ∀ q, q ≠ p → h'.tree q = h.tree q

structure AtomicResult (crc32 : Crc32) (kabi : ℕ) (root : CStr) (failed : Prop) (h : Host) (logp : FamfsLog)
    (h' : Host) (logp' : FamfsLog) : Prop where
  fails : failed → logp' = logp ∧ SameObjects h h'
  creates : ¬ failed → ¬ SameObjects h h' →
    ∃ b p, logp' = famfsAppendLog crc32 logp (newLogEntry b) ∧ OnlyAt h h' p ∧ Describes kabi root h' p b

/-- Whatever the call returns; `failed` says which results are failures. -/
def Atomic (crc32 : Crc32) (kabi : ℕ) (root : CStr) (failed : ℤ → Prop) (h : Host) (logp : FamfsLog)
    (call : Except Trap (ℤ × Host × FamfsLockedLog)) : Prop :=
  ∀ rc h' lp', call = .ok (rc, h', lp') → AtomicResult crc32 kabi root (failed rc) h logp h' lp'.logp

theorem append_ne (crc32 : Crc32) (logp : FamfsLog) (e : FamfsLogEntry) : famfsAppendLog crc32 logp e ≠ logp := by
  intro heq
  have := append_nextIndex crc32 logp e
  rw [heq] at this
  omega

theorem append_injective {crc32 : Crc32} {logp : FamfsLog} {b c : FamfsLogEntryBody}
    (heq : famfsAppendLog crc32 logp (newLogEntry b) = famfsAppendLog crc32 logp (newLogEntry c)) : b = c := by
  have := congrArg (fun l => l.body logp.famfsLogNextIndex) heq
  simp only [append_body_new] at this
  exact this

section

variable {crc32 : Crc32} {kabi : ℕ} {root : CStr} {failed : ℤ → Prop} {h h' h1 : Host} {logp logp' : FamfsLog}
  {lp lp' : FamfsLockedLog} {rc : ℤ} {p : Path}

theorem atomic_error (t : Trap) : Atomic crc32 kabi root failed h logp (.error t) := by
  intro rc h' lp' hok
  cases hok

theorem atomic_ok : Atomic crc32 kabi root failed h logp (.ok (rc, h', lp')) ↔
    AtomicResult crc32 kabi root (failed rc) h logp h' lp'.logp := by
  constructor
  · intro hat
    exact hat rc h' lp' rfl
  · intro hres rc' h'' lp'' hok
    cases hok
    exact hres

theorem atomicResult_same {f : Prop} (hsame : SameObjects h h') : AtomicResult crc32 kabi root f h logp h' logp :=
  ⟨fun _ => ⟨rfl, hsame⟩, fun _ hnew => absurd hsame hnew⟩

theorem atomicResult_failed {f : Prop} (hf : f) :
    AtomicResult crc32 kabi root f h logp h' logp ↔ SameObjects h h' :=
  ⟨fun hat => (hat.fails hf).2, atomicResult_same⟩

theorem not_atomicResult {f : Prop} (hnew : ¬ SameObjects h h') :
    ¬ AtomicResult crc32 kabi root f h logp h' logp := by
  intro hat
  by_cases hf : f
  · exact hnew (hat.fails hf).2
  · obtain ⟨b, p, hlog, -, -⟩ := hat.creates hf hnew
    exact append_ne _ _ _ hlog.symm

theorem atomicResult_appended {f : Prop} :
    AtomicResult crc32 kabi root f h logp h' (famfsAppendLog crc32 logp (newLogEntry b)) ↔
      ¬ f ∧ (¬ SameObjects h h' → ∃ p, OnlyAt h h' p ∧ Describes kabi root h' p b) := by
  constructor
  · intro hat
    have hf : ¬ f := fun hf => append_ne _ _ _ (hat.fails hf).1
    refine ⟨hf, fun hnew => ?_⟩
    obtain ⟨c, p, hlog, honly, hdesc⟩ := hat.creates hf hnew
    rw [append_injective hlog]
    exact ⟨p, honly, hdesc⟩
  · rintro ⟨hf, hcreated⟩
    refine ⟨fun hf' => absurd hf' hf, fun _ hnew => ?_⟩
    obtain ⟨p, honly, hdesc⟩ := hcreated hnew
    exact ⟨b, p, rfl, honly, hdesc⟩

/-- The last part of a call: abort at an absolute path, refuse when the log is full,
or append. -/
def logLast (crc32 : Crc32) (h : Host) (lp : FamfsLockedLog) (relpath : CStr) (b : FamfsLogEntryBody) (rc : ℤ) :
    Except Trap (ℤ × Host × FamfsLockedLog) :=
  if relpath.head? = some slash then .error .assertion
  else if famfsLogFull lp.logp then .ok (-ENOMEM, h, lp)
  else .ok (rc, h, lp.logged crc32 b)

theorem atomic_logLast {relpath : CStr} (hnomem : failed (-ENOMEM)) :
    Atomic crc32 kabi root failed h lp.logp (logLast crc32 h1 lp relpath b rc) ↔
      (relpath.head? ≠ some slash →
        if famfsLogFull lp.logp then SameObjects h h1
        else ¬ failed rc ∧ (¬ SameObjects h h1 → ∃ p, OnlyAt h h1 p ∧ Describes kabi root h1 p b)) := by
  unfold logLast
  by_cases hslash : relpath.head? = some slash
  · rw [if_pos hslash]
    exact ⟨fun _ hrel => absurd hslash hrel, fun _ => atomic_error _⟩
  · rw [if_neg hslash]
    by_cases hfull : famfsLogFull lp.logp = true
    · rw [if_pos hfull, if_pos hfull, atomic_ok, atomicResult_failed hnomem]
      exact ⟨fun hsame _ => hsame, fun hsame => hsame hslash⟩
    · have hlogged : (lp.logged crc32 b).logp = famfsAppendLog crc32 lp.logp (newLogEntry b) := rfl
      rw [if_neg hfull, if_neg hfull, atomic_ok, hlogged, atomicResult_appended]
      exact ⟨fun hat _ => hat, fun hat => hat hslash⟩

theorem atomic_logLast_same {relpath : CStr} (hnomem : failed (-ENOMEM))
    (hsame : SameObjects h h1) :
    Atomic crc32 kabi root failed h lp.logp (logLast crc32 h1 lp relpath b rc) ↔
      (relpath.head? ≠ some slash → famfsLogFull lp.logp = false → ¬ failed rc) := by
  rw [atomic_logLast hnomem]
  cases famfsLogFull lp.logp <;> simp [hsame]

theorem onlyAt_set (h : Host) (p : Path) (n : Option Node) : OnlyAt h (h.set p n) p :=
  fun _ hq => Function.update_of_ne hq _ _

theorem atomic_logLast_new {relpath : CStr} {n : Node} (hnomem : failed (-ENOMEM))
    (hnone : h.look p = none) (hloc : h.isLocal p = true) :
    Atomic crc32 kabi root failed h lp.logp (logLast crc32 (h.set p (some n)) lp relpath b rc) ↔
      (relpath.head? ≠ some slash → famfsLogFull lp.logp = false ∧ ¬ failed rc ∧
        Describes kabi root (h.set p (some n)) p b) := by
  have hnew : ¬ SameObjects h (h.set p (some n)) := not_sameObjects_set hnone hloc n
  have hat : (∃ q, OnlyAt h (h.set p (some n)) q ∧ Describes kabi root (h.set p (some n)) q b) ↔
      Describes kabi root (h.set p (some n)) p b := by
    constructor
    · rintro ⟨q, honly, hdesc⟩
      by_cases hq : p = q
      · rwa [hq] at hdesc ⊢
      · have htree := honly p hq
        rw [look_local hloc] at hnone
        simp only [Host.set, Function.update_self, hnone, reduceCtorEq] at htree
    · intro hdesc
      exact ⟨p, onlyAt_set h p _, hdesc⟩
  rw [atomic_logLast hnomem, hat]
  cases famfsLogFull lp.logp <;> simp [hnew]

end

/-- The file shows at the mount, and opening it gives a descriptor. -/
structure Opens (sys : Sys) (h : Host) (path : CStr) : Prop where
  opens : sys.openFile = true
  shown : (h.openRdwr path).isSome = true
  fd : 0 < sys.fd

/-- When a new shadow file is made, everything after it must work; a shadow file that
is there already is logged once more, and a text that is written over must not make a
file show or vanish unless that is reported. -/
structure ShadowSafe (sys : Sys) (h : Host) (logp : FamfsLog) (mpt root relpath : CStr) : Prop where
  fresh : ∀ p, Fresh sys h (pathIn root relpath) p → sys.fdopen = true ∧ sys.emitYaml = true ∧
    (relpath.head? ≠ some slash → famfsLogFull logp = false ∧ Opens sys (h.withFile p) (pathIn mpt relpath))
  seen : SeenFile sys h (pathIn root relpath) → relpath.head? ≠ some slash → famfsLogFull logp = false →
    Opens sys h (pathIn mpt relpath)
  rewritten : ∀ p, Hidden sys h (pathIn root relpath) p → sys.fdopen = true → sys.emitYaml = true →
    relpath.head? ≠ some slash →
      if famfsLogFull logp then SameObjects h (h.withFile p) else Opens sys (h.withFile p) (pathIn mpt relpath)
  emptied : ∀ p, Hidden sys h (pathIn root relpath) p → sys.fdopen = true → sys.emitYaml = false →
    SameObjects h (h.withStub p)

/-- A new file in the mount must get its descriptor and its map and be logged under its
own name; a file that was there already must not be unlinked, nor logged with a result
that is negative. -/
structure StubSafe (kabi : ℕ) (sys : Sys) (h : Host) (logp : FamfsLog) (mpt filename relpath : CStr) : Prop where
  fresh : ∀ p, Fresh sys h filename p → h.isFamfsV1 p = true → sys.ioctlNop = true →
    0 < sys.fd ∧ (kabi ≤ 42 → sys.mapCreate = 0) ∧
      (relpath.head? ≠ some slash → sys.mapCreate = 0 ∧ famfsLogFull logp = false ∧
        (h.withFile p).resolve (pathIn mpt (copyRelpath relpath)) = .found p)
  unlinked : ∀ p, Hidden sys h filename p → h.isLocal p = true → h.isFamfsV1 p = true ∧ sys.ioctlNop = true
  remapped : ∀ p, Hidden sys h filename p → h.isFamfsV1 p = true → sys.ioctlNop = true → 0 < sys.fd → 42 < kabi →
    relpath.head? ≠ some slash → famfsLogFull logp = false → 0 ≤ sys.mapCreate

/-! The three ways an `open` that creates can go exclude each other. -/

section

variable {sys : Sys} {h : Host} {path : CStr} {p q : Path}

theorem Fresh.unique (hp : Fresh sys h path p) (hq : Fresh sys h path q) : p = q := by
  have := hp.missing.symm.trans hq.missing
  injection this

theorem Hidden.unique (hp : Hidden sys h path p) (hq : Hidden sys h path q) : p = q := by
  have := hp.found.symm.trans hq.found
  injection this

theorem Fresh.not_hidden (hp : Fresh sys h path p) : ¬ Hidden sys h path q := by
  intro hq
  have := hp.missing.symm.trans hq.found
  cases this

theorem Fresh.not_seen (hp : Fresh sys h path p) : ¬ SeenFile sys h path := by
  rintro ⟨-, hreg⟩
  rw [stat_missing hp.missing] at hreg
  cases hreg

theorem Hidden.not_seen (hp : Hidden sys h path p) : ¬ SeenFile sys h path := by
  rintro ⟨hs, -⟩
  rw [hp.unseen] at hs
  cases hs

end

section

variable {crc32 : Crc32} {kabi : ℕ} {cred : Cred} {sys : Sys} {h : Host} {lp : FamfsLockedLog} {a : MkfileArgs}
  {fmap : FamfsLogFmap} {relpath : CStr}

theorem mkfileLog_eq (hone : fmap.fmapNextents = 1) (fd : ℤ) :
    mkfileLog crc32 h lp a fmap relpath fd = logLast crc32 h lp relpath (a.body fmap relpath) fd := by
  have hnone : ¬ fmap.fmapNextents < 1 := by omega
  have hslash : (47 : UInt8) = slash := rfl
  simp only [mkfileLog, logLast, famfsLogFileCreation, if_neg hnone, hslash]
  split_ifs
  · rfl
  · rfl
  · rfl

def openedFd (sys : Sys) (h : Host) (path : CStr) : ℤ :=
  if sys.openFile = true ∧ (h.openRdwr path).isSome = true then sys.fd else -1

theorem openedFd_iff (path : CStr) : ¬ openedFd sys h path ≤ 0 ↔ Opens sys h path := by
  unfold openedFd
  constructor
  · intro hfd
    split_ifs at hfd with hopen
    · exact ⟨hopen.1, hopen.2, by omega⟩
    · omega
  · intro hopen
    have := hopen.fd
    rw [if_pos ⟨hopen.opens, hopen.shown⟩]
    omega

theorem SameShape.opens_iff {h' : Host} (hs : SameShape h h') (path : CStr) : Opens sys h' path ↔ Opens sys h path := by
  have hopen := hs.openRdwr path
  constructor
  · rintro ⟨h1, h2, h3⟩
    exact ⟨h1, hopen ▸ h2, h3⟩
  · rintro ⟨h1, h2, h3⟩
    exact ⟨h1, hopen.symm ▸ h2, h3⟩

theorem copyRelpath_short (hlen : relpath.length ≤ FAMFS_MAX_PATHLEN - 1) : copyRelpath relpath = relpath :=
  List.take_of_length_le hlen

section

variable {root : CStr} {p : Path} {fm : FamfsLogFileMeta} (hlen : relpath.length < FAMFS_MAX_PATHLEN - 1)
  (hone : fmap.fmapNextents = 1) (hfm : logFileMeta fmap relpath a.mode a.uid a.gid a.size = fm)

include hlen hone hfm

theorem mkfileShadow_eq {rc : ℤ} {d : ShadowStats} {h1 : Host}
    (hmk : famfsShadowFileCreate cred sys h (pathIn root relpath) fm false = (rc, d, h1)) :
    mkfileShadow crc32 cred sys h lp a fmap relpath root =
      if rc ≠ 0 then .ok (-1, h1, lp)
      else logLast crc32 h1 lp relpath (.fm fm) (openedFd sys h1 (pathIn lp.mpt relpath)) := by
  rw [mkfileShadow, if_neg (by omega)]
  simp only [hfm, hmk, mkfileLog_eq hone, MkfileArgs.body]
  rfl

theorem shadow_atomic_fresh (hf : Fresh sys h (pathIn root relpath) p) :
    Atomic crc32 kabi root (· ≤ 0) h lp.logp (mkfileShadow crc32 cred sys h lp a fmap relpath root) ↔
      ShadowSafe sys h lp.logp lp.mpt root relpath := by
  have hnone := resolve_missing hf.missing
  have hsafe : ShadowSafe sys h lp.logp lp.mpt root relpath ↔ sys.fdopen = true ∧ sys.emitYaml = true ∧
      (relpath.head? ≠ some slash →
        famfsLogFull lp.logp = false ∧ Opens sys (h.withFile p) (pathIn lp.mpt relpath)) := by
    refine ⟨fun hs => hs.fresh p hf, fun hs => ⟨fun q hq => ?_, fun hseen => absurd hseen hf.not_seen,
      fun q hq => absurd hq hf.not_hidden, fun q hq => absurd hq hf.not_hidden⟩⟩
    rw [← hf.unique hq]
    exact hs
  rw [hsafe]
  have hpath : fm.fmRelpath = relpath := by
    rw [← hfm]
    exact copyRelpath_short (le_of_lt hlen)
  by_cases hgood : sys.fdopen = true ∧ sys.emitYaml = true
  · obtain ⟨attr, d, hmk⟩ := shadow_fresh cred fm hf hgood.1 hgood.2
    have hdesc : Describes kabi root (h.set p (some (.reg attr (.shadow (some fm))))) p (.fm fm) := by
      refine Describes.shadow ?_ (Function.update_self _ _ _)
      rw [hpath]
      exact resolve_placed hf.missing hf.isLocal _
    rw [mkfileShadow_eq hlen hone hfm hmk, if_neg (by simp),
      atomic_logLast_new (by decide) hnone hf.isLocal, openedFd_iff, (withFile_shadow h p attr fm).opens_iff]
    constructor
    · intro hat
      exact ⟨hgood.1, hgood.2, fun hrel => ⟨(hat hrel).1, (hat hrel).2.1⟩⟩
    · rintro ⟨-, -, hat⟩ hrel
      exact ⟨(hat hrel).1, (hat hrel).2, hdesc⟩
  · obtain ⟨attr, d, hmk⟩ := shadow_fresh_broken cred fm hf hgood
    rw [mkfileShadow_eq hlen hone hfm hmk, if_pos (by decide), atomic_ok, atomicResult_failed (by decide)]
    constructor
    · intro hsame
      exact absurd hsame (not_sameObjects_set hnone hf.isLocal _)
    · rintro ⟨h1, h2, -⟩
      exact absurd ⟨h1, h2⟩ hgood

theorem shadow_atomic_seen (hs : SeenFile sys h (pathIn root relpath)) :
    Atomic crc32 kabi root (· ≤ 0) h lp.logp (mkfileShadow crc32 cred sys h lp a fmap relpath root) ↔
      ShadowSafe sys h lp.logp lp.mpt root relpath := by
  rw [mkfileShadow_eq hlen hone hfm (shadow_seen cred fm hs), if_neg (by simp),
    atomic_logLast_same (by decide) (SameObjects.refl h), openedFd_iff]
  exact ⟨fun hat => ⟨fun q hq => absurd hs hq.not_seen, fun _ => hat, fun q hq => absurd hs hq.not_seen,
    fun q hq => absurd hs hq.not_seen⟩, fun hsafe => hsafe.seen hs⟩

theorem shadow_atomic_hidden (hh : Hidden sys h (pathIn root relpath) p) :
    Atomic crc32 kabi root (· ≤ 0) h lp.logp (mkfileShadow crc32 cred sys h lp a fmap relpath root) ↔
      ShadowSafe sys h lp.logp lp.mpt root relpath := by
  have hsafe : ShadowSafe sys h lp.logp lp.mpt root relpath ↔ (sys.fdopen = true →
      (sys.emitYaml = true → relpath.head? ≠ some slash → if famfsLogFull lp.logp then SameObjects h (h.withFile p)
        else Opens sys (h.withFile p) (pathIn lp.mpt relpath)) ∧
      (sys.emitYaml = false → SameObjects h (h.withStub p))) := by
    refine ⟨fun hs hopen => ⟨hs.rewritten p hh hopen, hs.emptied p hh hopen⟩, fun hs => ⟨fun q hq =>
      absurd hh hq.not_hidden, fun hseen => absurd hseen hh.not_seen, fun q hq => ?_, fun q hq => ?_⟩⟩
    · rw [← hh.unique hq]
      exact fun hopen => (hs hopen).1
    · rw [← hh.unique hq]
      exact fun hopen => (hs hopen).2
  rw [hsafe]
  have hpath : fm.fmRelpath = relpath := by
    rw [← hfm]
    exact copyRelpath_short (le_of_lt hlen)
  obtain ⟨d, hmk⟩ := shadow_hidden cred fm hh
  cases hopen : sys.fdopen with
  | false =>
    rw [hopen, if_pos rfl] at hmk
    rw [mkfileShadow_eq hlen hone hfm hmk, if_pos (by decide), atomic_ok]
    exact ⟨fun _ hfalse => absurd hfalse Bool.false_ne_true, fun _ => atomicResult_same (SameObjects.refl h)⟩
  | true =>
    rw [hopen, if_neg (by simp)] at hmk
    cases hemit : sys.emitYaml with
    | false =>
      rw [hemit, if_neg Bool.false_ne_true] at hmk
      rw [mkfileShadow_eq hlen hone hfm hmk, if_pos (by decide), atomic_ok, atomicResult_failed (by decide),
        (hidden_emptied hh).sameObjects_iff]
      exact ⟨fun hsame _ => ⟨fun hfalse => absurd hfalse Bool.false_ne_true, fun _ => hsame⟩,
        fun hsame => (hsame rfl).2 rfl⟩
    | true =>
      rw [hemit, if_pos rfl] at hmk
      have hshape := hidden_rewritten hh fm
      have hdesc : ¬ SameObjects h (h.modify p (Node.write (.shadow (some fm)))) →
          ∃ q, OnlyAt h (h.modify p (Node.write (.shadow (some fm)))) q ∧
            Describes kabi root (h.modify p (Node.write (.shadow (some fm)))) q (.fm fm) := by
        intro hnew
        have hloc : h.isLocal p = true := by
          by_contra hnot
          rw [Bool.not_eq_true] at hnot
          exact hnew fun q => by rw [Host.modify, look_set_hidden hnot]
        obtain ⟨attr, data, hn⟩ := hh.node hloc
        have hset : h.modify p (Node.write (.shadow (some fm))) =
            h.set p (some (.reg attr (.shadow (some fm)))) := by
          rw [Host.modify, hn]
          rfl
        rw [hset]
        refine ⟨p, onlyAt_set h p _, Describes.shadow ?_ (Function.update_self _ _ _)⟩
        rw [hpath]
        exact resolve_rewritten hn hh.found attr fm
      rw [mkfileShadow_eq hlen hone hfm hmk, if_neg (by simp), atomic_logLast (by decide),
        and_iff_left hdesc, openedFd_iff, hshape.opens_iff, hshape.sameObjects_iff]
      simp only [true_imp_iff, and_true, Bool.true_eq_false, false_imp_iff]

theorem shadow_atomic_refused (hfresh : ∀ p, ¬ Fresh sys h (pathIn root relpath) p)
    (hhidden : ∀ p, ¬ Hidden sys h (pathIn root relpath) p) (hseen : ¬ SeenFile sys h (pathIn root relpath)) :
    Atomic crc32 kabi root (· ≤ 0) h lp.logp (mkfileShadow crc32 cred sys h lp a fmap relpath root) ↔
      ShadowSafe sys h lp.logp lp.mpt root relpath := by
  obtain ⟨d, hmk⟩ := shadow_refused cred fm hfresh hhidden hseen
  rw [mkfileShadow_eq hlen hone hfm hmk, if_pos (by decide), atomic_ok]
  exact ⟨fun _ => ⟨fun q hq => absurd hq (hfresh q), fun hs => absurd hs hseen, fun q hq => absurd hq (hhidden q),
    fun q hq => absurd hq (hhidden q)⟩, fun _ => atomicResult_same (SameObjects.refl h)⟩

end

theorem mkfileShadow_atomic_iff {root : CStr} (hone : fmap.fmapNextents = 1) :
    Atomic crc32 kabi root (· ≤ 0) h lp.logp (mkfileShadow crc32 cred sys h lp a fmap relpath root) ↔
      (relpath.length < FAMFS_MAX_PATHLEN - 1 → ShadowSafe sys h lp.logp lp.mpt root relpath) := by
  by_cases hlen : relpath.length < FAMFS_MAX_PATHLEN - 1
  · simp only [hlen, true_imp_iff]
    by_cases hfresh : ∃ p, Fresh sys h (pathIn root relpath) p
    · obtain ⟨p, hf⟩ := hfresh
      exact shadow_atomic_fresh hlen hone rfl hf
    · by_cases hhidden : ∃ p, Hidden sys h (pathIn root relpath) p
      · obtain ⟨p, hh⟩ := hhidden
        exact shadow_atomic_hidden hlen hone rfl hh
      · by_cases hseen : SeenFile sys h (pathIn root relpath)
        · exact shadow_atomic_seen hlen hone rfl hseen
        · exact shadow_atomic_refused hlen hone rfl (not_exists.1 hfresh) (not_exists.1 hhidden) hseen
  · have htrap : mkfileShadow crc32 cred sys h lp a fmap relpath root = .error .assertion := by
      rw [mkfileShadow, if_pos (by omega)]
    rw [htrap]
    exact ⟨fun _ hshort => absurd hshort hlen, fun _ => atomic_error _⟩

theorem mkfileStub_eq {p : Path} {attr : Attr} {data : FileData} {map : IocMap} (hone : fmap.fmapNextents = 1)
    (hmap : playedMap kabi (logFileMeta fmap relpath a.mode a.uid a.gid a.size) = some map)
    (hmk : famfsFileCreateStub cred sys h a.filename a.mode a.uid a.gid false =
      (sys.fd, p, h.set p (some (.reg attr data)))) :
    mkfileStub crc32 kabi cred sys h lp a fmap relpath =
      if sys.fd ≤ 0 then .ok (sys.fd, h.set p (some (.reg attr data)), lp)
      else if sys.mapCreate = 0 then
        logLast crc32 (h.set p (some (.reg attr (.mapped a.size map)))) lp relpath (a.body fmap relpath) sys.fd
      else if 42 < kabi then
        logLast crc32 (h.set p (some (.reg attr data))) lp relpath (a.body fmap relpath) sys.mapCreate
      else .ok (sys.mapCreate, h.set p (some (.reg attr data)), lp) := by
  simp only [mkfileStub, hmk]
  by_cases hfd : sys.fd ≤ 0
  · rw [if_pos hfd, if_pos hfd]
  · rw [if_neg hfd, if_neg hfd]
    by_cases hk : 42 < kabi
    · have hv2 : v2Map fmap a.size = .ok (.ok map) := playedMap_v2 hk hmap
      simp only [if_pos hk, famfsV2SetFileMap, if_neg hfd, hv2, mapIoctl]
      by_cases hm : sys.mapCreate = 0
      · simp only [if_pos hm, modify_set, Node.write, Runs.ok_bind, mkfileLog_eq hone, ne_eq, not_true_eq_false,
          if_false]
      · simp only [hm, if_false, Runs.ok_bind, mkfileLog_eq hone, ne_eq, not_false_eq_true, if_true]
    · have hv1 : map = v1Map fmap 1 := by
        rw [← hone]
        exact (playedMap_v1 hk hmap).2
      simp only [if_neg hk, famfsV1SetFileMap, if_neg hfd, if_neg (show ¬ FAMFS_MAX_EXTENTS < 1 by decide), ← hv1, mapIoctl]
      by_cases hm : sys.mapCreate = 0
      · simp only [if_pos hm, modify_set, Node.write, Runs.ok_bind, mkfileLog_eq hone, ne_eq, not_true_eq_false,
          if_false]
      · simp only [hm, if_false, Runs.ok_bind, ne_eq, not_false_eq_true, if_true]

section

variable {p : Path} {map : IocMap} (hone : fmap.fmapNextents = 1)
  (hmap : playedMap kabi (logFileMeta fmap relpath a.mode a.uid a.gid a.size) = some map)

include hone hmap

theorem stub_atomic_fresh (hf : Fresh sys h a.filename p) :
    Atomic crc32 kabi lp.mpt (· ≤ 0) h lp.logp (mkfileStub crc32 kabi cred sys h lp a fmap relpath) ↔
      StubSafe kabi sys h lp.logp lp.mpt a.filename relpath := by
  have hnone := resolve_missing hf.missing
  have hsafe : StubSafe kabi sys h lp.logp lp.mpt a.filename relpath ↔
      (h.isFamfsV1 p = true → sys.ioctlNop = true → 0 < sys.fd ∧ (kabi ≤ 42 → sys.mapCreate = 0) ∧
        (relpath.head? ≠ some slash → sys.mapCreate = 0 ∧ famfsLogFull lp.logp = false ∧
          (h.withFile p).resolve (pathIn lp.mpt (copyRelpath relpath)) = .found p)) := by
    refine ⟨fun hs => hs.fresh p hf, fun hs => ⟨fun q hq => ?_, fun q hq => absurd hq hf.not_hidden,
      fun q hq => absurd hq hf.not_hidden⟩⟩
    rw [← hf.unique hq]
    exact hs
  rw [hsafe]
  by_cases hmount : h.isFamfsV1 p = true ∧ sys.ioctlNop = true
  · obtain ⟨hv1, hnop⟩ := hmount
    obtain ⟨attr, hmk⟩ := stub_fresh cred a.mode a.uid a.gid hf hv1 hnop
    have hnew : ∀ n, ¬ SameObjects h (h.set p (some n)) := not_sameObjects_set hnone hf.isLocal
    rw [mkfileStub_eq hone hmap hmk]
    simp only [hv1, hnop, true_imp_iff]
    by_cases hfd : sys.fd ≤ 0
    · rw [if_pos hfd, atomic_ok]
      exact ⟨fun hat => absurd hat (not_atomicResult (hnew _)), fun hs => absurd hs.1 (by omega)⟩
    · rw [if_neg hfd]
      by_cases hm : sys.mapCreate = 0
      · have hdesc : Describes kabi lp.mpt (h.set p (some (.reg attr (.mapped a.size map)))) p (a.body fmap relpath) ↔
            (h.withFile p).resolve (pathIn lp.mpt (copyRelpath relpath)) = .found p := by
          rw [← (withFile_v1 attr hv1 (.mapped a.size map)).resolve]
          constructor
          · intro hd
            cases hd with
            | mapped hname => exact hname
            | shadow hname => exact hname
          · intro hname
            exact Describes.mapped hname hmap (Function.update_self _ _ _)
        rw [if_pos hm, atomic_logLast_new (by decide) hnone hf.isLocal, hdesc]
        refine ⟨fun hat => ⟨by omega, fun _ => hm, fun hrel => ⟨hm, (hat hrel).1, (hat hrel).2.2⟩⟩,
          fun hs hrel => ⟨(hs.2.2 hrel).2.1, hfd, (hs.2.2 hrel).2.2⟩⟩
      · rw [if_neg hm]
        by_cases hk : 42 < kabi
        · have hdesc : ¬ Describes kabi lp.mpt (h.set p (some (.reg attr (.plain 0)))) p (a.body fmap relpath) := by
            have htree : (h.set p (some (.reg attr (.plain 0)))).tree p = some (.reg attr (.plain 0)) :=
              Function.update_self _ _ _
            intro hd
            cases hd with
            | mapped hname hmap hnode => rw [htree] at hnode; cases hnode
            | shadow hname hnode => rw [htree] at hnode; cases hnode
          rw [if_pos hk, atomic_logLast_new (by decide) hnone hf.isLocal]
          exact ⟨fun hat => ⟨by omega, fun hk' => absurd hk (by omega), fun hrel => absurd (hat hrel).2.2 hdesc⟩,
            fun hs hrel => absurd (hs.2.2 hrel).1 hm⟩
        · rw [if_neg hk, atomic_ok]
          exact ⟨fun hat => absurd hat (not_atomicResult (hnew _)), fun hs => absurd (hs.2.1 (by omega)) hm⟩
  · have hcall : mkfileStub crc32 kabi cred sys h lp a fmap relpath = .ok (-EBADF, h, lp) := by
      simp only [mkfileStub, stub_fresh_elsewhere cred a.mode a.uid a.gid hf hmount]
      rfl
    rw [hcall, atomic_ok]
    exact ⟨fun _ hv1 hnop => absurd ⟨hv1, hnop⟩ hmount, fun _ => atomicResult_same (SameObjects.refl h)⟩

theorem stub_atomic_hidden (hh : Hidden sys h a.filename p) :
    Atomic crc32 kabi lp.mpt (· ≤ 0) h lp.logp (mkfileStub crc32 kabi cred sys h lp a fmap relpath) ↔
      StubSafe kabi sys h lp.logp lp.mpt a.filename relpath := by
  have hsafe : StubSafe kabi sys h lp.logp lp.mpt a.filename relpath ↔
      (h.isLocal p = true → h.isFamfsV1 p = true ∧ sys.ioctlNop = true) ∧
        (h.isFamfsV1 p = true → sys.ioctlNop = true → 0 < sys.fd → 42 < kabi → relpath.head? ≠ some slash →
          famfsLogFull lp.logp = false → 0 ≤ sys.mapCreate) := by
    refine ⟨fun hs => ⟨hs.unlinked p hh, hs.remapped p hh⟩, fun hs => ⟨fun q hq => absurd hh hq.not_hidden,
      fun q hq => ?_, fun q hq => ?_⟩⟩
    · rw [← hh.unique hq]
      exact hs.1
    · rw [← hh.unique hq]
      exact hs.2
  rw [hsafe]
  by_cases hmount : h.isFamfsV1 p = true ∧ sys.ioctlNop = true
  · obtain ⟨hv1, hnop⟩ := hmount
    obtain ⟨attr, data, hmk⟩ := stub_hidden cred a.mode a.uid a.gid hh hv1 hnop
    obtain ⟨attr0, data0, hn⟩ := hh.node (isLocal_of_v1 hv1 p)
    have hsame : ∀ attr data, SameObjects h (h.set p (some (.reg attr data))) := by
      intro attr data q
      obtain ⟨mpt, hm⟩ := isFamfsV1_mount hv1
      simp only [Host.look, set_mount, hm]
      by_cases hq : q = p
      · simp only [Host.set, hq, Function.update_self, hn, Option.isSome_some]
      · simp only [Host.set, Function.update_of_ne hq]
    rw [mkfileStub_eq hone hmap hmk]
    simp only [hv1, hnop, true_imp_iff, and_self, implies_true, true_and]
    by_cases hfd : sys.fd ≤ 0
    · rw [if_pos hfd, atomic_ok]
      exact ⟨fun _ hpos => absurd hpos (by omega), fun _ => atomicResult_same (hsame _ _)⟩
    · rw [if_neg hfd]
      by_cases hm : sys.mapCreate = 0
      · rw [if_pos hm, atomic_logLast_same (by decide) (hsame _ _)]
        exact ⟨fun _ _ _ _ _ => by omega, fun _ _ _ => hfd⟩
      · rw [if_neg hm]
        by_cases hk : 42 < kabi
        · rw [if_pos hk, atomic_logLast_same (by decide) (hsame _ _)]
          constructor
          · intro hat _ _ hrel hroom
            have := hat hrel hroom
            omega
          · intro hs hrel hroom
            have := hs (by omega) hk hrel hroom
            omega
        · rw [if_neg hk, atomic_ok]
          exact ⟨fun _ _ hk' => absurd hk' hk, fun _ => atomicResult_same (hsame _ _)⟩
  · have hcall : mkfileStub crc32 kabi cred sys h lp a fmap relpath = .ok (-EBADF, h.set p none, lp) := by
      simp only [mkfileStub, stub_hidden_elsewhere cred a.mode a.uid a.gid hh hmount]
      rfl
    rw [hcall, atomic_ok, atomicResult_failed (by decide)]
    by_cases hloc : h.isLocal p = true
    · obtain ⟨attr, data, hn⟩ := hh.node hloc
      constructor
      · intro hsame
        have := hsame p
        rw [look_set_self hloc, look_local hloc, hn] at this
        cases this
      · intro hs
        exact absurd (hs.1 hloc) hmount
    · have hlook := look_set_hidden (Bool.not_eq_true _ ▸ hloc) none
      exact ⟨fun _ => ⟨fun hyes => absurd hyes hloc, fun hv1 hnop => absurd ⟨hv1, hnop⟩ hmount⟩,
        fun _ q => by rw [hlook]⟩

theorem mkfileStub_atomic_iff :
    Atomic crc32 kabi lp.mpt (· ≤ 0) h lp.logp (mkfileStub crc32 kabi cred sys h lp a fmap relpath) ↔
      StubSafe kabi sys h lp.logp lp.mpt a.filename relpath := by
  by_cases hfresh : ∃ p, Fresh sys h a.filename p
  · obtain ⟨p, hf⟩ := hfresh
    exact stub_atomic_fresh hone hmap hf
  · by_cases hhidden : ∃ p, Hidden sys h a.filename p
    · obtain ⟨p, hh⟩ := hhidden
      exact stub_atomic_hidden hone hmap hh
    · have hcall : mkfileStub crc32 kabi cred sys h lp a fmap relpath = .ok (-1, h, lp) := by
        simp only [mkfileStub, stub_refused cred a.mode a.uid a.gid (not_exists.1 hfresh) (not_exists.1 hhidden)]
        rfl
      rw [hcall, atomic_ok]
      exact ⟨fun _ => ⟨fun q hq => absurd ⟨q, hq⟩ hfresh, fun q hq => absurd ⟨q, hq⟩ hhidden,
        fun q hq => absurd ⟨q, hq⟩ hhidden⟩, fun _ => atomicResult_same (SameObjects.refl h)⟩

end

end

/-- `__famfs_mkfile` gets as far as making the file. -/
structure MkfileReaches (crc32 : Crc32) (kabi : ℕ) (sys : Sys) (host : AllocHost) (h : Host) (lp : FamfsLockedLog)
    (a : MkfileArgs) (relpath : CStr) : Prop where
  size : a.size ≠ 0
  free : sys.statTarget = true → h.stat (targetFullpath h a.filename) = none
  statParent : sys.statParent = true
  parent : ∃ attr, h.stat (dirname (targetFullpath h a.filename)) = some (.dir attr)
  allocated : ∃ fmap lp1, famfsFileAlloc crc32 kabi host lp a.size = .ok (0, some fmap, lp1)
  inside : famfsRelpathFromFullpath lp.mpt (targetFullpath h a.filename) = .ok (some relpath)

def CreateSafe (kabi : ℕ) (sys : Sys) (h : Host) (lp : FamfsLockedLog) (filename relpath : CStr) : Prop :=
  match lp.shadowRoot with
  | some root => relpath.length < FAMFS_MAX_PATHLEN - 1 → ShadowSafe sys h lp.logp lp.mpt root relpath
  | none => StubSafe kabi sys h lp.logp lp.mpt filename relpath

def MkfileSafe (crc32 : Crc32) (kabi : ℕ) (sys : Sys) (host : AllocHost) (h : Host) (lp : FamfsLockedLog)
    (a : MkfileArgs) : Prop :=
  ∀ relpath, MkfileReaches crc32 kabi sys host h lp a relpath → CreateSafe kabi sys h lp a.filename relpath

/-- `__famfs_mkdir` gets as far as making the directory. -/
structure MkdirReaches (sys : Sys) (h : Host) (lp : FamfsLockedLog) (a : MkdirArgs) (root relpath : CStr) : Prop where
  free : sys.realpath = true → (h.realpath a.dirpath).1 = none
  realParent : sys.realParent = true
  parent : ∃ p, h.resolve (dirname a.dirpath) = .found p ∧
    (sys.statParent = true → ∀ n, h.look p = some n → n.isDir = true) ∧
    famfsRelpathFromFullpath lp.mpt (pathIn (render p) (basename a.dirpath)) = .ok (some relpath)
  root : lp.dirRoot = some root

/-- A new directory must get its owner and be logged under its own name. -/
def MkdirSafe (sys : Sys) (h : Host) (lp : FamfsLockedLog) (a : MkdirArgs) : Prop :=
  ∀ root relpath, MkdirReaches sys h lp a root relpath → ∀ p, FreshDir sys h (pathIn root relpath) p →
    (a.uid ≠ 0 → a.gid ≠ 0 → sys.chown = true) ∧
      (relpath.head? ≠ some slash → famfsLogFull lp.logp = false ∧
        (h.withDir p).resolve (pathIn root (copyRelpath relpath)) = .found p)

section

variable {crc32 : Crc32} {kabi : ℕ} {cred : Cred} {sys : Sys} {host : AllocHost} {h : Host} {lp : FamfsLockedLog}
  {relpath : CStr}

theorem famfsMkfile_reaches {a : MkfileArgs} (hr : MkfileReaches crc32 kabi sys host h lp a relpath) :
    ∃ fmap lp1, famfsFileAlloc crc32 kabi host lp a.size = .ok (0, some fmap, lp1) ∧
      famfsMkfile crc32 kabi cred sys host h lp a = mkfileCreate crc32 kabi cred sys h lp1 a fmap relpath := by
  obtain ⟨fmap, lp1, halloc⟩ := hr.allocated
  obtain ⟨hsame, hrep⟩ := famfsFileAlloc_replayable halloc
  obtain ⟨attr, hdir⟩ := hr.parent
  have hstat : (if sys.statTarget then h.stat (targetFullpath h a.filename) else none) = none := by
    split_ifs with hs
    · exact hr.free hs
    · rfl
  refine ⟨fmap, lp1, halloc, ?_⟩
  rw [famfsMkfile, if_neg hr.size]
  simp only [hstat, hr.statParent, if_true, hdir, mkfileAlloc, halloc, Runs.ok_bind, (hrep fmap rfl).one, hsame.mpt,
    hr.inside, ne_eq, not_true_eq_false, if_false]

theorem createSafe_same {lp1 : FamfsLockedLog} (hs : SameSession lp lp1) (filename : CStr) :
    CreateSafe kabi sys h lp1 filename relpath ↔ CreateSafe kabi sys h lp filename relpath := by
  simp only [CreateSafe, hs.shadowRoot, hs.logp, hs.mpt]

theorem mkfileCreate_atomic_iff {lp1 : FamfsLockedLog} {a : MkfileArgs} {fmap : FamfsLogFmap}
    (halloc : famfsFileAlloc crc32 kabi host lp a.size = .ok (0, some fmap, lp1)) :
    Atomic crc32 kabi lp.rootStr (· ≤ 0) h lp.logp (mkfileCreate crc32 kabi cred sys h lp1 a fmap relpath) ↔
      CreateSafe kabi sys h lp a.filename relpath := by
  obtain ⟨hsame, hrep⟩ := famfsFileAlloc_replayable halloc
  have hmapped : Replayable (logFileMeta fmap relpath a.mode a.uid a.gid a.size).fmFmap := hrep fmap rfl
  obtain ⟨map, hmap⟩ := playedMap_replayable hmapped fun hk => famfsFileAlloc_simple hk halloc fmap rfl
  rw [← createSafe_same hsame, ← hsame.logp, mkfileCreate, CreateSafe, FamfsLockedLog.rootStr, ← hsame.shadowRoot,
    ← hsame.mpt]
  cases lp1.shadowRoot with
  | some root => exact mkfileShadow_atomic_iff (hrep fmap rfl).one
  | none => exact mkfileStub_atomic_iff (hrep fmap rfl).one hmap

theorem mkfile_atomic_iff (a : MkfileArgs) :
    Atomic crc32 kabi lp.rootStr (· ≤ 0) h lp.logp (famfsMkfile crc32 kabi cred sys host h lp a) ↔
      MkfileSafe crc32 kabi sys host h lp a := by
  constructor
  · intro hat relpath hr
    obtain ⟨fmap, lp1, halloc, hcall⟩ := famfsMkfile_reaches hr
    rw [hcall] at hat
    exact (mkfileCreate_atomic_iff halloc).1 hat
  · intro hsafe rc h' lp' hok
    rcases famfsMkfile_cases hok with ⟨rc', heq, -⟩ | ⟨h0, hfree, hsp, hdir, halloc⟩
    · cases heq
      exact atomicResult_same (SameObjects.refl h)
    · rcases mkfileAlloc_cases halloc with ⟨lp1, hsame, heq⟩ | ⟨lp1, fmap, relpath, halloc, hrel, hcreate⟩
      · cases heq
        rw [hsame.logp]
        exact atomicResult_same (SameObjects.refl h)
      · rw [(famfsFileAlloc_replayable halloc).1.mpt] at hrel
        have hr : MkfileReaches crc32 kabi sys host h lp a relpath := ⟨h0, hfree, hsp, hdir, ⟨fmap, lp1, halloc⟩, hrel⟩
        exact (mkfileCreate_atomic_iff halloc).2 (hsafe relpath hr) rc h' lp' hcreate

theorem mkdirCreate_eq {a : MkdirArgs} {root : CStr} {rc : ℤ} {h1 : Host} (hroot : lp.dirRoot = some root)
    (hmk : famfsDirCreate cred sys h root relpath a.mode a.uid a.gid = (rc, h1)) :
    mkdirCreate crc32 cred sys h lp a relpath =
      if rc ≠ 0 then .ok (-1, h1, lp) else logLast crc32 h1 lp relpath (a.body relpath) 0 := by
  have hslash : (47 : UInt8) = slash := rfl
  rw [mkdirCreate_rooted hroot hmk]
  simp only [famfsLogDirCreation, logLast, hslash]
  split_ifs
  · rfl
  · rfl
  · rfl
  · rfl

theorem famfsMkdir_reaches {a : MkdirArgs} {root : CStr} (hr : MkdirReaches sys h lp a root relpath) :
    famfsMkdir crc32 cred sys h lp a = mkdirCreate crc32 cred sys h lp a relpath := by
  obtain ⟨p, hp, hdir, hrel⟩ := hr.parent
  have hfree : ¬ (sys.realpath = true ∧ (h.realpath a.dirpath).1.isSome = true) := by
    rintro ⟨hs, hsome⟩
    rw [hr.free hs] at hsome
    cases hsome
  have hreal : (h.realpath (dirname a.dirpath)).1 = some (render p) := by simp only [Host.realpath, hp]
  rw [famfsMkdir, if_neg hfree]
  simp only [hr.realParent, if_true, hreal, hrel]
  split
  · next attr data hst =>
    split_ifs at hst with hs
    rw [stat_found hp] at hst
    exact absurd (hdir hs _ hst) Bool.false_ne_true
  · next attr hst =>
    split_ifs at hst with hs
    rw [stat_found hp] at hst
    exact absurd (hdir hs _ hst) Bool.false_ne_true
  · rfl

theorem mkdirCreate_atomic_iff {a : MkdirArgs} {root : CStr} (hroot : lp.dirRoot = some root) :
    Atomic crc32 kabi root (· ≠ 0) h lp.logp (mkdirCreate crc32 cred sys h lp a relpath) ↔
      ∀ p, FreshDir sys h (pathIn root relpath) p → (a.uid ≠ 0 → a.gid ≠ 0 → sys.chown = true) ∧
        (relpath.head? ≠ some slash → famfsLogFull lp.logp = false ∧
          (h.withDir p).resolve (pathIn root (copyRelpath relpath)) = .found p) := by
  by_cases hfresh : ∃ p, FreshDir sys h (pathIn root relpath) p
  · obtain ⟨p, hf⟩ := hfresh
    have hnone := resolve_missing hf.missing
    have hone : ∀ q, FreshDir sys h (pathIn root relpath) q → q = p := by
      intro q hq
      have := hq.missing.symm.trans hf.missing
      injection this
    obtain ⟨attr, hmk⟩ := dir_fresh cred a.mode a.uid a.gid hf
    have hdesc : Describes kabi root (h.set p (some (.dir attr))) p (a.body relpath) ↔
        (h.withDir p).resolve (pathIn root (copyRelpath relpath)) = .found p := by
      rw [← (withDir_dir h p attr).resolve]
      constructor
      · intro hd
        cases hd with
        | dir hname => exact hname
      · intro hname
        exact Describes.dir hname (Function.update_self _ _ _)
    rw [mkdirCreate_eq hroot hmk]
    by_cases hbad : a.uid ≠ 0 ∧ a.gid ≠ 0 ∧ sys.chown = false
    · rw [if_pos hbad, if_pos (by decide), atomic_ok, atomicResult_failed (by decide)]
      constructor
      · intro hsame
        exact absurd hsame (not_sameObjects_set hnone hf.isLocal _)
      · intro hs
        have := (hs p hf).1 hbad.1 hbad.2.1
        rw [hbad.2.2] at this
        cases this
    · have hown : a.uid ≠ 0 → a.gid ≠ 0 → sys.chown = true := by
        intro hu hg
        by_contra hc
        exact hbad ⟨hu, hg, Bool.eq_false_iff.2 hc⟩
      rw [if_neg hbad, if_neg (by simp), atomic_logLast_new (by decide) hnone hf.isLocal, hdesc]
      constructor
      · intro hat q hq
        rw [hone q hq]
        exact ⟨hown, fun hrel => ⟨(hat hrel).1, (hat hrel).2.2⟩⟩
      · intro hs hrel
        exact ⟨((hs p hf).2 hrel).1, by simp, ((hs p hf).2 hrel).2⟩
  · rw [mkdirCreate_eq hroot (dir_refused cred a.mode a.uid a.gid (not_exists.1 hfresh)), if_pos (by decide), atomic_ok]
    exact ⟨fun _ q hq => absurd ⟨q, hq⟩ hfresh, fun _ => atomicResult_same (SameObjects.refl h)⟩

theorem mkdir_atomic_iff (a : MkdirArgs) :
    Atomic crc32 kabi (lp.dirRoot.getD lp.mpt) (· ≠ 0) h lp.logp (famfsMkdir crc32 cred sys h lp a) ↔
      MkdirSafe sys h lp a := by
  constructor
  · intro hat root relpath hr
    rw [famfsMkdir_reaches hr, hr.root, Option.getD_some] at hat
    exact (mkdirCreate_atomic_iff hr.root).1 hat
  · intro hsafe rc h' lp' hok
    rcases famfsMkdir_cases hok with heq | ⟨hfree, hreal, p, relpath, hp, hdir, hrel, hcreate⟩
    · cases heq
      exact atomicResult_same (SameObjects.refl h)
    · obtain ⟨root, -, -, hroot, -⟩ := mkdirCreate_cases hcreate
      have hr : MkdirReaches sys h lp a root relpath := ⟨hfree, hreal, ⟨p, hp, hdir, hrel⟩, hroot⟩
      rw [hroot, Option.getD_some]
      exact (mkdirCreate_atomic_iff hroot).2 (hsafe root relpath hr) rc h' lp' hcreate

end

/-- A file creation fails with a result that is not positive, a directory creation with
one that is not zero. -/
theorem creation_atomic_iff (crc32 : Crc32) (kabi : ℕ) (cred : Cred) (sys : Sys) (host : AllocHost) (h : Host)
    (lp : FamfsLockedLog) :
    (∀ a : MkfileArgs,
      Atomic crc32 kabi lp.rootStr (· ≤ 0) h lp.logp (famfsMkfile crc32 kabi cred sys host h lp a) ↔
        MkfileSafe crc32 kabi sys host h lp a) ∧
    (∀ a : MkdirArgs,
      Atomic crc32 kabi (lp.dirRoot.getD lp.mpt) (· ≠ 0) h lp.logp (famfsMkdir crc32 cred sys h lp a) ↔
        MkdirSafe sys h lp a) :=
  ⟨mkfile_atomic_iff, mkdir_atomic_iff⟩

/-- What one sees after a call: its result, whether there is an object at `p`, and the
number of entries in the log. -/
def callSeen (p : Path) : Except Trap (ℤ × Host × FamfsLockedLog) → Option (ℤ × Bool × ℕ)
  | .ok (rc, h, lp) => some (rc, (h.look p).isSome, lp.logp.famfsLogNextIndex)
  | .error _ => none

def fullSession : FamfsLockedLog :=
  { freshSession with
    logp := { freshSession.logp with famfsLogNextIndex := freshSession.logp.famfsLogLastIndex + 1 } }

theorem not_atomic_of_seen {crc32 : Crc32} {kabi : ℕ} {root : CStr} {failed : ℤ → Prop} {h : Host} {logp : FamfsLog}
    {call : Except Trap (ℤ × Host × FamfsLockedLog)} {p : Path} {rc : ℤ} {n : ℕ}
    (hseen : callSeen p call = some (rc, true, n)) (hf : failed rc) (hfree : (h.look p).isSome = false) :
    ¬ Atomic crc32 kabi root failed h logp call := by
  intro hat
  cases call with
  | error t => cases hseen
  | ok r =>
    obtain ⟨rc', h', lp'⟩ := r
    simp only [callSeen, Option.some.injEq, Prod.mk.injEq] at hseen
    obtain ⟨rfl, hthere, -⟩ := hseen
    have := ((hat rc' h' lp' rfl).fails hf).2 p
    rw [hthere, hfree] at this
    cases this

def unmappedFile : Except Trap (ℤ × Host × FamfsLockedLog) :=
  famfsMkfile Crc32.update 43 ⟨0, 0, 0o022⟩ { Sys.healthy with mapCreate := -1 } ⟨true, true, id⟩ smallHost freshSession
    ⟨[47, 109, 47, 97], 0o644, 0, 0, 1, false⟩

def unloggedDir : Except Trap (ℤ × Host × FamfsLockedLog) :=
  famfsMkdir Crc32.update ⟨0, 0, 0o022⟩ Sys.healthy smallHost fullSession ⟨[47, 109, 47, 100], 0o755, 0, 0⟩

/-- The file is reported as failed but is there, and the log has its entry; the directory
is reported as failed but is there. -/
theorem failed_creation_left :
    (callSeen [[109], [97]] unmappedFile = some (-1, true, 1) ∧
      ¬ Atomic Crc32.update 43 freshSession.rootStr (· ≤ 0) smallHost freshSession.logp unmappedFile) ∧
    (callSeen [[109], [100]] unloggedDir = some (-12, true, fullSession.logp.famfsLogNextIndex) ∧
      ¬ Atomic Crc32.update 43 (fullSession.dirRoot.getD fullSession.mpt) (· ≠ 0) smallHost fullSession.logp
        unloggedDir) := by
  have hfile : callSeen [[109], [97]] unmappedFile = some (-1, true, 1) := by decide +kernel
  have hdir : callSeen [[109], [100]] unloggedDir = some (-12, true, fullSession.logp.famfsLogNextIndex) := by
    decide +kernel
  exact ⟨⟨hfile, not_atomic_of_seen hfile (by decide) (by decide)⟩,
    ⟨hdir, not_atomic_of_seen hdir (by decide) (by decide)⟩⟩

end Famfs

import Famfs.Sanity.IcacheRequests
import Famfs.Spec.Lookup

/-! What a lookup tells the kernel. The error exit returns `errno`, read after the
reference to the parent was dropped, and not the reason of the failure. Where a failed
call has set it the two agree. A parent without a descriptor, an object that is neither
a file nor a directory and a text that does not parse leave it as it was, and a lookup
that failed may then return zero. -/

namespace Famfs.Fused

open Runs

variable {c : FamfsIcache} {L : List ℕ} {weight : ℕ → ℕ} {parent fuel : ℕ} {calls : LookupCalls} {parentfd : ℤ}

/-- The calls that lead to the search in the cache. -/
def LookupCalls.Finds (calls : LookupCalls) (parentfd : ℤ) (file : LookedUp) : Prop :=
  0 ≤ parentfd ∧ ∃ newfd st, calls.openat = .ok newfd ∧ calls.fstatat = .ok st ∧ file.ino = st.2 ∧ file.kind = st.1 ∧
    (st.1 = .dir ∧ file.newfd = newfd ∨ ∃ fd, st.1 = .reg ∧ file.newfd = -1 ∧ calls.reopen = .ok fd ∧
      calls.fmeta = .ok () ∧ calls.readBuf = .ok () ∧ calls.fmemopen = .ok () ∧ calls.parsed = true)

def LookupCalls.Silent (calls : LookupCalls) (parentfd : ℤ) : Prop :=
  parentfd < 0 ∨ ∃ newfd st, calls.openat = .ok newfd ∧ calls.fstatat = .ok st ∧
    (st.1 = .other ∨ ∃ fd, st.1 = .reg ∧ calls.reopen = .ok fd ∧ calls.fmeta = .ok () ∧ calls.readBuf = .ok () ∧
      calls.fmemopen = .ok () ∧ calls.parsed = false)

def LookupCalls.Refused (calls : LookupCalls) (parentfd e : ℤ) : Prop :=
  lookupFile calls parentfd = .error e ∧ (calls.sys parentfd).searches parentfd = false

theorem call_cases {α : Type} (r : Except Errno α) :
    (∃ e : Errno, r = .error e ∧ call r = .error e.1) ∨ ∃ x, r = .ok x ∧ call r = .ok x := by
  cases r with
  | error e => exact .inl ⟨e, rfl, rfl⟩
  | ok x => exact .inr ⟨x, rfl, rfl⟩

theorem lookupFile_cases (calls : LookupCalls) (parentfd : ℤ) :
    (∃ file, calls.Finds parentfd file ∧ lookupFile calls parentfd = .ok file) ∨ (∃ e : Errno, calls.Refused parentfd e.1) ∨
      (calls.Silent parentfd ∧ calls.Refused parentfd calls.earlier) := by
  unfold LookupCalls.Refused LookupSys.searches LookupCalls.sys
  rw [lookupFile]
  by_cases hfd : parentfd < 0
  · exact .inr (.inr ⟨.inl hfd, if_pos hfd, by simp [hfd]⟩)
  have hpos : 0 ≤ parentfd := by omega
  rw [if_neg hfd]
  rcases call_cases calls.openat with ⟨e, he, hcall⟩ | ⟨newfd, hopen, hcall⟩
  · exact .inr (.inl ⟨e, by rw [hcall]; rfl, by simp [he, Except.toOption]⟩)
  rw [hcall, ok_bind]
  rcases call_cases calls.fstatat with ⟨e, he, hcall⟩ | ⟨⟨kind, ino⟩, hstat, hcall⟩
  · exact .inr (.inl ⟨e, by rw [hcall]; rfl, by simp [he, Except.toOption]⟩)
  rw [hcall, ok_bind]
  cases kind with
  | dir => exact .inl ⟨_, ⟨hpos, newfd, _, hopen, hstat, rfl, rfl, .inl ⟨rfl, rfl⟩⟩, rfl⟩
  | other => exact .inr (.inr ⟨.inr ⟨newfd, _, hopen, hstat, .inl rfl⟩, rfl, by simp [hstat, Except.toOption]⟩)
  | reg =>
    simp only
    rcases call_cases calls.reopen with ⟨e, he, hcall⟩ | ⟨fd, hreopen, hcall⟩
    · exact .inr (.inl ⟨e, by rw [hcall]; rfl, by simp [he, hstat, Except.toOption]⟩)
    rw [hcall, ok_bind]
    rcases call_cases calls.fmeta with ⟨e, he, hcall⟩ | ⟨⟨⟩, hfmeta, hcall⟩
    · exact .inr (.inl ⟨e, by rw [hcall]; rfl, by simp [he, hstat, Except.toOption]⟩)
    rw [hcall, ok_bind]
    rcases call_cases calls.readBuf with ⟨e, he, hcall⟩ | ⟨⟨⟩, hread, hcall⟩
    · exact .inr (.inl ⟨e, by rw [hcall]; rfl, by simp [he, hstat, Except.toOption]⟩)
    rw [hcall, ok_bind, famfsShadowToStat]
    rcases call_cases calls.fmemopen with ⟨e, he, hcall⟩ | ⟨⟨⟩, hmem, hcall⟩
    · exact .inr (.inl ⟨e, by rw [hcall]; rfl, by simp [he, hstat, Except.toOption]⟩)
    rw [hcall, ok_bind]
    cases hparse : calls.parsed with
    | true =>
      exact .inl ⟨_, ⟨hpos, newfd, _, hopen, hstat, rfl, rfl, .inr ⟨fd, rfl, rfl, hreopen, hfmeta, hread, hmem, hparse⟩⟩, rfl⟩
    | false =>
      refine .inr (.inr ⟨.inr ⟨newfd, _, hopen, hstat, .inr ⟨fd, rfl, hreopen, hfmeta, hread, hmem, hparse⟩⟩, rfl, ?_⟩)
      simp [hstat, Except.toOption]

theorem LookupCalls.Silent.errno (hs : calls.Silent parentfd) : lookupFile calls parentfd = .error calls.earlier := by
  rw [lookupFile]
  split_ifs with hfd
  · rfl
  · obtain ⟨newfd, st, hopen, hstat, hkind⟩ := hs.resolve_left hfd
    rcases hkind with hkind | ⟨fd, hkind, hreopen, hfmeta, hread, hmem, hparse⟩
    · simp [call, hopen, hstat, hkind, Except.mapError, bind, Except.bind]
    · simp [call, famfsShadowToStat, hopen, hstat, hkind, hreopen, hfmeta, hread, hmem, hparse, Except.mapError, bind, Except.bind]

theorem LookupCalls.Finds.sys {file : LookedUp} (hf : calls.Finds parentfd file) (parent : ℕ) :
    (calls.sys parentfd).searches parentfd = true ∧ (calls.sys parentfd).ino = file.ino ∧
      newInode (calls.sys parentfd) parent =
        { fd := file.newfd, ino := file.ino, refcount := 1, icache := true, parent := some parent } := by
  obtain ⟨hfd, newfd, ⟨kind, ino⟩, hopen, hstat, hino, -, hkind⟩ := hf
  unfold LookupSys.searches newInode LookupCalls.sys
  rcases hkind with ⟨rfl, hnew⟩ | ⟨fd, rfl, hnew, hreopen, hfmeta, hread, hmem, hparse⟩
  · simp [hfd, hopen, hstat, hino, hnew, Except.toOption]
  · simp [hfd, hopen, hstat, hino, hnew, hreopen, hfmeta, hread, hmem, hparse, Except.toOption]

theorem doLookupCalls_eq (h : IcacheOk c L [] weight) (hp : parent ∈ FUSE_ROOT_ID :: L) (halive : 1 ≤ (c.node parent).refcount) :
    famfsDoLookupCalls fuel c parent calls = famfsDoLookup fuel c parent (calls.sys (c.node parent).fd) := by
  have hget := (h.getref hp).2
  have hfd : ((c.setRef parent ((c.node parent).refcount + 1)).node parent).fd = (c.node parent).fd :=
    congrArg (·.1) (FamfsIcache.rest_setRef ..)
  rw [famfsDoLookupCalls, famfsDoLookup, getNode_eq h.linked hp halive, ok_bind, ok_bind,
    FamfsIcache.deref_eq (hget.linked.heap hp), ok_bind, ok_bind, hfd]
  have hrefused : ∀ {e : ℤ}, calls.Refused (c.node parent).fd e → (calls.sys (c.node parent).fd).errno = e := fun hr => by
    simp only [LookupCalls.sys, hr.1]
  rcases lookupFile_cases calls (c.node parent).fd with ⟨file, hfinds, hfile⟩ | ⟨e, hr⟩ | ⟨-, hr⟩
  · obtain ⟨hsearch, hino, hnew⟩ := hfinds.sys parent
    rw [hfile, if_pos hsearch, hino]
    refine congrArg (Bind.bind _) (funext fun found => ?_)
    obtain ⟨found, c₂⟩ := found
    cases found with
    | some a => rfl
    | none =>
      simp only [famfsInodeAlloc, hnew]
      cases hmem : calls.inode with
      | ok a => simp only [LookupCalls.sys, hmem, Except.toOption]
      | error e => simp only [LookupCalls.sys, hmem, hfile, Except.toOption]
  · rw [hr.1, hr.2, hrefused hr]
    rfl
  · rw [hr.1, hr.2, hrefused hr]
    rfl

structure LookupReports (c : FamfsIcache) (calls : LookupCalls) (out : LookupOut) : Prop where
  granted : out.rc = 0 → ∃ a st, out.ino = some a ∧ a ∈ FUSE_ROOT_ID :: out.icache.cached ∧
    calls.fstatat = .ok st ∧ (out.icache.node a).ino = st.2 ∧
    (out.icache.node a).refcount = if a ∈ FUSE_ROOT_ID :: c.cached then (c.node a).refcount + 1 else 1
  refused : out.rc ≠ 0 → out.icache.cached = c.cached ∧
    ∀ a ∈ FUSE_ROOT_ID :: c.cached, (out.icache.node a).refcount = (c.node a).refcount

theorem reports_refused {e : ℤ} : LookupReports c calls ⟨e, none, c⟩ ↔ e ≠ 0 := by
  constructor
  · intro hr he
    obtain ⟨a, -, hino, -⟩ := hr.granted he
    cases hino
  · intro he
    exact ⟨fun h0 => absurd h0 he, fun _ => ⟨rfl, fun _ _ => rfl⟩⟩

theorem Grant.refcount {sys : LookupSys} {a : ℕ} {c' : FamfsIcache} {L' : List ℕ} (h : IcacheOk c L [] weight)
    (hp : parent ∈ FUSE_ROOT_ID :: L) (hg : Grant c L weight parent sys a c' L') :
    (c'.node a).refcount = if a ∈ FUSE_ROOT_ID :: L then (c.node a).refcount + 1 else 1 := by
  have hparents : ∀ b ∈ L, (c'.node b).parent = (c.node b).parent := fun b hb =>
    congrArg (·.2.2.2.2.1) (hg.rest b (List.mem_cons_of_mem _ hb))
  rcases hg.list with ⟨rfl, ha⟩ | ⟨rfl, hout, hnew⟩
  · rw [hg.ok.counted.refs a ha, if_pos ha, h.counted.refs a ha, FamfsIcache.children_congr hparents, if_pos rfl]
    omega
  · have hnone : c'.children (a :: L) a = 0 := by
      refine List.countP_eq_zero.2 fun b hb => ?_
      suffices hq : ∃ q ∈ FUSE_ROOT_ID :: L, (c'.node b).parent = some q by
        obtain ⟨q, hq, heq⟩ := hq
        simp only [heq, Option.some.injEq, decide_eq_true_eq]
        exact fun hqa => hout (hqa ▸ hq)
      rcases List.mem_cons.1 hb with rfl | hb
      · exact ⟨parent, hp, congrArg (·.2.2.2.2.1) hnew⟩
      · rw [hparents b hb]
        exact h.linked.parents b hb
    rw [hg.ok.counted.refs a (by simp), if_neg hout, if_pos rfl, h.counted.outside a hout, hnone]

/-- A lookup reports its failures if the kernel holds its parent and `errno` is set
wherever no failed call sets it. -/
theorem lookup_reports_iff (h : IcacheOk c L [] weight) (hmem : ∀ a, calls.inode = .ok a → c.heap a = none) :
    (∃ out, famfsDoLookupCalls (c.count + 2) c parent calls = .ok out ∧ LookupReports c calls out) ↔
      parent ∈ FUSE_ROOT_ID :: c.cached ∧ 1 ≤ (c.node parent).refcount ∧
        (calls.Silent (c.node parent).fd → calls.earlier ≠ 0) := by
  rw [h.linked.cached_eq]
  by_cases hp : parent ∈ FUSE_ROOT_ID :: L
  swap
  · have hfree : c.heap parent = none := by
      rw [← Option.not_isSome_iff_eq_none]
      exact fun hsome => hp (by simpa using (h.linked.alloc parent).1 hsome)
    have hrun : famfsDoLookupCalls (c.count + 2) c parent calls = .error (.trap .useAfterFree) := by
      simp [famfsDoLookupCalls, getNode, famfsGetInodeFromNodeid, FamfsIcache.deref, hfree, error_bind]
    simp [hrun, hp]
  rcases Nat.eq_zero_or_pos (c.node parent).refcount with hdead | halive
  · have hrun : famfsDoLookupCalls (c.count + 2) c parent calls = .error (.trap .nullPointer) := by
      rw [famfsDoLookupCalls, getNode_none h.linked hp hdead, error_bind]
    simp [hrun, hdead]
  have hfuel : L.length < c.count + 2 := by
    rw [h.linked.count]
    omega
  have hmem' : ∀ a, (calls.sys (c.node parent).fd).inodeMem = some a → c.heap a = none := by
    intro a ha
    refine hmem a ?_
    cases hcall : calls.inode with
    | error e => simp [LookupCalls.sys, hcall, Except.toOption] at ha
    | ok b =>
      simp only [LookupCalls.sys, hcall, Except.toOption, Option.some.injEq] at ha
      rw [ha]
  rw [doLookupCalls_eq h hp halive]
  have hcases := lookup_cases h hp halive hmem' hfuel
  -- the exits before the search
  have hrefused : ∀ {e : ℤ}, calls.Refused (c.node parent).fd e →
      ((∃ out, famfsDoLookup (c.count + 2) c parent (calls.sys (c.node parent).fd) = .ok out ∧ LookupReports c calls out) ↔
        e ≠ 0) := by
    intro e hr
    rcases hcases with ⟨hrun, -⟩ | ⟨hsearch, -⟩
    · have herrno : (calls.sys (c.node parent).fd).errno = e := by simp only [LookupCalls.sys, hr.1]
      simp [hrun, herrno, reports_refused]
    · simp [hr.2] at hsearch
  rcases lookupFile_cases calls (c.node parent).fd with ⟨file, hfinds, hfile⟩ | ⟨e, hr⟩ | ⟨hsilent, hr⟩
  · have hloud : ¬ calls.Silent (c.node parent).fd := fun hs => by simp [hs.errno] at hfile
    refine iff_of_true ?_ ⟨hp, halive, fun hs => absurd hs hloud⟩
    have hsys := hfinds.sys parent
    obtain ⟨-, -, st, -, hstat, hino, -⟩ := hfinds
    rcases hcases with ⟨hrun, hfull⟩ | ⟨-, a, c', L', hrun, hgrant⟩
    · refine ⟨_, hrun, reports_refused.2 ?_⟩
      have hnomem := hfull hsys.1
      cases hcall : calls.inode with
      | error e =>
        simp only [LookupCalls.sys, hfile, hcall]
        exact e.2
      | ok a => simp [LookupCalls.sys, hcall, Except.toOption] at hnomem
    · refine ⟨_, hrun, fun _ => ⟨a, st, rfl, ?_, hstat, ?_, ?_⟩, fun hne => absurd rfl hne⟩
      · rw [hgrant.ok.linked.cached_eq]
        rcases hgrant.list with ⟨rfl, ha⟩ | ⟨rfl, -, -⟩
        · exact ha
        · simp
      · rw [hgrant.ino, hsys.2.1, hino]
      · rw [h.linked.cached_eq]
        exact hgrant.refcount h hp
  · refine (hrefused hr).trans (iff_of_true e.2 ⟨hp, halive, fun hs => ?_⟩)
    rw [Except.error.inj (hs.errno.symm.trans hr.1)]
    exact e.2
  · refine (hrefused hr).trans ⟨fun hne => ⟨hp, halive, fun _ => hne⟩, fun hall => hall.2.2 hsilent⟩

def newDirCalls : LookupCalls :=
  { earlier := 0, openat := .ok 5, fstatat := .ok (.dir, 20), reopen := .ok 5, fmeta := .ok (), readBuf := .ok (),
    fmemopen := .ok (), parsed := true, inode := .ok 16 }

theorem lookup_reports_new_dir : ∃ out, famfsDoLookupCalls 2 (famfsIcacheInit 3) FUSE_ROOT_ID newDirCalls = .ok out ∧
    LookupReports (famfsIcacheInit 3) newDirCalls out := by
  have hmem : ∀ a, newDirCalls.inode = .ok a → (famfsIcacheInit 3).heap a = none := by
    rintro a ⟨⟩
    rfl
  refine (lookup_reports_iff (icacheOk_init 3) hmem).2 ⟨List.mem_cons_self, by decide, ?_⟩
  rintro (hneg | ⟨newfd, st, -, ⟨⟩, hkind⟩)
  · exact absurd hneg (by decide)
  · simp at hkind

/-- A shadow file whose text does not parse, in a thread that has seen no error yet. -/
def badYamlCalls : LookupCalls :=
  { earlier := 0, openat := .ok 5, fstatat := .ok (.reg, 20), reopen := .ok 5, fmeta := .ok (), readBuf := .ok (),
    fmemopen := .ok (), parsed := false, inode := .ok 16 }

/-- The lookup fails, and the reply is an entry without an inode. -/
theorem lookup_hides_failure : ∃ out, famfsDoLookupCalls 2 (famfsIcacheInit 3) FUSE_ROOT_ID badYamlCalls = .ok out ∧
    out.rc = 0 ∧ out.ino = none ∧ ¬ LookupReports (famfsIcacheInit 3) badYamlCalls out := by
  have hrun : (famfsDoLookupCalls 2 (famfsIcacheInit 3) FUSE_ROOT_ID badYamlCalls).map (fun out => (out.rc, out.ino)) =
      .ok (0, none) := by decide
  cases hout : famfsDoLookupCalls 2 (famfsIcacheInit 3) FUSE_ROOT_ID badYamlCalls with
  | error e => simp [hout, Except.map] at hrun
  | ok out =>
    simp only [hout, Except.map, Except.ok.injEq, Prod.mk.injEq] at hrun
    refine ⟨out, rfl, hrun.1, hrun.2, fun hr => ?_⟩
    obtain ⟨a, -, hino, -⟩ := hr.granted hrun.1
    simp [hrun.2] at hino

end Famfs.Fused

import Famfs.Proofs.YamlReturns

/-! Which accepted documents leave a map whose counts are wrong. The parser compares the number of
extents with `nextents` when a simple list ends, and the number of strips with `nstrips` when a list
of strips ends. It compares nothing with the number of interleaved extents, it takes a `nextents`
that comes later, and what it counts is the mappings that end before the sequence does. -/

namespace Famfs

open Machine Numerals Traced Loops Relation

variable {fuel : ℕ} {fm : FamfsLogFileMeta} {past : ℕ → ℕ} {st : FileState} {parser start : YamlParser}

/-- Count the nodes of a sequence, or the mappings among them, from inside it; `depth` is the
number of collections that are open in it. -/
def topNodes (mappingsOnly : Bool) : ℕ → List YamlEvent → ℕ
  | _, [] => 0
  | depth, .mappingStart :: rest => (if depth = 0 then 1 else 0) + topNodes mappingsOnly (depth + 1) rest
  | depth, .sequenceStart :: rest =>
    (if depth = 0 ∧ mappingsOnly = false then 1 else 0) + topNodes mappingsOnly (depth + 1) rest
  | 0, .mappingEnd :: _ => 0
  | 0, .sequenceEnd :: _ => 0
  | depth + 1, .mappingEnd :: rest => topNodes mappingsOnly depth rest
  | depth + 1, .sequenceEnd :: rest => topNodes mappingsOnly depth rest
  | depth, .scalar _ :: rest => (if depth = 0 ∧ mappingsOnly = false then 1 else 0) + topNodes mappingsOnly depth rest
  | depth, .alias :: rest => (if depth = 0 ∧ mappingsOnly = false then 1 else 0) + topNodes mappingsOnly depth rest
  | depth, _ :: rest => topNodes mappingsOnly depth rest

def extentMappings (list : List YamlEvent) : ℕ := topNodes true 0 list.tail

def listElements (list : List YamlEvent) : ℕ := topNodes false 0 list.tail

/-- The mappings that end before the first end of a sequence. -/
def endedMappings (list : List YamlEvent) : ℕ := (list.takeWhile (· ≠ .sequenceEnd)).count .mappingEnd

/-- The list of strips of the first element, from inside the element on; `value` says that a value
comes next. -/
def stripsBehind : Bool → List YamlEvent → Option (List YamlEvent)
  | _, [] => none
  | true, _ :: rest => stripsBehind false rest
  | false, .scalar key :: rest =>
    if (interleaveField key).isSome then stripsBehind true rest
    else if key = lit "simple_ext_list" then some rest
    else stripsBehind false rest
  | false, .mappingEnd :: _ => none
  | false, .sequenceEnd :: _ => none
  | false, _ :: rest => stripsBehind false rest

def stripList (list : List YamlEvent) : Option (List YamlEvent) := stripsBehind false (list.drop 2)

theorem MapMemory.store_word (mem : MapMemory) (k v i : ℕ) :
    (mem.store k v).word i = if i = k then v else mem.word i := by
  unfold MapMemory.store MapMemory.word
  by_cases hk : k < 50
  · rw [if_pos hk]
    by_cases hi : i < 50
    · rw [FamfsLogFmap.wordIn_eq _ _ hi, FamfsLogFmap.wordIn_eq _ _ hi, FamfsLogFmap.word_setWord _ hk]
    · rw [FamfsLogFmap.wordIn, dif_neg hi, if_neg (by omega), FamfsLogFmap.wordIn, dif_neg hi]
  · rw [if_neg hk]
    by_cases hi : i < 50
    · rw [FamfsLogFmap.wordIn_eq _ _ hi, FamfsLogFmap.wordIn_eq _ _ hi, if_neg (by omega)]
    · rw [FamfsLogFmap.wordIn, dif_neg hi, FamfsLogFmap.wordIn, dif_neg hi]
      exact (Function.update_apply _ _ _ _).trans (if_congr (by omega) rfl rfl)

theorem MapMemory.store_header (mem : MapMemory) (k v : ℕ) :
    (mem.store k v).fmap.fmapExtType = mem.fmap.fmapExtType ∧
      (mem.store k v).fmap.fmapNextents = mem.fmap.fmapNextents := by
  unfold MapMemory.store
  split <;> exact ⟨rfl, rfl⟩

theorem MapMemory.ieNstrips_zero (mem : MapMemory) : mem.ieNstrips 0 = mem.fmap.ieNstrips 0 :=
  mem.fmap.wordIn_eq mem.past (show 50 * 0 < 50 by norm_num)

/-- What a list leaves as it was: everything but the words from `base` on. -/
structure KeptBelow (base : ℕ) (mem mem' : MapMemory) : Prop where
  extType : mem'.fmap.fmapExtType = mem.fmap.fmapExtType
  nextents : mem'.fmap.fmapNextents = mem.fmap.fmapNextents
  word : ∀ i < base, mem'.word i = mem.word i

theorem KeptBelow.refl (base : ℕ) (mem : MapMemory) : KeptBelow base mem mem := ⟨rfl, rfl, fun _ _ => rfl⟩

theorem KeptBelow.trans {base : ℕ} {f g h : MapMemory} (hfg : KeptBelow base f g) (hgh : KeptBelow base g h) :
    KeptBelow base f h :=
  ⟨hgh.extType.trans hfg.extType, hgh.nextents.trans hfg.nextents, fun i hi => (hgh.word i hi).trans (hfg.word i hi)⟩

theorem store_kept (mem : MapMemory) {base k : ℕ} (hk : base ≤ k) (v : ℕ) : KeptBelow base mem (mem.store k v) := by
  obtain ⟨htype, hn⟩ := mem.store_header k v
  refine ⟨htype, hn, fun i hi => ?_⟩
  rw [mem.store_word, if_neg (by omega)]

section

variable {owner : Option ℕ} {maxExtents : ℕ}

theorem simple_run_kept {c d : SimpleCursor} (h : ReflTransGen (SimpleStep owner maxExtents) c d) :
    KeptBelow (listBase owner) c.mem d.mem := by
  induction h with
  | refl => exact .refl _ _
  | tail _ hstep ih =>
    refine ih.trans ?_
    cases hstep with
    | extent hkey hfield hvalue => exact store_kept _ (by omega) _
    | opened hevent hroom => exact .refl _ _
    | closed hevent hlen hofs => exact .refl _ _
    | passed hevent hpass => exact .refl _ _

theorem endedMappings_parse {p q : YamlParser} {event : YamlEvent} (h : yamlParserParse p = some (event, q))
    (hne : event ≠ .sequenceEnd) :
    endedMappings p.events = endedMappings q.events + if event = .mappingEnd then 1 else 0 := by
  rcases parse_events h with hcons | ⟨rfl, rfl, hnil⟩
  · unfold endedMappings
    rw [hcons, List.takeWhile_cons, if_pos (by simpa using hne), List.count_cons]
    simp only [beq_iff_eq]
  · rw [if_neg (by decide)]
    rfl

theorem SimpleStep.ended {c d : SimpleCursor} (h : SimpleStep owner maxExtents c d) :
    d.extIndex + endedMappings d.parser.events = c.extIndex + endedMappings c.parser.events := by
  cases h with
  | extent hkey hfield hvalue =>
    rw [endedMappings_parse hkey (by simp), endedMappings_parse (expectScalar_parse hvalue) (by simp)]
    simp
  | opened hevent hroom =>
    rw [endedMappings_parse hevent (by simp)]
    simp
  | closed hevent hlen hofs =>
    rw [endedMappings_parse hevent (by simp), if_pos rfl]
    dsimp only
    omega
  | passed hevent hpass =>
    rw [endedMappings_parse hevent (by rintro rfl; exact hpass), if_neg (by rintro rfl; exact hpass)]
    rfl

theorem simple_run_ended {c d : SimpleCursor} (h : ReflTransGen (SimpleStep owner maxExtents) c d) :
    d.extIndex + endedMappings d.parser.events = c.extIndex + endedMappings c.parser.events := by
  induction h with
  | refl => rfl
  | tail _ hstep ih => exact hstep.ended.trans ih

theorem simpleList_counts {parser : YamlParser} {mem : MapMemory} {r : ExtListState}
    (h : famfsParseFileSimpleExtList fuel parser mem (listBase owner) maxExtents = some r) (hrc : r.rc = 0) :
    r.nparsed = endedMappings parser.events ∧ KeptBelow (listBase owner) mem r.mem := by
  obtain ⟨start, last, parser', hstart, hrun, hend, -, hmem, hn⟩ := simpleList_accepted h hrc
  obtain ⟨first, hseq, hmap⟩ := startList_parse hstart
  have hcount := simple_run_ended hrun
  have hlast : endedMappings last.parser.events = 0 := by
    obtain hcons | ⟨hno, -⟩ := parse_events hend
    · rw [hcons]
      rfl
    · cases hno
  rw [endedMappings_parse hseq (by simp), endedMappings_parse hmap (by simp), hn, hmem]
  refine ⟨?_, simple_run_kept hrun⟩
  simp only [reduceCtorEq, if_false] at hcount ⊢
  omega

end

section

variable {maxStrips : ℕ}

theorem stripsBehind_parse {p q : YamlParser} {event : YamlEvent} (h : yamlParserParse p = some (event, q)) :
    stripsBehind false p.events = stripsBehind false (event :: q.events) := by
  rcases parse_events h with hcons | ⟨rfl, rfl, hnil⟩
  · rw [hcons]
  · rw [hnil]
    rfl

/-- After the first element, the first word of the map is the count of the strips that were read
for it; before, its strips are still to come. -/
def StripsNoted (strips : Option (List YamlEvent)) (c : StripedCursor) : Prop :=
  (c.extIndex = 0 ∧ stripsBehind false c.parser.events = strips) ∨
    (0 < c.extIndex ∧ ∀ s, strips = some s → c.mem.ieNstrips 0 = endedMappings s)

theorem stripsNoted_step {strips : Option (List YamlEvent)} {c d : StripedCursor} (hc : StripsNoted strips c)
    (hstep : StripedStep maxStrips c d) : StripsNoted strips d := by
  cases hstep with
  | field hkey hfield hvalue =>
    rcases hc with ⟨hidx, hstrips⟩ | ⟨hpos, hnoted⟩
    · refine Or.inl ⟨hidx, ?_⟩
      rw [← hstrips, stripsBehind_parse hkey, stripsBehind, if_pos (by rw [hfield]; rfl)]
      obtain hcons | ⟨hno, -⟩ := parse_events (expectScalar_parse hvalue)
      · rw [hcons]
        rfl
      · cases hno
    · -- a later element is behind the map, and so is what is stored for it
      refine Or.inr ⟨hpos, fun s hs => ?_⟩
      exact ((store_kept c.mem (by omega) _).word _ (by norm_num : 50 * 0 < 1)).trans (hnoted s hs)
  | @strips parser fuel list hkey hlist hrc hcount =>
    obtain ⟨hn, hkept⟩ := simpleList_counts hlist hrc
    refine Or.inr ⟨Nat.succ_pos _, fun s hs => ?_⟩
    rcases hc with ⟨hidx, hstrips⟩ | ⟨hpos, hnoted⟩
    · rw [stripsBehind_parse hkey, stripsBehind, interleaveField_simple_ext_list, if_neg (by simp), if_pos rfl, hs] at hstrips
      obtain rfl : parser.events = s := by simpa using hstrips
      rw [← hn, hcount, hidx]
    · have hzero : list.mem.ieNstrips 0 = c.mem.ieNstrips 0 := hkept.word 0 (by simp [listBase])
      exact hzero.trans (hnoted s hs)
  | opened hevent hroom =>
    rcases hc with ⟨hidx, hstrips⟩ | hnoted
    · exact Or.inl ⟨hidx, by rw [← hstrips, stripsBehind_parse hevent]; rfl⟩
    · exact Or.inr hnoted
  | closed hevent =>
    refine Or.inr ⟨Nat.succ_pos _, fun s hs => ?_⟩
    rcases hc with ⟨-, hstrips⟩ | ⟨-, hnoted⟩
    · rw [stripsBehind_parse hevent, hs] at hstrips
      cases hstrips
    · exact hnoted s hs
  | @passed event parser hevent hpass =>
    rcases hc with ⟨hidx, hstrips⟩ | hnoted
    · refine Or.inl ⟨hidx, ?_⟩
      rw [← hstrips, stripsBehind_parse hevent]
      cases event with
      | scalar key => rw [stripsBehind, hpass.1, if_neg (by simp), if_neg hpass.2]
      | mappingStart => exact hpass.elim
      | mappingEnd => exact hpass.elim
      | sequenceEnd => exact hpass.elim
      | _ => rfl
    · exact Or.inr hnoted

theorem striped_run_kept {c d : StripedCursor} (h : ReflTransGen (StripedStep maxStrips) c d) :
    KeptBelow 0 c.mem d.mem := by
  induction h with
  | refl => exact .refl _ _
  | tail _ hstep ih =>
    refine ih.trans ?_
    cases hstep with
    | field hkey hfield hvalue => exact store_kept _ (Nat.zero_le _) _
    | strips hkey hlist hrc hcount =>
      obtain ⟨-, hkept⟩ := simpleList_counts hlist hrc
      exact ⟨hkept.extType, hkept.nextents, fun i hi => absurd hi (Nat.not_lt_zero i)⟩
    | opened hevent hroom => exact .refl _ _
    | closed hevent => exact .refl _ _
    | passed hevent hpass => exact .refl _ _

theorem stripedList_counts {parser : YamlParser} {mem : MapMemory} {r : StripedState}
    (h : famfsParseFileStripedExtList fuel parser mem maxStrips = some r) (hrc : r.rc = 0) :
    KeptBelow 0 mem r.mem ∧ ∀ s, stripList parser.events = some s → r.mem.fmap.ieNstrips 0 = endedMappings s := by
  obtain ⟨start, last, parser', hstart, hrun, hend, -, hmem⟩ := stripedList_accepted h hrc
  obtain ⟨first, hseq, hmap⟩ := startList_parse hstart
  have hevents : parser.events = .sequenceStart :: .mappingStart :: start.events := by
    obtain hcons | ⟨hno, -⟩ := parse_events hseq
    · obtain hcons' | ⟨hno, -⟩ := parse_events hmap
      · rw [hcons, hcons']
      · cases hno
    · cases hno
  have hfirst : StripsNoted (stripList parser.events) ⟨start, mem, 0⟩ := Or.inl ⟨rfl, by rw [hevents]; rfl⟩
  have hnoted : StripsNoted (stripList parser.events) last :=
    Runs.invariant (P := StripsNoted (stripList parser.events)) (fun _ _ hc => stripsNoted_step hc) hrun hfirst
  rw [hmem, ← MapMemory.ieNstrips_zero]
  refine ⟨striped_run_kept hrun, fun s hs => ?_⟩
  rcases hnoted with ⟨-, hstrips⟩ | ⟨-, hcount⟩
  · -- the list ended in its first element, before any strips
    rw [stripsBehind_parse hend, hs] at hstrips
    cases hstrips
  · exact hcount s hs

end

/-- A list in the `file` section, as the events behind its key. -/
inductive GivenList where
  | simple (list : List YamlEvent)
  | striped (list : List YamlEvent)

structure GivenMap where
  nextents : ℕ
  list : Option GivenList

def FileCursor.note (c : FileCursor) (given : GivenMap) : GivenMap :=
  match yamlParserParse c.parser with
  | some (.scalar key, parser) =>
    if key = lit "nextents" then
      match expectScalar parser with
      | some (value, _) => { given with nextents := u32 (strtoull value) }
      | none => given
    else if key = lit "simple_ext_list" then { given with list := some (.simple parser.events) }
    else if key = lit "striped_ext_list" then { given with list := some (.striped parser.events) }
    else given
  | _ => given

def NotedStep (s t : FileCursor × GivenMap) : Prop := FileStep 16 16 s.1 t.1 ∧ t.2 = s.1.note s.2

/-- The `file` section is read up to an end of a mapping, and gives these numbers and lists. -/
def ReadsFile (parser : YamlParser) (fm : FamfsLogFileMeta) (past : ℕ → ℕ) (given : GivenMap) : Prop :=
  ∃ start c rest, FileStarts parser start ∧
    ReflTransGen NotedStep (⟨start, fm, past⟩, ⟨fm.fmFmap.fmapNextents, none⟩) (c, given) ∧
    yamlParserParse c.parser = some (.mappingEnd, rest)

def GivenList.LeftIn (fmap : FamfsLogFmap) : GivenList → Prop
  | .simple _ => fmap.fmapExtType = FAMFS_EXT_SIMPLE
  | .striped list => fmap.fmapExtType = FAMFS_EXT_INTERLEAVE ∧
      ∀ s, stripList list = some s → fmap.ieNstrips 0 = endedMappings s

structure Noted (s : FileCursor × GivenMap) : Prop where
  nextents : s.1.fm.fmFmap.fmapNextents = s.2.nextents
  list : ∀ l, s.2.list = some l → l.LeftIn s.1.fm.fmFmap

theorem fileField_fmap {key : CStr} {store : FamfsLogFileMeta → CStr → FamfsLogFileMeta} (h : fileField key = some store)
    (fm : FamfsLogFileMeta) (value : CStr) :
    (store fm value).fmFmap =
      if key = lit "nextents" then { fm.fmFmap with fmapNextents := u32 (strtoull value) } else fm.fmFmap := by
  unfold fileField at h
  split_ifs at h with hpath hsize hflags hmode huid hgid hn
  all_goals obtain rfl := Option.some.inj h
  · rw [if_neg (by rw [hpath]; decide)]
    rfl
  · rw [if_neg (by rw [hsize]; decide)]
  · rw [if_neg (by rw [hflags]; decide)]
  · rw [if_neg (by rw [hmode]; decide)]
  · rw [if_neg (by rw [huid]; decide)]
  · rw [if_neg (by rw [hgid]; decide)]
  · rw [if_pos hn]

theorem noted_step {s t : FileCursor × GivenMap} (hs : Noted s) (hstep : NotedStep s t) : Noted t := by
  obtain ⟨c, g⟩ := s
  obtain ⟨d, g'⟩ := t
  obtain ⟨hstep, hg⟩ := hstep
  obtain rfl : g' = c.note g := hg
  unfold FileCursor.note
  dsimp only at hstep
  cases hstep with
  | @field key value parser parser' store hkey hfield hvalue =>
    rw [hkey]
    dsimp only
    rw [hvalue]
    have hfmap := fileField_fmap hfield c.fm value
    by_cases hn : key = lit "nextents"
    · rw [if_pos hn]
      rw [if_pos hn] at hfmap
      refine ⟨by dsimp only; rw [hfmap], fun l hl => ?_⟩
      dsimp only
      rw [hfmap]
      have hleft := hs.list l hl
      cases l with
      | simple list => exact hleft
      | striped list => exact hleft
    · rw [if_neg hn]
      rw [if_neg hn] at hfmap
      rw [if_neg (by rintro rfl; rw [fileField_lists.1] at hfield; cases hfield),
        if_neg (by rintro rfl; rw [fileField_lists.2] at hfield; cases hfield)]
      exact ⟨by dsimp only; rw [hfmap]; exact hs.nextents, fun l hl => by dsimp only; rw [hfmap]; exact hs.list l hl⟩
  | @simple parser fuel exts hkey hlist hrc hcount =>
    obtain ⟨-, hkept⟩ := simpleList_counts hlist hrc
    rw [hkey]
    dsimp only
    rw [if_neg (by decide), if_pos rfl]
    refine ⟨hkept.nextents.trans hs.nextents, ?_⟩
    rintro l ⟨⟩
    exact hkept.extType
  | @striped parser fuel exts hkey hlist hrc =>
    obtain ⟨hkept, hstrips⟩ := stripedList_counts hlist hrc
    rw [hkey]
    dsimp only
    rw [if_neg (by decide), if_neg (by decide), if_pos rfl]
    refine ⟨hkept.nextents.trans hs.nextents, ?_⟩
    rintro l ⟨⟩
    exact ⟨hkept.extType, hstrips⟩
  | @passed event parser hevent hpass =>
    rw [hevent]
    cases event with
    | scalar key => exact hpass.elim
    | _ => exact ⟨hs.nextents, hs.list⟩

/-- What is wanted of an accepted map, for the list that it was parsed from. -/
def CountsRight (fmap : FamfsLogFmap) : GivenList → Prop
  | .simple list => fmap.fmapExtType = FAMFS_EXT_SIMPLE ∧ fmap.fmapNextents = extentMappings list ∧
      1 ≤ fmap.fmapNextents ∧ fmap.fmapNextents ≤ 16
  | .striped list => fmap.fmapExtType = FAMFS_EXT_INTERLEAVE ∧ fmap.fmapNextents = listElements list ∧
      fmap.fmapNextents = 1 ∧ fmap.ieNstrips 0 = ((stripList list).map extentMappings).getD 0 ∧
      1 ≤ fmap.ieNstrips 0 ∧ fmap.ieNstrips 0 ≤ 16

/-- The document agrees with itself: it gives the numbers that its last list has, and no mapping
of a list of strips but its extents ends before a sequence does. -/
def NumbersAgree (nextents : ℕ) : GivenList → Prop
  | .simple list => nextents = extentMappings list ∧ 1 ≤ nextents ∧ nextents ≤ 16
  | .striped list => nextents = 1 ∧ listElements list = 1 ∧ ∃ strips, stripList list = some strips ∧
      endedMappings strips = extentMappings strips ∧ 1 ≤ extentMappings strips ∧ extentMappings strips ≤ 16

theorem counts_iff_agree {c : FileCursor} {given : GivenMap} (h : Noted (c, given)) {l : GivenList}
    (hl : given.list = some l) : CountsRight c.fm.fmFmap l ↔ NumbersAgree given.nextents l := by
  have hn : c.fm.fmFmap.fmapNextents = given.nextents := h.nextents
  have hleft := h.list l hl
  cases l with
  | simple list =>
    simp only [CountsRight, NumbersAgree, hn]
    exact and_iff_right hleft
  | striped list =>
    obtain ⟨htype, hstrips⟩ := hleft
    simp only [CountsRight, NumbersAgree, hn]
    constructor
    · rintro ⟨-, helements, hone, hcount, hpos, hmax⟩
      cases hlist : stripList list with
      | none =>
        rw [hlist, Option.map_none, Option.getD_none] at hcount
        omega
      | some strips =>
        rw [hlist, Option.map_some, Option.getD_some] at hcount
        have hended : endedMappings strips = extentMappings strips := (hstrips strips hlist).symm.trans hcount
        exact ⟨hone, helements.symm.trans hone, strips, rfl, hended, hcount ▸ hpos, hcount ▸ hmax⟩
    · rintro ⟨hone, helements, strips, hlist, hended, hpos, hmax⟩
      have hcount : c.fm.fmFmap.ieNstrips 0 = extentMappings strips := (hstrips strips hlist).trans hended
      rw [hlist, Option.map_some, Option.getD_some, hcount]
      exact ⟨htype, hone.trans helements.symm, hone, rfl, hpos, hmax⟩

theorem endDocument_fm (st : FileState) : (endDocument st).fm = st.fm := by
  unfold endDocument
  split <;> rfl

theorem file_run_noted {c d : FileCursor} (h : ReflTransGen (FileStep 16 16) c d) (given : GivenMap) :
    ∃ given', ReflTransGen NotedStep (c, given) (d, given') := by
  induction h with
  | refl => exact ⟨given, .refl⟩
  | @tail d e _ hstep ih =>
    obtain ⟨given', hrun⟩ := ih
    exact ⟨d.note given', hrun.tail ⟨hstep, rfl⟩⟩

theorem parsed_file
    (hparse : famfsParseShadowYaml fuel parser fm past 16 16 = some st) (hstart : FileStarts parser start) :
    ∃ st' : FileState, (loop (fileTurn 16 16) fuel ⟨start, fm, past⟩).result = .ok (some st') ∧
      st = if st'.rc ≠ 0 then st' else endDocument st' := by
  obtain ⟨first, hfile, hmap⟩ := hstart
  rw [← Except.ok.injEq, ← tracedShadowYaml_result, tracedShadowYaml, hfile] at hparse
  dsimp only at hparse
  rw [if_pos rfl, andThen_eq_some] at hparse
  obtain ⟨st', hloop, hst⟩ := hparse
  rw [tracedFileYaml, hmap] at hloop
  exact ⟨st', hloop, by simpa using hst.symm⟩

theorem accepted_reads
    (hparse : famfsParseShadowYaml fuel parser fm past 16 16 = some st) (hrc : st.rc = 0)
    (hstart : FileStarts parser start) : ∃ given, ReadsFile parser fm past given := by
  obtain ⟨st', hloop, rfl⟩ := parsed_file hparse hstart
  have hrc' : st'.rc = 0 := by
    by_contra hne
    rw [if_pos hne] at hrc
    exact hne hrc
  obtain ⟨c, hrun, hends⟩ := (loop_ends_iff fileTurn_mono).1 ⟨fuel, hloop⟩
  rw [file_goes] at hrun
  obtain ⟨given, hnoted⟩ := file_run_noted hrun ⟨fm.fmFmap.fmapNextents, none⟩
  exact ⟨given, start, c, st'.parser, hstart, hnoted, (file_ends hends hrc').1⟩

theorem parsed_fm {parser start rest : YamlParser} {c : FileCursor}
    (hparse : famfsParseShadowYaml fuel parser fm past 16 16 = some st) (hstart : FileStarts parser start)
    (hrun : ReflTransGen (FileStep 16 16) ⟨start, fm, past⟩ c) (hend : yamlParserParse c.parser = some (.mappingEnd, rest)) :
    st.fm = c.fm := by
  obtain ⟨st', hloop, rfl⟩ := parsed_file hparse hstart
  have hends : Ends (fileTurn 16 16) c ⟨0, c.fm, c.past, rest⟩ := by
    refine ⟨0, ?_⟩
    unfold fileTurn
    rw [hend]
    rfl
  rw [← file_goes] at hrun
  obtain ⟨fuel', hloop'⟩ := (loop_ends_iff fileTurn_mono).2 ⟨c, hrun, hends⟩
  obtain rfl := loop_unique fileTurn_mono hloop hloop'
  exact endDocument_fm _

/-- An accepted document is read to numbers and lists, and the counts in the map are right just
when these agree. -/
theorem yaml_counts_iff
    (hparse : famfsParseShadowYaml fuel parser fm past 16 16 = some st) (hrc : st.rc = 0)
    (hstart : FileStarts parser start) :
    (∃ given, ReadsFile parser fm past given) ∧
      ∀ given l, ReadsFile parser fm past given → given.list = some l →
        (CountsRight st.fm.fmFmap l ↔ NumbersAgree given.nextents l) := by
  refine ⟨accepted_reads hparse hrc hstart, ?_⟩
  rintro given l ⟨start, c, rest, hstart, hrun, hend⟩ hlist
  have hnoted : Noted (c, given) := by
    refine Runs.invariant (P := Noted) (fun _ _ hs => noted_step hs) hrun ⟨rfl, fun l hl => ?_⟩
    cases hl
  have hfile : ReflTransGen (FileStep 16 16) ⟨start, fm, past⟩ c := hrun.lift Prod.fst fun _ _ h => h.1
  rw [parsed_fm hparse hstart hfile hend]
  exact counts_iff_agree hnoted hlist

def twoExtents : List YamlEvent :=
  yamlSequence (yamlMapping (yamlScalars ["offset", "0x400000", "length", "0x200000"]) ++
    yamlMapping (yamlScalars ["offset", "0xa00000", "length", "0x400000"]))

def twoExtentList : List YamlEvent := yamlScalars ["simple_ext_list"] ++ twoExtents

theorem twoExtentList_step (fm : FamfsLogFileMeta) (past : ℕ → ℕ) (hn : fm.fmFmap.fmapNextents = 2)
    (rest : List YamlEvent) :
    ∃ fm' : FamfsLogFileMeta,
      FileStep 16 16 ⟨⟨twoExtentList ++ .mappingEnd :: rest, false⟩, fm, past⟩ ⟨⟨rest, false⟩, fm', past⟩ := by
  let fmap : FamfsLogFmap := { fm.fmFmap with fmapExtType := FAMFS_EXT_SIMPLE }
  let both : FamfsLogFmap :=
    (((fmap.setWord 1 0x400000).setWord 2 0x200000).setWord 4 0xa00000).setWord 5 0x400000
  let exts : ExtListState := ⟨0, ⟨both, past⟩, 2, ⟨rest, false⟩⟩
  have hlist : famfsParseFileSimpleExtList 20 ⟨twoExtents ++ .mappingEnd :: rest, false⟩ ⟨fmap, past⟩ (listBase none) 16 =
      some exts := rfl
  have hcount : exts.nparsed = exts.mem.fmap.fmapNextents := hn.symm
  exact ⟨{ fm with fmFmap := exts.mem.fmap }, .simple rfl hlist rfl hcount⟩

theorem yaml_counts_iff_two_extents :
    ∃ st : FileState, famfsParseShadowYaml 20 ⟨fileWithList "2" twoExtentList [], false⟩ FamfsLogFileMeta.zero
        (fun _ => 0) 16 16 = some st ∧ st.rc = 0 ∧
      CountsRight st.fm.fmFmap (.simple (twoExtents ++ [.mappingEnd, .mappingEnd, .documentEnd, .streamEnd])) := by
  have haccepted : ((famfsParseShadowYaml 20 ⟨fileWithList "2" twoExtentList [], false⟩ FamfsLogFileMeta.zero
      (fun _ => 0) 16 16).map FileState.rc) = some 0 := by
    decide +kernel
  obtain ⟨st, hparse, hrc⟩ := Option.map_eq_some_iff.1 haccepted
  let fm : FamfsLogFileMeta :=
    { FamfsLogFileMeta.zero with fmFmap := { FamfsLogFmap.zero with fmapNextents := u32 (strtoull (lit "2")) } }
  let list : List YamlEvent := twoExtents ++ [.mappingEnd, .mappingEnd, .documentEnd, .streamEnd]
  obtain ⟨fm1, hlist⟩ := twoExtentList_step fm (fun _ => 0) (by decide) [.mappingEnd, .documentEnd, .streamEnd]
  have hnextents : NotedStep (⟨⟨.scalar (lit "nextents") :: .scalar (lit "2") :: behindNextents twoExtentList [], false⟩,
      FamfsLogFileMeta.zero, fun _ => 0⟩, ⟨0, none⟩)
      (⟨⟨behindNextents twoExtentList [], false⟩, fm, fun _ => 0⟩, ⟨2, none⟩) := ⟨nextents_step _ _ _ _, rfl⟩
  have hextents : NotedStep (⟨⟨behindNextents twoExtentList [], false⟩, fm, fun _ => 0⟩, ⟨2, none⟩)
      (⟨⟨[.mappingEnd, .documentEnd, .streamEnd], false⟩, fm1, fun _ => 0⟩, ⟨2, some (.simple list)⟩) := ⟨hlist, rfl⟩
  have hreads : ReadsFile ⟨fileWithList "2" twoExtentList [], false⟩ FamfsLogFileMeta.zero (fun _ => 0)
      ⟨2, some (.simple list)⟩ :=
    ⟨_, _, ⟨[.documentEnd, .streamEnd], false⟩, fileWithList_starts "2" twoExtentList [],
      .head hnextents (.single hextents), rfl⟩
  have hiff := (yaml_counts_iff hparse hrc (fileWithList_starts "2" twoExtentList [])).2 _ _ hreads rfl
  refine ⟨st, hparse, hrc, hiff.2 ?_⟩
  simp only [NumbersAgree]
  decide

/-- A file of one interleaved extent that gives two as the number of them. -/
theorem miscounted_accepted :
    YamlDocument (interleavedYaml "2" oneStrip) ∧
      ∃ st : FileState, famfsParseShadowYaml 10 ⟨interleavedYaml "2" oneStrip, false⟩ FamfsLogFileMeta.zero (fun _ => 0)
        16 16 = some st ∧ st.rc = 0 ∧ ¬ CountsRight st.fm.fmFmap (.striped (yamlSequence oneStrip ++
          [.mappingEnd, .mappingEnd, .documentEnd, .streamEnd])) := by
  refine ⟨interleavedYaml_document "2" oneStrip_nodes, ?_⟩
  have hresult : ((famfsParseShadowYaml 10 ⟨interleavedYaml "2" oneStrip, false⟩ FamfsLogFileMeta.zero (fun _ => 0)
      16 16).map fun st => (st.rc, st.fm.fmFmap.fmapNextents)) = some (0, 2) := by
    decide +kernel
  obtain ⟨st, hparse, hpair⟩ := Option.map_eq_some_iff.1 hresult
  obtain ⟨hrc, hn⟩ : st.rc = 0 ∧ st.fm.fmFmap.fmapNextents = 2 := Prod.mk.inj hpair
  refine ⟨st, hparse, hrc, ?_⟩
  rintro ⟨-, -, hone, -⟩
  omega

end Famfs

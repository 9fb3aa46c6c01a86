import Famfs.Proofs.YamlBounds

/-! Which documents make the parser loop for ever. A list loop ends at the next end of a sequence,
and in a well-nested document there is one ahead of it. The loop over the `file` section ends at the
next end of a mapping, but a list that it accepts takes one away: when lists take them all, the loop
goes on with the empty events behind the end of the stream. -/

namespace Famfs

open Machine Numerals Traced Loops Relation

variable {parser : YamlParser}

/-- Reading leads from one place of the stream to another. -/
structure Leads (p q : YamlParser) : Prop where
  suffix : q.events <:+ p.events
  broken : q.broken = p.broken

theorem Leads.refl (p : YamlParser) : Leads p p := ⟨List.suffix_rfl, rfl⟩

theorem Leads.trans {p q r : YamlParser} (hpq : Leads p q) (hqr : Leads q r) : Leads p r :=
  ⟨hqr.suffix.trans hpq.suffix, hqr.broken.trans hpq.broken⟩

section

variable {p q : YamlParser} {event : YamlEvent}

theorem parse_leads (h : yamlParserParse p = some (event, q)) : Leads p q := by
  unfold yamlParserParse at h
  cases hevents : p.events with
  | nil =>
    rw [hevents] at h
    dsimp only at h
    split_ifs at h
    obtain ⟨-, rfl⟩ : YamlEvent.noEvent = event ∧ p = q := by simpa using h
    exact .refl p
  | cons first rest =>
    rw [hevents] at h
    obtain ⟨-, rfl⟩ : first = event ∧ YamlParser.mk rest p.broken = q := by simpa using h
    exact ⟨by rw [hevents]; exact List.suffix_cons first rest, rfl⟩

theorem parse_shorter (h : yamlParserParse p = some (event, q)) (hne : p.events ≠ []) :
    q.events.length < p.events.length := by
  rcases parse_events h with hcons | ⟨-, -, hnil⟩
  · rw [hcons, List.length_cons]
    omega
  · exact absurd hnil hne

theorem startList_ends {start : YamlParser} (hstart : startList p = some start)
    (h : p.events.count .sequenceStart ≤ p.events.count .sequenceEnd) :
    start.events.count .sequenceStart < start.events.count .sequenceEnd := by
  obtain ⟨first, hseq, hmap⟩ := startList_parse hstart
  rw [parse_count hseq (by decide), parse_count hseq (by decide), parse_count hmap (by decide),
    parse_count hmap (by decide)] at h
  simp only [reduceCtorEq, if_true, if_false] at h
  omega

/-- One turn inside a list: it reads an event that does not end the list, and then takes no more
ends of sequences than starts. -/
def InList (p d : YamlParser) : Prop :=
  ∃ event q, yamlParserParse p = some (event, q) ∧ event ≠ .sequenceEnd ∧ Leads q d ∧
    d.events.count .sequenceStart + q.events.count .sequenceEnd ≤
      q.events.count .sequenceStart + d.events.count .sequenceEnd

/-- A loop over a list ends: there is one more end of a sequence ahead of each turn than starts. -/
theorem halts_in_list {S R α ε : Type} {turn : ℕ → S → Traced α ε (Option (S ⊕ R))} (place : S → YamlParser)
    (hmono : Mono turn) (hturn : ∀ c, (place c).events.count .sequenceStart ≤ (place c).events.count .sequenceEnd →
      ∃ fuel, (turn fuel c).result ≠ .ok none)
    (hgoes : ∀ c d, Goes turn c d → InList (place c) (place d)) {c : S}
    (h : (place c).events.count .sequenceStart < (place c).events.count .sequenceEnd) : Halts turn c := by
  induction hlen : (place c).events.length using Nat.strong_induction_on generalizing c with
  | _ n ih =>
    apply halts_of_turn hmono (hturn c h.le)
    intro d hd
    obtain ⟨event, q, hparse, hne, hleads, hcount⟩ := hgoes c d hd
    have hnil : (place c).events ≠ [] := by
      intro hnil
      rw [hnil] at h
      simp at h
    have hshort := parse_shorter hparse hnil
    have hd' := hleads.suffix.length_le
    apply ih _ (by omega) _ rfl
    have hstarts := (parse_leads hparse).suffix.sublist.count_le .sequenceStart
    have hends := parse_count hparse (show YamlEvent.sequenceEnd ≠ .noEvent by decide)
    rw [if_neg hne] at hends
    omega

end

section

variable {owner : Option ℕ} {maxExtents : ℕ}

theorem SimpleStep.leads {c d : SimpleCursor} (h : SimpleStep owner maxExtents c d) :
    ∃ event q, yamlParserParse c.parser = some (event, q) ∧ event ≠ .sequenceEnd ∧ Leads q d.parser ∧
      d.parser.events.count .sequenceEnd = q.events.count .sequenceEnd := by
  cases h with
  | extent hkey hfield hvalue =>
    refine ⟨_, _, hkey, by simp, parse_leads (expectScalar_parse hvalue), ?_⟩
    rw [parse_count (expectScalar_parse hvalue) (by decide)]
    simp
  | opened hevent hroom => exact ⟨_, _, hevent, by simp, .refl _, rfl⟩
  | closed hevent hlen hofs => exact ⟨_, _, hevent, by simp, .refl _, rfl⟩
  | passed hevent hpass => exact ⟨_, _, hevent, by rintro rfl; exact hpass, .refl _, rfl⟩

theorem simple_run_leads {c d : SimpleCursor} (h : ReflTransGen (SimpleStep owner maxExtents) c d) :
    Leads c.parser d.parser ∧ d.parser.events.count .sequenceEnd = c.parser.events.count .sequenceEnd := by
  induction h with
  | refl => exact ⟨.refl _, rfl⟩
  | tail _ hstep ih =>
    obtain ⟨event, q, hparse, hne, hleads, hcount⟩ := hstep.leads
    refine ⟨ih.1.trans ((parse_leads hparse).trans hleads), ?_⟩
    rw [← ih.2, parse_count hparse (by decide), if_neg hne, hcount]
    rfl

theorem simpleTurn_ne_none (fuel : ℕ) (c : SimpleCursor) : (simpleTurn owner maxExtents fuel c).result ≠ .ok none := by
  obtain ⟨key, value, parser, parser', field, hkey, hfield, hvalue⟩ | ⟨d, -, hturn⟩ | ⟨r, hturn, -⟩ :=
    simpleTurn_cases owner maxExtents fuel c
  · rw [simpleTurn_extent hkey hfield hvalue]
    simp [Runs.ok_bind]
  · simp [hturn]
  · simp [hturn]

theorem SimpleStep.inList {c d : SimpleCursor} (h : SimpleStep owner maxExtents c d) : InList c.parser d.parser := by
  obtain ⟨event, q, hparse, hne, hleads, hcount⟩ := h.leads
  have hstarts := hleads.suffix.sublist.count_le .sequenceStart
  exact ⟨event, q, hparse, hne, hleads, by omega⟩

theorem simpleList_returns (mem : MapMemory)
    (h : parser.events.count .sequenceStart ≤ parser.events.count .sequenceEnd) :
    ∃ fuel, (tracedSimpleExtList owner maxExtents fuel parser mem).result ≠ .ok none := by
  unfold tracedSimpleExtList
  cases hstart : startList parser with
  | none => exact ⟨0, by simp⟩
  | some start =>
    exact halts_in_list SimpleCursor.parser simpleTurn_mono (fun c _ => ⟨0, simpleTurn_ne_none 0 c⟩)
      (fun c d hd => (simple_goes_iff.1 hd).inList) (startList_ends hstart h)

theorem simpleList_leads {fuel : ℕ} {mem : MapMemory} {r : ExtListState}
    (h : famfsParseFileSimpleExtList fuel parser mem (listBase owner) maxExtents = some r) (hrc : r.rc = 0) :
    Leads parser r.parser ∧ parser.events.count .sequenceEnd = r.parser.events.count .sequenceEnd + 1 ∧
      r.parser.events.count .sequenceStart + 1 ≤ parser.events.count .sequenceStart := by
  obtain ⟨start, last, parser', hstart, hrun, hend, hmap', -, -⟩ := simpleList_accepted h hrc
  obtain ⟨first, hseq, hmap⟩ := startList_parse hstart
  obtain ⟨hleads, hcount⟩ := simple_run_leads hrun
  have hrest : Leads start r.parser :=
    hleads.trans ((parse_leads hend).trans (parse_leads (expectEvent_parse hmap')))
  refine ⟨(parse_leads hseq).trans ((parse_leads hmap).trans hrest), ?_, ?_⟩
  · rw [parse_count hend (by decide), parse_count (expectEvent_parse hmap') (by decide)] at hcount
    rw [parse_count hseq (by decide), parse_count hmap (by decide), ← hcount]
    simp
  · have hstarts := hrest.suffix.sublist.count_le .sequenceStart
    rw [parse_count hseq (by decide), parse_count hmap (by decide)]
    simp only [reduceCtorEq, if_true, if_false]
    omega

end

section

variable {maxStrips : ℕ}

theorem StripedStep.inList {c d : StripedCursor} (h : StripedStep maxStrips c d) : InList c.parser d.parser := by
  cases h with
  | field hkey hfield hvalue =>
    refine ⟨_, _, hkey, by simp, parse_leads (expectScalar_parse hvalue), ?_⟩
    rw [parse_count (expectScalar_parse hvalue) (by decide), parse_count (expectScalar_parse hvalue) (by decide)]
    simp
  | strips hkey hlist hrc hcount =>
    obtain ⟨hleads, hends, hstarts⟩ := simpleList_leads hlist hrc
    refine ⟨_, _, hkey, by simp, hleads, ?_⟩
    dsimp only
    omega
  | opened hevent hroom => exact ⟨_, _, hevent, by simp, .refl _, le_rfl⟩
  | closed hevent => exact ⟨_, _, hevent, by simp, .refl _, le_rfl⟩
  | passed hevent hpass => exact ⟨_, _, hevent, by rintro rfl; exact hpass, .refl _, le_rfl⟩

theorem striped_run_leads {c d : StripedCursor} (h : ReflTransGen (StripedStep maxStrips) c d) :
    Leads c.parser d.parser := by
  induction h with
  | refl => exact .refl _
  | tail _ hstep ih =>
    obtain ⟨event, q, hparse, -, hleads, -⟩ := hstep.inList
    exact ih.trans ((parse_leads hparse).trans hleads)

theorem stripedTurn_returns {c : StripedCursor}
    (h : c.parser.events.count .sequenceStart ≤ c.parser.events.count .sequenceEnd) :
    ∃ fuel, (stripedTurn maxStrips fuel c).result ≠ .ok none := by
  obtain ⟨key, value, parser, parser', field, hkey, hfield, hvalue⟩ | ⟨parser, hkey⟩ | ⟨d, -, hturn⟩ | ⟨r, hturn, -⟩ :=
    stripedTurn_cases maxStrips c
  · refine ⟨0, ?_⟩
    rw [stripedTurn_field hkey hfield hvalue]
    simp [Runs.ok_bind]
  · rw [parse_count hkey (by decide), parse_count hkey (by decide)] at h
    have hlist : ∃ fuel, (tracedSimpleExtList (some c.extIndex) maxStrips fuel parser c.mem).result ≠ .ok none :=
      simpleList_returns c.mem h
    obtain ⟨fuel, hfuel⟩ := hlist
    refine ⟨fuel, ?_⟩
    rw [stripedTurn_strips hkey]
    apply andThen_ne_none hfuel
    intro strips
    unfold afterStrips
    split_ifs <;> simp
  · exact ⟨0, by simp [hturn]⟩
  · exact ⟨0, by simp [hturn]⟩

theorem stripedList_returns (mem : MapMemory)
    (h : parser.events.count .sequenceStart ≤ parser.events.count .sequenceEnd) :
    ∃ fuel, (tracedStripedExtList maxStrips fuel parser mem).result ≠ .ok none := by
  unfold tracedStripedExtList
  cases hstart : startList parser with
  | none => exact ⟨0, by simp⟩
  | some start =>
    exact halts_in_list StripedCursor.parser stripedTurn_mono (fun c hc => stripedTurn_returns hc)
      (fun c d hd => (striped_goes_iff.1 hd).inList) (startList_ends hstart h)

theorem stripedList_leads {fuel : ℕ} {mem : MapMemory} {r : StripedState}
    (h : famfsParseFileStripedExtList fuel parser mem maxStrips = some r) (hrc : r.rc = 0) :
    Leads parser r.parser := by
  obtain ⟨start, last, parser', hstart, hrun, hend, hmap', -⟩ := stripedList_accepted h hrc
  obtain ⟨first, hseq, hmap⟩ := startList_parse hstart
  have hrest : Leads start r.parser :=
    (striped_run_leads hrun).trans ((parse_leads hend).trans (parse_leads (expectEvent_parse hmap')))
  exact (parse_leads hseq).trans ((parse_leads hmap).trans hrest)

end

section

variable {maxExtents maxStrips : ℕ}

theorem FileStep.leads {c d : FileCursor} (h : FileStep maxExtents maxStrips c d) :
    ∃ event q, yamlParserParse c.parser = some (event, q) ∧ Leads q d.parser := by
  cases h with
  | field hkey hfield hvalue => exact ⟨_, _, hkey, parse_leads (expectScalar_parse hvalue)⟩
  | simple hkey hlist hrc hcount => exact ⟨_, _, hkey, (simpleList_leads hlist hrc).1⟩
  | striped hkey hlist hrc => exact ⟨_, _, hkey, stripedList_leads hlist hrc⟩
  | passed hevent hpass => exact ⟨_, _, hevent, .refl _⟩

theorem fileTurn_returns {c : FileCursor} (h : SequencesEnd c.parser.events) :
    ∃ fuel, (fileTurn maxExtents maxStrips fuel c).result ≠ .ok none := by
  have hafter : ∀ {key : CStr} {list : YamlParser}, yamlParserParse c.parser = some (.scalar key, list) →
      list.events.count .sequenceStart ≤ list.events.count .sequenceEnd :=
    fun hkey => (h.suffix (parse_leads hkey).suffix).count
  obtain ⟨list, hkey⟩ | ⟨list, hkey⟩ | ⟨d, -, hturn⟩ | ⟨r, hturn, -⟩ := fileTurn_cases maxExtents maxStrips c
  · obtain ⟨fuel, hfuel⟩ : ∃ fuel, (tracedSimpleExtList none maxExtents fuel list
        ⟨{ c.fm.fmFmap with fmapExtType := FAMFS_EXT_SIMPLE }, c.past⟩).result ≠ .ok none := simpleList_returns _ (hafter hkey)
    refine ⟨fuel, ?_⟩
    rw [fileTurn_simple hkey]
    apply andThen_ne_none hfuel
    intro exts
    unfold afterSimpleList
    split_ifs <;> simp
  · obtain ⟨fuel, hfuel⟩ : ∃ fuel, (tracedStripedExtList maxStrips fuel list
        ⟨{ c.fm.fmFmap with fmapExtType := FAMFS_EXT_INTERLEAVE }, c.past⟩).result ≠ .ok none := stripedList_returns _ (hafter hkey)
    refine ⟨fuel, ?_⟩
    rw [fileTurn_striped hkey]
    apply andThen_ne_none hfuel
    intro exts
    unfold afterStripedList
    split_ifs <;> simp
  · exact ⟨0, by simp [hturn]⟩
  · exact ⟨0, by simp [hturn]⟩

theorem fileTurn_idle {c : FileCursor} (hnil : c.parser.events = []) (hbroken : c.parser.broken = false) (fuel : ℕ) :
    (fileTurn maxExtents maxStrips fuel c).result = .ok (some (.inl c)) := by
  have hparse : yamlParserParse c.parser = some (.noEvent, c.parser) := by
    unfold yamlParserParse
    rw [hnil, hbroken]
    rfl
  unfold fileTurn
  rw [hparse]
  rfl

theorem file_run_leads {c d : FileCursor} (h : ReflTransGen (FileStep maxExtents maxStrips) c d) :
    Leads c.parser d.parser := by
  induction h with
  | refl => exact .refl _
  | tail _ hstep ih =>
    obtain ⟨event, q, hparse, hleads⟩ := hstep.leads
    exact ih.trans ((parse_leads hparse).trans hleads)

theorem file_halts_iff {c : FileCursor} (hseq : SequencesEnd c.parser.events) (hbroken : c.parser.broken = false) :
    Halts (fileTurn maxExtents maxStrips) c ↔
      ¬ ∃ d, ReflTransGen (FileStep maxExtents maxStrips) c d ∧ d.parser.events = [] := by
  constructor
  · rintro hhalts ⟨d, hrun, hnil⟩
    rw [← file_goes] at hrun
    have hd : d.parser.broken = false := by
      rw [file_goes] at hrun
      rw [(file_run_leads hrun).broken, hbroken]
    exact not_halts_of_idle (fileTurn_idle hnil hd) ((halts_of_run fileTurn_mono hrun).1 hhalts)
  · intro hnever
    induction hlen : c.parser.events.length using Nat.strong_induction_on generalizing c with
    | _ n ih =>
      apply halts_of_turn fileTurn_mono (fileTurn_returns hseq)
      intro d hd
      rw [file_goes_iff] at hd
      obtain ⟨event, q, hparse, hleads⟩ := hd.leads
      have hnil : c.parser.events ≠ [] := fun hnil => hnever ⟨c, .refl, hnil⟩
      have hshort := parse_shorter hparse hnil
      have hd' := hleads.suffix.length_le
      have hall := (parse_leads hparse).trans hleads
      apply ih _ (by omega) (hseq.suffix hall.suffix) (hall.broken.trans hbroken) _ rfl
      rintro ⟨e, hrun, hend⟩
      exact hnever ⟨e, .head hd hrun, hend⟩

end

/-- The `file` section can be read to the end of the stream: the loop gets there by keys with their
values, accepted lists and other events, without the end of a mapping in between. -/
def ReadsToEnd (maxExtents maxStrips : ℕ) (parser : YamlParser) (fm : FamfsLogFileMeta) (past : ℕ → ℕ) : Prop :=
  ∃ start c, FileStarts parser start ∧ ReflTransGen (FileStep maxExtents maxStrips) ⟨start, fm, past⟩ c ∧
    c.parser.events = []

theorem startDocument_leads {parser start : YamlParser} {key : CStr} (h : startDocument parser = some (key, start)) :
    Leads parser start := by
  unfold startDocument at h
  simp only [Option.bind_eq_bind, Option.bind_eq_some_iff] at h
  obtain ⟨p3, ⟨p2, ⟨p1, h1, h2⟩, h3⟩, h4⟩ := h
  exact ((parse_leads (expectEvent_parse h1)).trans (parse_leads (expectEvent_parse h2))).trans
    ((parse_leads (expectEvent_parse h3)).trans (parse_leads (expectScalar_parse h4)))

theorem parser_returns_halts {fm : FamfsLogFileMeta} {past : ℕ → ℕ} {maxExtents maxStrips : ℕ} :
    (∃ fuel, famfsParseShadowYaml fuel parser fm past maxExtents maxStrips ≠ none) ↔
      ∀ start, FileStarts parser start → Halts (fileTurn maxExtents maxStrips) ⟨start, fm, past⟩ := by
  have hresult : ∀ fuel, famfsParseShadowYaml fuel parser fm past maxExtents maxStrips ≠ none ↔
      (tracedShadowYaml fuel parser fm past maxExtents maxStrips).result ≠ .ok none := fun fuel => by
    rw [tracedShadowYaml_result, ne_eq, ne_eq, Except.ok.injEq]
  simp only [hresult, tracedShadowYaml, FileStarts]
  rcases startDocument parser with _ | ⟨key, first⟩
  · simp
  dsimp only
  by_cases hkey : key = lit "file"
  swap
  · simp [hkey]
  have hrest : ∀ st : FileState, (pure (some (if st.rc ≠ 0 then st else endDocument st)) :
      Traced MapAccess Trap (Option FileState)).result ≠ .ok none := fun _ => by simp
  have hreturns : ∀ fuel, (andThen (tracedFileYaml maxExtents maxStrips fuel first fm past) fun st =>
      pure (some (if st.rc ≠ 0 then st else endDocument st))).result ≠ .ok none ↔
        (tracedFileYaml maxExtents maxStrips fuel first fm past).result ≠ .ok none := fun _ =>
    ⟨fun h hnone => h (andThen_of_none hnone).2, fun h => andThen_ne_none h hrest⟩
  simp only [if_pos hkey, hreturns]
  unfold tracedFileYaml
  cases hmap : expectEvent .mappingStart first with
  | none => simp [hmap]
  | some start => simp [hkey, hmap, Halts]

/-- On a well-nested document the parser returns just when the `file` section cannot be read to
the end of the stream. -/
theorem parser_returns_iff {events : List YamlEvent} (hdoc : YamlDocument events) (maxExtents maxStrips : ℕ)
    (fm : FamfsLogFileMeta) (past : ℕ → ℕ) :
    (∃ fuel, famfsParseShadowYaml fuel ⟨events, false⟩ fm past maxExtents maxStrips ≠ none) ↔
      ¬ ReadsToEnd maxExtents maxStrips ⟨events, false⟩ fm past := by
  have hstart : ∀ {start}, FileStarts ⟨events, false⟩ start → Leads ⟨events, false⟩ start := by
    rintro start ⟨first, hfile, hmap⟩
    exact (startDocument_leads hfile).trans (parse_leads (expectEvent_parse hmap))
  have hhalts : ∀ {start}, FileStarts ⟨events, false⟩ start → (Halts (fileTurn maxExtents maxStrips) ⟨start, fm, past⟩ ↔
      ¬ ∃ d, ReflTransGen (FileStep maxExtents maxStrips) ⟨start, fm, past⟩ d ∧ d.parser.events = []) := fun h =>
    file_halts_iff (hdoc.sequencesEnd.suffix (hstart h).suffix) (hstart h).broken
  rw [parser_returns_halts]
  constructor
  · rintro h ⟨start, c, hfile, hrun, hend⟩
    exact (hhalts hfile).1 (h start hfile) ⟨c, hrun, hend⟩
  · intro h start hfile
    apply (hhalts hfile).2
    rintro ⟨c, hrun, hend⟩
    exact h ⟨start, c, hfile, hrun, hend⟩

def oneExtent : List YamlEvent :=
  yamlSequence (yamlMapping (yamlScalars ["offset", "0x400000", "length", "0x200000"]))

def oneExtentList : List YamlEvent := yamlScalars ["simple_ext_list"] ++ oneExtent

def fileWithList (count : String) (list behind : List YamlEvent) : List YamlEvent :=
  yamlDocument (yamlMapping (yamlScalars ["file"] ++ yamlMapping (yamlScalars ["nextents", count] ++ list) ++ behind))

theorem oneExtentList_nodes : YamlNodes oneExtentList :=
  (yamlScalars_nodes _).append (yamlSequence_nodes (yamlMapping_nodes (yamlScalars_nodes _)))

theorem fileWithList_document (count : String) {list behind : List YamlEvent} (hlist : YamlNodes list)
    (h : YamlNodes behind) : YamlDocument (fileWithList count list behind) :=
  ⟨_, yamlMapping_nodes (((yamlScalars_nodes _).append
    (yamlMapping_nodes ((yamlScalars_nodes _).append hlist))).append h), rfl⟩

theorem parser_returns_one_extent :
    YamlDocument (fileWithList "1" oneExtentList []) ∧ ¬ ReadsToEnd 16 16 ⟨fileWithList "1" oneExtentList [], false⟩ FamfsLogFileMeta.zero (fun _ => 0) := by
  have hdoc : YamlDocument (fileWithList "1" oneExtentList []) := fileWithList_document "1" oneExtentList_nodes .nil
  refine ⟨hdoc, (parser_returns_iff hdoc 16 16 FamfsLogFileMeta.zero (fun _ => 0)).1 ⟨10, ?_⟩⟩
  have hsome : (famfsParseShadowYaml 10 ⟨fileWithList "1" oneExtentList [], false⟩ FamfsLogFileMeta.zero (fun _ => 0) 16 16).isSome := by
    decide +kernel
  intro hnone
  rw [hnone] at hsome
  cases hsome

/-- The `file` section of such a document, from its list on. -/
def behindNextents (list behind : List YamlEvent) : List YamlEvent :=
  list ++ .mappingEnd :: (behind ++ [.mappingEnd, .documentEnd, .streamEnd])

theorem fileWithList_starts (count : String) (list behind : List YamlEvent) :
    FileStarts ⟨fileWithList count list behind, false⟩
      ⟨.scalar (lit "nextents") :: .scalar (lit count) :: behindNextents list behind, false⟩ := by
  have hevents : fileWithList count list behind = .streamStart :: .documentStart :: .mappingStart ::
      .scalar (lit "file") :: .mappingStart :: .scalar (lit "nextents") :: .scalar (lit count) ::
      behindNextents list behind := by
    simp [fileWithList, behindNextents, yamlDocument, yamlMapping, yamlScalars]
  rw [hevents]
  exact ⟨_, rfl, rfl⟩

theorem nextents_step (count : String) (fm : FamfsLogFileMeta) (past : ℕ → ℕ) (rest : List YamlEvent) :
    FileStep 16 16 ⟨⟨.scalar (lit "nextents") :: .scalar (lit count) :: rest, false⟩, fm, past⟩
      ⟨⟨rest, false⟩, { fm with fmFmap := { fm.fmFmap with fmapNextents := u32 (strtoull (lit count)) } }, past⟩ := by
  have hfield : fileField (lit "nextents") = some fun fm value =>
      { fm with fmFmap := { fm.fmFmap with fmapNextents := u32 (strtoull value) } } := rfl
  exact .field rfl hfield rfl

theorem oneExtentList_step (fm : FamfsLogFileMeta) (past : ℕ → ℕ) (hn : fm.fmFmap.fmapNextents = 1) (rest : List YamlEvent) :
    ∃ fm' : FamfsLogFileMeta, fm'.fmFmap.fmapNextents = 1 ∧
      FileStep 16 16 ⟨⟨oneExtentList ++ .mappingEnd :: rest, false⟩, fm, past⟩ ⟨⟨rest, false⟩, fm', past⟩ := by
  let fmap : FamfsLogFmap := { fm.fmFmap with fmapExtType := FAMFS_EXT_SIMPLE }
  let exts : ExtListState := ⟨0, ⟨(fmap.setWord 1 0x400000).setWord 2 0x200000, past⟩, 1, ⟨rest, false⟩⟩
  have hlist : famfsParseFileSimpleExtList 10 ⟨oneExtent ++ .mappingEnd :: rest, false⟩ ⟨fmap, past⟩ (listBase none) 16 =
      some exts := rfl
  have hcount : exts.nparsed = exts.mem.fmap.fmapNextents := hn.symm
  have hn' : exts.mem.fmap.fmapNextents = 1 := hn
  exact ⟨{ fm with fmFmap := exts.mem.fmap }, hn', .simple rfl hlist rfl hcount⟩

/-- Both mappings are open at the first list, and the two lists take their ends. -/
theorem strayList_never_ends :
    YamlDocument (fileWithList "1" oneExtentList oneExtentList) ∧
      ∀ fuel, famfsParseShadowYaml fuel ⟨fileWithList "1" oneExtentList oneExtentList, false⟩ FamfsLogFileMeta.zero (fun _ => 0) 16 16 = none := by
  refine ⟨fileWithList_document "1" oneExtentList_nodes oneExtentList_nodes, ?_⟩
  by_contra hreturns
  have hhalts := parser_returns_halts.1 (not_forall.1 hreturns) _ (fileWithList_starts "1" oneExtentList oneExtentList)
  let fm : FamfsLogFileMeta :=
    { FamfsLogFileMeta.zero with fmFmap := { FamfsLogFmap.zero with fmapNextents := u32 (strtoull (lit "1")) } }
  have hcount := nextents_step "1" FamfsLogFileMeta.zero (fun _ => 0) (behindNextents oneExtentList oneExtentList)
  obtain ⟨fm1, hn1, hfirst⟩ := oneExtentList_step fm (fun _ => 0) (by decide) (oneExtentList ++ [.mappingEnd, .documentEnd, .streamEnd])
  obtain ⟨fm2, -, hsecond⟩ := oneExtentList_step fm1 (fun _ => 0) hn1 [.documentEnd, .streamEnd]
  have hdocument : FileStep 16 16 ⟨⟨[.documentEnd, .streamEnd], false⟩, fm2, fun _ => 0⟩ ⟨⟨[.streamEnd], false⟩, fm2, fun _ => 0⟩ :=
    .passed rfl trivial
  have hstream : FileStep 16 16 ⟨⟨[.streamEnd], false⟩, fm2, fun _ => 0⟩ ⟨⟨[], false⟩, fm2, fun _ => 0⟩ := .passed rfl trivial
  have hrun : ReflTransGen (FileStep 16 16) _ ⟨⟨[], false⟩, fm2, fun _ => 0⟩ :=
    .head hcount (.head hfirst (.head hsecond (.head hdocument (.single hstream))))
  rw [← file_goes] at hrun
  exact not_halts_of_idle (fileTurn_idle rfl rfl) ((halts_of_run fileTurn_mono hrun).1 hhalts)

end Famfs

import Famfs.Spec.YamlWrites

/-! The turns of the parser's three loops as steps: where a turn that does not end its loop can
lead to, and what a loop has seen when it ends well. -/

namespace Famfs

open Machine Numerals Traced Loops Relation

variable {mem : MapMemory}

section

variable {parser parser' : YamlParser} {event : YamlEvent}

theorem parse_events (h : yamlParserParse parser = some (event, parser')) :
    parser.events = event :: parser'.events ∨ (event = .noEvent ∧ parser' = parser ∧ parser.events = []) := by
  unfold yamlParserParse at h
  cases hevents : parser.events with
  | nil =>
    rw [hevents] at h
    dsimp only at h
    split_ifs at h
    obtain ⟨rfl, rfl⟩ : YamlEvent.noEvent = event ∧ parser = parser' := by simpa using h
    exact Or.inr ⟨rfl, rfl, rfl⟩
  | cons first rest =>
    rw [hevents] at h
    obtain ⟨rfl, rfl⟩ : first = event ∧ YamlParser.mk rest parser.broken = parser' := by simpa using h
    exact Or.inl rfl

theorem parse_count (h : yamlParserParse parser = some (event, parser')) {kind : YamlEvent} (hkind : kind ≠ .noEvent) :
    parser.events.count kind = parser'.events.count kind + if event = kind then 1 else 0 := by
  rcases parse_events h with hcons | ⟨rfl, rfl, -⟩
  · rw [hcons, List.count_cons]
    simp only [beq_iff_eq]
  · rw [if_neg (Ne.symm hkind)]
    rfl

theorem expectEvent_parse (h : expectEvent event parser = some parser') :
    yamlParserParse parser = some (event, parser') := by
  unfold expectEvent at h
  rcases hparse : yamlParserParse parser with _ | ⟨e, rest⟩
  · rw [hparse] at h
    cases h
  · rw [hparse] at h
    dsimp only at h
    split_ifs at h with he
    obtain rfl : rest = parser' := by simpa using h
    rw [he]

theorem expectScalar_parse {value : CStr} (h : expectScalar parser = some (value, parser')) :
    yamlParserParse parser = some (.scalar value, parser') := by
  unfold expectScalar at h
  split at h
  · rename_i v rest hparse
    obtain ⟨rfl, rfl⟩ : v = value ∧ rest = parser' := by simpa using h
    exact hparse
  · cases h

theorem startList_parse {start : YamlParser} (h : startList parser = some start) :
    ∃ first, yamlParserParse parser = some (.sequenceStart, first) ∧ yamlParserParse first = some (.mappingStart, start) := by
  obtain ⟨first, hseq, hmap⟩ := Option.bind_eq_some_iff.1 h
  exact ⟨first, expectEvent_parse hseq, expectEvent_parse hmap⟩

end

def YamlEvent.PassedBySimple : YamlEvent → Prop
  | .scalar key => extentField key = none
  | .mappingStart | .mappingEnd | .sequenceEnd => False
  | _ => True

inductive SimpleStep (owner : Option ℕ) (maxExtents : ℕ) (c : SimpleCursor) : SimpleCursor → Prop where
  | extent {key value : CStr} {parser parser' : YamlParser} {field : ℕ}
      (hkey : yamlParserParse c.parser = some (.scalar key, parser)) (hfield : extentField key = some field)
      (hvalue : expectScalar parser = some (value, parser')) :
      SimpleStep owner maxExtents c ⟨parser', c.mem.store (listBase owner + 3 * c.extIndex + field) (strtoull value),
        c.extIndex, c.gotOfs || field = 1, c.gotLen || field = 2⟩
  | opened {parser : YamlParser} (hevent : yamlParserParse c.parser = some (.mappingStart, parser))
      (hroom : c.extIndex < maxExtents) : SimpleStep owner maxExtents c { c with parser := parser }
  | closed {parser : YamlParser} (hevent : yamlParserParse c.parser = some (.mappingEnd, parser))
      (hlen : c.gotLen = true) (hofs : c.gotOfs = true) :
      SimpleStep owner maxExtents c ⟨parser, c.mem, c.extIndex + 1, false, false⟩
  | passed {event : YamlEvent} {parser : YamlParser} (hevent : yamlParserParse c.parser = some (event, parser))
      (hpass : event.PassedBySimple) : SimpleStep owner maxExtents c { c with parser := parser }

section

variable {owner : Option ℕ} {maxExtents : ℕ} {c d : SimpleCursor}

theorem simpleTurn_mono : Mono (simpleTurn owner maxExtents) := fun _ _ => .refl _

theorem simpleTurn_extent {key value : CStr} {parser parser' : YamlParser} {field : ℕ}
    (hkey : yamlParserParse c.parser = some (.scalar key, parser)) (hfield : extentField key = some field)
    (hvalue : expectScalar parser = some (value, parser')) (fuel : ℕ) :
    simpleTurn owner maxExtents fuel c = (do
      touch [listElem owner c.extIndex]
      return some (.inl ⟨parser', c.mem.store (listBase owner + 3 * c.extIndex + field) (strtoull value), c.extIndex,
        c.gotOfs || field = 1, c.gotLen || field = 2⟩)) := by
  unfold simpleTurn
  rw [hkey]
  dsimp only
  rw [hfield]
  dsimp only
  rw [hvalue]

theorem simpleTurn_cases (owner : Option ℕ) (maxExtents fuel : ℕ) (c : SimpleCursor) :
    (∃ key value parser parser' field, yamlParserParse c.parser = some (.scalar key, parser) ∧
      extentField key = some field ∧ expectScalar parser = some (value, parser')) ∨
    (∃ d, SimpleStep owner maxExtents c d ∧ simpleTurn owner maxExtents fuel c = pure (some (.inl d))) ∨
    ∃ r : ExtListState, simpleTurn owner maxExtents fuel c = pure (some (.inr r)) ∧
      (r.rc = 0 → ∃ parser, yamlParserParse c.parser = some (.sequenceEnd, parser) ∧
        expectEvent .mappingEnd parser = some r.parser ∧ r.mem = c.mem ∧ r.nparsed = c.extIndex) := by
  unfold simpleTurn
  rcases hparse : yamlParserParse c.parser with _ | ⟨event, parser⟩
  · exact Or.inr (Or.inr ⟨_, rfl, by simp⟩)
  cases event with
  | scalar key =>
    dsimp only
    cases hfield : extentField key with
    | none => exact Or.inr (Or.inl ⟨_, .passed hparse hfield, rfl⟩)
    | some field =>
      dsimp only
      rcases hvalue : expectScalar parser with _ | ⟨value, parser'⟩
      · exact Or.inr (Or.inr ⟨_, rfl, by simp⟩)
      · exact Or.inl ⟨key, value, parser, parser', field, rfl, hfield, hvalue⟩
  | mappingStart =>
    dsimp only
    by_cases hroom : c.extIndex ≥ maxExtents
    · rw [if_pos hroom]
      exact Or.inr (Or.inr ⟨_, rfl, by simp [EOVERFLOW]⟩)
    · rw [if_neg hroom]
      exact Or.inr (Or.inl ⟨_, .opened hparse (by omega), rfl⟩)
  | mappingEnd =>
    dsimp only
    by_cases hgot : (!c.gotLen || !c.gotOfs) = true
    · rw [if_pos hgot]
      exact Or.inr (Or.inr ⟨_, rfl, by simp [EINVAL]⟩)
    · rw [if_neg hgot]
      simp only [Bool.or_eq_true, Bool.not_eq_true', not_or, Bool.not_eq_false] at hgot
      exact Or.inr (Or.inl ⟨_, .closed hparse hgot.1 hgot.2, rfl⟩)
  | sequenceEnd =>
    dsimp only
    rcases hend : expectEvent .mappingEnd parser with _ | parser'
    · exact Or.inr (Or.inr ⟨_, rfl, by simp⟩)
    · exact Or.inr (Or.inr ⟨_, rfl, fun _ => ⟨parser, rfl, hend, rfl, rfl⟩⟩)
  | _ => exact Or.inr (Or.inl ⟨_, .passed hparse trivial, rfl⟩)

theorem simple_goes_iff : Goes (simpleTurn owner maxExtents) c d ↔ SimpleStep owner maxExtents c d := by
  constructor
  · rintro ⟨fuel, h⟩
    obtain ⟨key, value, parser, parser', field, hkey, hfield, hvalue⟩ | ⟨d', hstep, hturn⟩ | ⟨r, hturn, -⟩ :=
      simpleTurn_cases owner maxExtents fuel c
    · rw [simpleTurn_extent hkey hfield hvalue] at h
      obtain rfl : _ = d := by simpa [Runs.ok_bind] using h
      exact .extent hkey hfield hvalue
    · rw [hturn] at h
      obtain rfl : d' = d := by simpa using h
      exact hstep
    · rw [hturn] at h
      simp at h
  · intro hstep
    refine ⟨0, ?_⟩
    cases hstep with
    | extent hkey hfield hvalue =>
      rw [simpleTurn_extent hkey hfield hvalue]
      simp only [result_bind, result_touch, result_pure, Runs.ok_bind]
    | opened hevent hroom =>
      unfold simpleTurn
      rw [hevent]
      dsimp only
      rw [if_neg (by omega), result_pure]
    | closed hevent hlen hofs =>
      unfold simpleTurn
      rw [hevent]
      dsimp only
      rw [hlen, hofs]
      rfl
    | @passed event parser hevent hpass =>
      unfold simpleTurn
      rw [hevent]
      cases event with
      | scalar key =>
        dsimp only
        rw [show extentField key = none from hpass]
        rfl
      | mappingStart => exact hpass.elim
      | mappingEnd => exact hpass.elim
      | sequenceEnd => exact hpass.elim
      | _ => rfl

theorem simple_goes : Goes (simpleTurn owner maxExtents) = SimpleStep owner maxExtents :=
  funext fun _ => funext fun _ => propext simple_goes_iff

theorem simple_ends {r : ExtListState} (h : Ends (simpleTurn owner maxExtents) c r) (hrc : r.rc = 0) :
    ∃ parser, yamlParserParse c.parser = some (.sequenceEnd, parser) ∧ expectEvent .mappingEnd parser = some r.parser ∧
      r.mem = c.mem ∧ r.nparsed = c.extIndex := by
  obtain ⟨fuel, h⟩ := h
  obtain ⟨key, value, parser, parser', field, hkey, hfield, hvalue⟩ | ⟨d', -, hturn⟩ | ⟨r', hturn, hends⟩ :=
    simpleTurn_cases owner maxExtents fuel c
  · rw [simpleTurn_extent hkey hfield hvalue] at h
    simp at h
  · rw [hturn] at h
    simp at h
  · rw [hturn] at h
    obtain rfl : r' = r := by simpa using h
    exact hends hrc

theorem simpleList_accepted {fuel : ℕ} {parser : YamlParser} {r : ExtListState}
    (h : famfsParseFileSimpleExtList fuel parser mem (listBase owner) maxExtents = some r) (hrc : r.rc = 0) :
    ∃ start last parser', startList parser = some start ∧
      ReflTransGen (SimpleStep owner maxExtents) ⟨start, mem, 0, false, false⟩ last ∧
      yamlParserParse last.parser = some (.sequenceEnd, parser') ∧ expectEvent .mappingEnd parser' = some r.parser ∧
      r.mem = last.mem ∧ r.nparsed = last.extIndex := by
  rw [← Except.ok.injEq, ← tracedSimpleExtList_result] at h
  unfold tracedSimpleExtList at h
  cases hstart : startList parser with
  | none =>
    rw [hstart] at h
    obtain rfl : _ = r := by simpa using h
    simp at hrc
  | some start =>
    rw [hstart] at h
    obtain ⟨last, hrun, hends⟩ := (loop_ends_iff simpleTurn_mono).1 ⟨fuel, h⟩
    obtain ⟨parser', hparse, hend⟩ := simple_ends hends hrc
    rw [simple_goes] at hrun
    exact ⟨start, last, parser', rfl, hrun, hparse, hend⟩

theorem SimpleStep.index (h : SimpleStep owner maxExtents c d) :
    d.extIndex + d.parser.events.count .mappingEnd = c.extIndex + c.parser.events.count .mappingEnd := by
  cases h with
  | extent hkey hfield hvalue =>
    rw [parse_count hkey (by decide), parse_count (expectScalar_parse hvalue) (by decide)]
    simp
  | opened hevent hroom =>
    rw [parse_count hevent (by decide)]
    simp
  | closed hevent hlen hofs =>
    rw [parse_count hevent (by decide), if_pos rfl]
    dsimp only
    omega
  | @passed event parser hevent hpass =>
    rw [parse_count hevent (by decide), if_neg (by rintro rfl; exact hpass)]
    rfl

theorem simple_run_index (h : ReflTransGen (SimpleStep owner maxExtents) c d) :
    d.extIndex + d.parser.events.count .mappingEnd = c.extIndex + c.parser.events.count .mappingEnd := by
  induction h with
  | refl => rfl
  | tail _ hstep ih => exact hstep.index.trans ih

theorem simpleList_ends {fuel : ℕ} {parser : YamlParser} {r : ExtListState}
    (h : famfsParseFileSimpleExtList fuel parser mem (listBase owner) maxExtents = some r) (hrc : r.rc = 0) :
    parser.events.count .mappingEnd = r.parser.events.count .mappingEnd + r.nparsed + 1 := by
  obtain ⟨start, last, parser', hstart, hrun, hseq, hmap, -, hn⟩ := simpleList_accepted h hrc
  obtain ⟨first, hopen, hfirst⟩ := startList_parse hstart
  have hindex := simple_run_index hrun
  rw [parse_count hseq (by decide), parse_count (expectEvent_parse hmap) (by decide)] at hindex
  rw [parse_count hopen (by decide), parse_count hfirst (by decide), hn]
  simp only [reduceCtorEq, if_false, if_true] at hindex ⊢
  omega

theorem tracedSimpleExtList_mono (fuel : ℕ) (parser : YamlParser) (mem : MapMemory) :
    Loops.Extends (tracedSimpleExtList owner maxExtents fuel parser mem)
      (tracedSimpleExtList owner maxExtents (fuel + 1) parser mem) := by
  unfold tracedSimpleExtList
  cases startList parser with
  | none => exact .refl _
  | some start => exact loop_mono simpleTurn_mono _ _

end

def YamlEvent.PassedByStriped : YamlEvent → Prop
  | .scalar key => interleaveField key = none ∧ key ≠ lit "simple_ext_list"
  | .mappingStart | .mappingEnd | .sequenceEnd => False
  | _ => True

inductive StripedStep (maxStrips : ℕ) (c : StripedCursor) : StripedCursor → Prop where
  | field {key value : CStr} {parser parser' : YamlParser} {field : ℕ}
      (hkey : yamlParserParse c.parser = some (.scalar key, parser)) (hfield : interleaveField key = some field)
      (hvalue : expectScalar parser = some (value, parser')) :
      StripedStep maxStrips c ⟨parser', c.mem.store (50 * c.extIndex + field) (strtoull value), c.extIndex⟩
  | strips {parser : YamlParser} {fuel : ℕ} {strips : ExtListState}
      (hkey : yamlParserParse c.parser = some (.scalar (lit "simple_ext_list"), parser))
      (hlist : famfsParseFileSimpleExtList fuel parser c.mem (listBase (some c.extIndex)) maxStrips = some strips)
      (hrc : strips.rc = 0) (hcount : strips.nparsed = strips.mem.ieNstrips c.extIndex) :
      StripedStep maxStrips c ⟨strips.parser, strips.mem, c.extIndex + 1⟩
  | opened {parser : YamlParser} (hevent : yamlParserParse c.parser = some (.mappingStart, parser))
      (hroom : c.extIndex < maxStrips) : StripedStep maxStrips c { c with parser := parser }
  | closed {parser : YamlParser} (hevent : yamlParserParse c.parser = some (.mappingEnd, parser)) :
      StripedStep maxStrips c ⟨parser, c.mem, c.extIndex + 1⟩
  | passed {event : YamlEvent} {parser : YamlParser} (hevent : yamlParserParse c.parser = some (event, parser))
      (hpass : event.PassedByStriped) : StripedStep maxStrips c { c with parser := parser }

theorem interleaveField_simple_ext_list : interleaveField (lit "simple_ext_list") = none := by decide

section

variable {maxStrips : ℕ} {c d : StripedCursor}

theorem stripedTurn_field {key value : CStr} {parser parser' : YamlParser} {field : ℕ}
    (hkey : yamlParserParse c.parser = some (.scalar key, parser)) (hfield : interleaveField key = some field)
    (hvalue : expectScalar parser = some (value, parser')) (fuel : ℕ) :
    stripedTurn maxStrips fuel c = (do
      touch [.ie c.extIndex]
      return some (.inl ⟨parser', c.mem.store (50 * c.extIndex + field) (strtoull value), c.extIndex⟩)) := by
  unfold stripedTurn
  rw [hkey]
  dsimp only
  rw [hfield]
  dsimp only
  rw [hvalue]

/-- What the loop does with the strips of an element. -/
def afterStrips (c : StripedCursor) (strips : ExtListState) : Traced MapAccess Trap (Option (StripedCursor ⊕ StripedState)) :=
  if strips.rc ≠ 0 then pure (some (.inr ⟨strips.rc, strips.mem, strips.parser⟩))
  else if strips.nparsed ≠ strips.mem.ieNstrips c.extIndex then
    pure (some (.inr ⟨-EINVAL, strips.mem, strips.parser⟩))
  else pure (some (.inl ⟨strips.parser, strips.mem, c.extIndex + 1⟩))

theorem stripedTurn_strips {parser : YamlParser}
    (hkey : yamlParserParse c.parser = some (.scalar (lit "simple_ext_list"), parser)) (fuel : ℕ) :
    stripedTurn maxStrips fuel c =
      andThen (tracedSimpleExtList (some c.extIndex) maxStrips fuel parser c.mem) (afterStrips c) := by
  unfold stripedTurn
  rw [hkey]
  dsimp only
  rw [interleaveField_simple_ext_list]
  dsimp only
  rw [if_pos rfl]
  rfl

theorem stripedTurn_cases (maxStrips : ℕ) (c : StripedCursor) :
    (∃ key value parser parser' field, yamlParserParse c.parser = some (.scalar key, parser) ∧
      interleaveField key = some field ∧ expectScalar parser = some (value, parser')) ∨
    (∃ parser, yamlParserParse c.parser = some (.scalar (lit "simple_ext_list"), parser)) ∨
    (∃ d, StripedStep maxStrips c d ∧ ∀ fuel, stripedTurn maxStrips fuel c = pure (some (.inl d))) ∨
    ∃ r : StripedState, (∀ fuel, stripedTurn maxStrips fuel c = pure (some (.inr r))) ∧
      (r.rc = 0 → ∃ parser, yamlParserParse c.parser = some (.sequenceEnd, parser) ∧
        expectEvent .mappingEnd parser = some r.parser ∧ r.mem = c.mem) := by
  unfold stripedTurn
  rcases hparse : yamlParserParse c.parser with _ | ⟨event, parser⟩
  · exact Or.inr (Or.inr (Or.inr ⟨_, fun _ => rfl, by simp⟩))
  cases event with
  | scalar key =>
    dsimp only
    cases hfield : interleaveField key with
    | some field =>
      dsimp only
      rcases hvalue : expectScalar parser with _ | ⟨value, parser'⟩
      · exact Or.inr (Or.inr (Or.inr ⟨_, fun _ => rfl, by simp⟩))
      · exact Or.inl ⟨key, value, parser, parser', field, rfl, hfield, hvalue⟩
    | none =>
      dsimp only
      by_cases hstrips : key = lit "simple_ext_list"
      · exact Or.inr (Or.inl ⟨parser, by rw [hstrips]⟩)
      · exact Or.inr (Or.inr (Or.inl ⟨_, .passed hparse ⟨hfield, hstrips⟩, fun _ => if_neg hstrips⟩))
  | mappingStart =>
    dsimp only
    by_cases hroom : c.extIndex ≥ maxStrips
    · exact Or.inr (Or.inr (Or.inr ⟨_, fun _ => if_pos hroom, by simp [EOVERFLOW]⟩))
    · exact Or.inr (Or.inr (Or.inl ⟨_, .opened hparse (by omega), fun _ => if_neg hroom⟩))
  | mappingEnd => exact Or.inr (Or.inr (Or.inl ⟨_, .closed hparse, fun _ => rfl⟩))
  | sequenceEnd =>
    dsimp only
    rcases hend : expectEvent .mappingEnd parser with _ | parser'
    · exact Or.inr (Or.inr (Or.inr ⟨_, fun _ => rfl, by simp⟩))
    · exact Or.inr (Or.inr (Or.inr ⟨_, fun _ => rfl, fun _ => ⟨parser, rfl, hend, rfl⟩⟩))
  | _ => exact Or.inr (Or.inr (Or.inl ⟨_, .passed hparse trivial, fun _ => rfl⟩))

theorem stripedTurn_mono : Mono (stripedTurn maxStrips) := by
  intro fuel c
  obtain ⟨key, value, parser, parser', field, hkey, hfield, hvalue⟩ | ⟨parser, hkey⟩ | ⟨d, -, hturn⟩ | ⟨r, hturn, -⟩ :=
    stripedTurn_cases maxStrips c
  · rw [stripedTurn_field hkey hfield hvalue, stripedTurn_field hkey hfield hvalue]
    exact .refl _
  · rw [stripedTurn_strips hkey, stripedTurn_strips hkey]
    exact (tracedSimpleExtList_mono fuel parser c.mem).andThen fun _ => .refl _
  · rw [hturn, hturn]
    exact .refl _
  · rw [hturn, hturn]
    exact .refl _

theorem afterStrips_goes {strips : ExtListState} (h : (afterStrips c strips).result = .ok (some (.inl d))) :
    strips.rc = 0 ∧ strips.nparsed = strips.mem.ieNstrips c.extIndex ∧
      d = ⟨strips.parser, strips.mem, c.extIndex + 1⟩ := by
  unfold afterStrips at h
  split_ifs at h with hrc hcount
  · simp at h
  · simp at h
  · obtain rfl : _ = d := by simpa using h
    exact ⟨not_not.1 hrc, not_not.1 hcount, rfl⟩

theorem striped_goes_iff : Goes (stripedTurn maxStrips) c d ↔ StripedStep maxStrips c d := by
  constructor
  · rintro ⟨fuel, h⟩
    obtain ⟨key, value, parser, parser', field, hkey, hfield, hvalue⟩ | ⟨parser, hkey⟩ | ⟨d', hstep, hturn⟩ |
      ⟨r, hturn, -⟩ := stripedTurn_cases maxStrips c
    · rw [stripedTurn_field hkey hfield hvalue] at h
      obtain rfl : _ = d := by simpa [Runs.ok_bind] using h
      exact .field hkey hfield hvalue
    · rw [stripedTurn_strips hkey, andThen_eq_some] at h
      obtain ⟨strips, hlist, hafter⟩ := h
      rw [tracedSimpleExtList_result, Except.ok.injEq] at hlist
      obtain ⟨hrc, hcount, rfl⟩ := afterStrips_goes hafter
      exact .strips hkey hlist hrc hcount
    · rw [hturn] at h
      obtain rfl : d' = d := by simpa using h
      exact hstep
    · rw [hturn] at h
      simp at h
  · intro hstep
    cases hstep with
    | field hkey hfield hvalue =>
      refine ⟨0, ?_⟩
      rw [stripedTurn_field hkey hfield hvalue]
      simp only [result_bind, result_touch, result_pure, Runs.ok_bind]
    | @strips parser fuel strips hkey hlist hrc hcount =>
      refine ⟨fuel, ?_⟩
      rw [stripedTurn_strips hkey, andThen_eq_some]
      refine ⟨strips, (tracedSimpleExtList_result _ _ _ _ _).trans (congrArg Except.ok hlist), ?_⟩
      rw [afterStrips, if_neg (not_not.2 hrc), if_neg (not_not.2 hcount), result_pure]
    | opened hevent hroom =>
      refine ⟨0, ?_⟩
      unfold stripedTurn
      rw [hevent]
      dsimp only
      rw [if_neg (by omega), result_pure]
    | closed hevent =>
      refine ⟨0, ?_⟩
      unfold stripedTurn
      rw [hevent]
      rfl
    | @passed event parser hevent hpass =>
      refine ⟨0, ?_⟩
      unfold stripedTurn
      rw [hevent]
      cases event with
      | scalar key =>
        dsimp only
        rw [hpass.1]
        dsimp only
        rw [if_neg hpass.2, result_pure]
      | mappingStart => exact hpass.elim
      | mappingEnd => exact hpass.elim
      | sequenceEnd => exact hpass.elim
      | _ => rfl

theorem striped_goes : Goes (stripedTurn maxStrips) = StripedStep maxStrips :=
  funext fun _ => funext fun _ => propext striped_goes_iff

theorem striped_ends {r : StripedState} (h : Ends (stripedTurn maxStrips) c r) (hrc : r.rc = 0) :
    ∃ parser, yamlParserParse c.parser = some (.sequenceEnd, parser) ∧ expectEvent .mappingEnd parser = some r.parser ∧
      r.mem = c.mem := by
  obtain ⟨fuel, h⟩ := h
  obtain ⟨key, value, parser, parser', field, hkey, hfield, hvalue⟩ | ⟨parser, hkey⟩ | ⟨d', -, hturn⟩ |
    ⟨r', hturn, hends⟩ := stripedTurn_cases maxStrips c
  · rw [stripedTurn_field hkey hfield hvalue] at h
    simp at h
  · rw [stripedTurn_strips hkey, andThen_eq_some] at h
    obtain ⟨strips, -, hafter⟩ := h
    unfold afterStrips at hafter
    split_ifs at hafter with hstrips hcount
    · obtain rfl : _ = r := by simpa using hafter
      exact absurd hrc hstrips
    · obtain rfl : _ = r := by simpa using hafter
      simp [EINVAL] at hrc
    · simp at hafter
  · rw [hturn] at h
    simp at h
  · rw [hturn] at h
    obtain rfl : r' = r := by simpa using h
    exact hends hrc

theorem stripedList_accepted {fuel : ℕ} {parser : YamlParser} {r : StripedState}
    (h : famfsParseFileStripedExtList fuel parser mem maxStrips = some r) (hrc : r.rc = 0) :
    ∃ start last parser', startList parser = some start ∧
      ReflTransGen (StripedStep maxStrips) ⟨start, mem, 0⟩ last ∧
      yamlParserParse last.parser = some (.sequenceEnd, parser') ∧ expectEvent .mappingEnd parser' = some r.parser ∧
      r.mem = last.mem := by
  rw [← Except.ok.injEq, ← tracedStripedExtList_result] at h
  unfold tracedStripedExtList at h
  cases hstart : startList parser with
  | none =>
    rw [hstart] at h
    obtain rfl : _ = r := by simpa using h
    simp at hrc
  | some start =>
    rw [hstart] at h
    obtain ⟨last, hrun, hends⟩ := (loop_ends_iff stripedTurn_mono).1 ⟨fuel, h⟩
    obtain ⟨parser', hparse, hend⟩ := striped_ends hends hrc
    rw [striped_goes] at hrun
    exact ⟨start, last, parser', rfl, hrun, hparse, hend⟩

theorem striped_run_index {start : YamlParser}
    (h : ReflTransGen (StripedStep maxStrips) ⟨start, mem, 0⟩ c) :
    (c.extIndex = 0 ∧ c.parser.events.count .mappingEnd = start.events.count .mappingEnd) ∨
      (0 < c.extIndex ∧ c.parser.events.count .mappingEnd < start.events.count .mappingEnd) := by
  induction h with
  | refl => exact Or.inl ⟨rfl, rfl⟩
  | @tail c d _ hstep ih =>
    cases hstep with
    | field hkey hfield hvalue =>
      rw [parse_count hkey (by decide), parse_count (expectScalar_parse hvalue) (by decide)] at ih
      simpa using ih
    | strips hkey hlist hrc hcount =>
      rw [parse_count hkey (by decide), simpleList_ends hlist hrc] at ih
      dsimp only
      omega
    | opened hevent hroom =>
      rw [parse_count hevent (by decide)] at ih
      simpa using ih
    | closed hevent =>
      rw [parse_count hevent (by decide), if_pos rfl] at ih
      dsimp only
      omega
    | @passed event parser hevent hpass =>
      rw [parse_count hevent (by decide), if_neg (by rintro rfl; exact hpass)] at ih
      exact ih

theorem tracedStripedExtList_mono (fuel : ℕ) (parser : YamlParser) (mem : MapMemory) :
    Loops.Extends (tracedStripedExtList maxStrips fuel parser mem) (tracedStripedExtList maxStrips (fuel + 1) parser mem) := by
  unfold tracedStripedExtList
  cases startList parser with
  | none => exact .refl _
  | some start => exact loop_mono stripedTurn_mono _ _

end

def YamlEvent.PassedByFile : YamlEvent → Prop
  | .scalar _ | .mappingEnd => False
  | _ => True

inductive FileStep (maxExtents maxStrips : ℕ) (c : FileCursor) : FileCursor → Prop where
  | field {key value : CStr} {parser parser' : YamlParser} {store : FamfsLogFileMeta → CStr → FamfsLogFileMeta}
      (hkey : yamlParserParse c.parser = some (.scalar key, parser)) (hfield : fileField key = some store)
      (hvalue : expectScalar parser = some (value, parser')) :
      FileStep maxExtents maxStrips c ⟨parser', store c.fm value, c.past⟩
  | simple {parser : YamlParser} {fuel : ℕ} {exts : ExtListState}
      (hkey : yamlParserParse c.parser = some (.scalar (lit "simple_ext_list"), parser))
      (hlist : famfsParseFileSimpleExtList fuel parser ⟨{ c.fm.fmFmap with fmapExtType := FAMFS_EXT_SIMPLE }, c.past⟩
        (listBase none) maxExtents = some exts)
      (hrc : exts.rc = 0) (hcount : exts.nparsed = exts.mem.fmap.fmapNextents) :
      FileStep maxExtents maxStrips c ⟨exts.parser, { c.fm with fmFmap := exts.mem.fmap }, exts.mem.past⟩
  | striped {parser : YamlParser} {fuel : ℕ} {exts : StripedState}
      (hkey : yamlParserParse c.parser = some (.scalar (lit "striped_ext_list"), parser))
      (hlist : famfsParseFileStripedExtList fuel parser ⟨{ c.fm.fmFmap with fmapExtType := FAMFS_EXT_INTERLEAVE }, c.past⟩
        maxStrips = some exts)
      (hrc : exts.rc = 0) : FileStep maxExtents maxStrips c ⟨exts.parser, { c.fm with fmFmap := exts.mem.fmap }, exts.mem.past⟩
  | passed {event : YamlEvent} {parser : YamlParser} (hevent : yamlParserParse c.parser = some (event, parser))
      (hpass : event.PassedByFile) : FileStep maxExtents maxStrips c { c with parser := parser }

theorem fileField_lists : fileField (lit "simple_ext_list") = none ∧ fileField (lit "striped_ext_list") = none := by
  decide

section

variable {maxExtents maxStrips : ℕ} {c d : FileCursor}

def afterSimpleList (c : FileCursor) (exts : ExtListState) : Traced MapAccess Trap (Option (FileCursor ⊕ FileState)) :=
  if exts.rc ≠ 0 then pure (some (.inr ⟨exts.rc, { c.fm with fmFmap := exts.mem.fmap }, exts.mem.past, exts.parser⟩))
  else if exts.nparsed ≠ exts.mem.fmap.fmapNextents then
    pure (some (.inr ⟨-EINVAL, { c.fm with fmFmap := exts.mem.fmap }, exts.mem.past, exts.parser⟩))
  else pure (some (.inl ⟨exts.parser, { c.fm with fmFmap := exts.mem.fmap }, exts.mem.past⟩))

def afterStripedList (c : FileCursor) (exts : StripedState) : Traced MapAccess Trap (Option (FileCursor ⊕ FileState)) :=
  if exts.rc ≠ 0 then pure (some (.inr ⟨exts.rc, { c.fm with fmFmap := exts.mem.fmap }, exts.mem.past, exts.parser⟩))
  else pure (some (.inl ⟨exts.parser, { c.fm with fmFmap := exts.mem.fmap }, exts.mem.past⟩))

theorem fileTurn_simple {parser : YamlParser}
    (hkey : yamlParserParse c.parser = some (.scalar (lit "simple_ext_list"), parser)) (fuel : ℕ) :
    fileTurn maxExtents maxStrips fuel c =
      andThen (tracedSimpleExtList none maxExtents fuel parser ⟨{ c.fm.fmFmap with fmapExtType := FAMFS_EXT_SIMPLE }, c.past⟩)
        (afterSimpleList c) := by
  unfold fileTurn
  rw [hkey]
  dsimp only
  rw [fileField_lists.1]
  dsimp only
  rw [if_pos rfl]
  rfl

theorem fileTurn_striped {parser : YamlParser}
    (hkey : yamlParserParse c.parser = some (.scalar (lit "striped_ext_list"), parser)) (fuel : ℕ) :
    fileTurn maxExtents maxStrips fuel c =
      andThen (tracedStripedExtList maxStrips fuel parser ⟨{ c.fm.fmFmap with fmapExtType := FAMFS_EXT_INTERLEAVE }, c.past⟩)
        (afterStripedList c) := by
  unfold fileTurn
  rw [hkey]
  dsimp only
  rw [fileField_lists.2]
  dsimp only
  rw [if_neg (by decide), if_pos rfl]
  rfl

theorem fileTurn_cases (maxExtents maxStrips : ℕ) (c : FileCursor) :
    (∃ parser, yamlParserParse c.parser = some (.scalar (lit "simple_ext_list"), parser)) ∨
    (∃ parser, yamlParserParse c.parser = some (.scalar (lit "striped_ext_list"), parser)) ∨
    (∃ d, FileStep maxExtents maxStrips c d ∧ ∀ fuel, fileTurn maxExtents maxStrips fuel c = pure (some (.inl d))) ∨
    ∃ r : FileState, (∀ fuel, fileTurn maxExtents maxStrips fuel c = pure (some (.inr r))) ∧
      (r.rc = 0 → yamlParserParse c.parser = some (.mappingEnd, r.parser) ∧ r.fm = c.fm) := by
  unfold fileTurn
  rcases hparse : yamlParserParse c.parser with _ | ⟨event, parser⟩
  · exact Or.inr (Or.inr (Or.inr ⟨_, fun _ => rfl, by simp⟩))
  cases event with
  | scalar key =>
    dsimp only
    cases hfield : fileField key with
    | some store =>
      dsimp only
      rcases hvalue : expectScalar parser with _ | ⟨value, parser'⟩
      · exact Or.inr (Or.inr (Or.inr ⟨_, fun _ => rfl, by simp⟩))
      · exact Or.inr (Or.inr (Or.inl ⟨_, .field hparse hfield hvalue, fun _ => rfl⟩))
    | none =>
      dsimp only
      by_cases hsimple : key = lit "simple_ext_list"
      · exact Or.inl ⟨parser, by rw [hsimple]⟩
      by_cases hstriped : key = lit "striped_ext_list"
      · exact Or.inr (Or.inl ⟨parser, by rw [hstriped]⟩)
      · refine Or.inr (Or.inr (Or.inr ⟨⟨-EINVAL, c.fm, c.past, parser⟩, fun _ => ?_, by simp [EINVAL]⟩))
        rw [if_neg hsimple, if_neg hstriped]
  | mappingEnd => exact Or.inr (Or.inr (Or.inr ⟨_, fun _ => rfl, fun _ => ⟨rfl, rfl⟩⟩))
  | _ => exact Or.inr (Or.inr (Or.inl ⟨_, .passed hparse trivial, fun _ => rfl⟩))

theorem fileTurn_mono : Mono (fileTurn maxExtents maxStrips) := by
  intro fuel c
  obtain ⟨parser, hkey⟩ | ⟨parser, hkey⟩ | ⟨d, -, hturn⟩ | ⟨r, hturn, -⟩ := fileTurn_cases maxExtents maxStrips c
  · rw [fileTurn_simple hkey, fileTurn_simple hkey]
    exact (tracedSimpleExtList_mono fuel parser _).andThen fun _ => .refl _
  · rw [fileTurn_striped hkey, fileTurn_striped hkey]
    exact (tracedStripedExtList_mono fuel parser _).andThen fun _ => .refl _
  · rw [hturn, hturn]
    exact .refl _
  · rw [hturn, hturn]
    exact .refl _

theorem file_goes_iff : Goes (fileTurn maxExtents maxStrips) c d ↔ FileStep maxExtents maxStrips c d := by
  constructor
  · rintro ⟨fuel, h⟩
    obtain ⟨parser, hkey⟩ | ⟨parser, hkey⟩ | ⟨d', hstep, hturn⟩ | ⟨r, hturn, -⟩ := fileTurn_cases maxExtents maxStrips c
    · rw [fileTurn_simple hkey, andThen_eq_some] at h
      obtain ⟨exts, hlist, hafter⟩ := h
      rw [tracedSimpleExtList_result, Except.ok.injEq] at hlist
      unfold afterSimpleList at hafter
      split_ifs at hafter with hrc hcount
      · simp at hafter
      · simp at hafter
      · obtain rfl : _ = d := by simpa using hafter
        exact .simple hkey hlist (not_not.1 hrc) (not_not.1 hcount)
    · rw [fileTurn_striped hkey, andThen_eq_some] at h
      obtain ⟨exts, hlist, hafter⟩ := h
      rw [tracedStripedExtList_result, Except.ok.injEq] at hlist
      unfold afterStripedList at hafter
      split_ifs at hafter with hrc
      · simp at hafter
      · obtain rfl : _ = d := by simpa using hafter
        exact .striped hkey hlist (not_not.1 hrc)
    · rw [hturn] at h
      obtain rfl : d' = d := by simpa using h
      exact hstep
    · rw [hturn] at h
      simp at h
  · intro hstep
    cases hstep with
    | field hkey hfield hvalue =>
      refine ⟨0, ?_⟩
      unfold fileTurn
      rw [hkey]
      dsimp only
      rw [hfield]
      dsimp only
      rw [hvalue, result_pure]
    | @simple parser fuel exts hkey hlist hrc hcount =>
      refine ⟨fuel, ?_⟩
      rw [fileTurn_simple hkey, andThen_eq_some]
      refine ⟨exts, (tracedSimpleExtList_result _ _ _ _ _).trans (congrArg Except.ok hlist), ?_⟩
      rw [afterSimpleList, if_neg (not_not.2 hrc), if_neg (not_not.2 hcount), result_pure]
    | @striped parser fuel exts hkey hlist hrc =>
      refine ⟨fuel, ?_⟩
      rw [fileTurn_striped hkey, andThen_eq_some]
      refine ⟨exts, (tracedStripedExtList_result _ _ _ _).trans (congrArg Except.ok hlist), ?_⟩
      rw [afterStripedList, if_neg (not_not.2 hrc), result_pure]
    | @passed event parser hevent hpass =>
      refine ⟨0, ?_⟩
      unfold fileTurn
      rw [hevent]
      cases event with
      | scalar key => exact hpass.elim
      | mappingEnd => exact hpass.elim
      | _ => rfl

theorem file_goes : Goes (fileTurn maxExtents maxStrips) = FileStep maxExtents maxStrips :=
  funext fun _ => funext fun _ => propext file_goes_iff

theorem file_ends {r : FileState} (h : Ends (fileTurn maxExtents maxStrips) c r) (hrc : r.rc = 0) :
    yamlParserParse c.parser = some (.mappingEnd, r.parser) ∧ r.fm = c.fm := by
  obtain ⟨fuel, h⟩ := h
  obtain ⟨parser, hkey⟩ | ⟨parser, hkey⟩ | ⟨d', -, hturn⟩ | ⟨r', hturn, hends⟩ := fileTurn_cases maxExtents maxStrips c
  · rw [fileTurn_simple hkey, andThen_eq_some] at h
    obtain ⟨exts, -, hafter⟩ := h
    unfold afterSimpleList at hafter
    split_ifs at hafter with hexts hcount
    · obtain rfl : _ = r := by simpa using hafter
      exact absurd hrc hexts
    · obtain rfl : _ = r := by simpa using hafter
      simp [EINVAL] at hrc
    · simp at hafter
  · rw [fileTurn_striped hkey, andThen_eq_some] at h
    obtain ⟨exts, -, hafter⟩ := h
    unfold afterStripedList at hafter
    split_ifs at hafter with hexts
    · obtain rfl : _ = r := by simpa using hafter
      exact absurd hrc hexts
    · simp at hafter
  · rw [hturn] at h
    simp at h
  · rw [hturn] at h
    obtain rfl : r' = r := by simpa using h
    exact hends hrc

end

end Famfs

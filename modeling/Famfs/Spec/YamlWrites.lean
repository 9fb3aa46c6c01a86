import Famfs.Lib.Loops
import Famfs.Spec.MapAccess
import Famfs.Spec.Yaml

/-! The parser of shadow files again, with the elements of the map that it stores extent data to.
Each of its three `while` loops is given by its turn: what it does on one event of its `switch`,
and where it goes on from there. -/

namespace Famfs

open Machine Numerals Traced Loops

/-! The list of extents, which is `fmap.se` or `fmap.ie[m].ie_strips`. -/

def listBase : Option ℕ → ℕ
  | none => 0
  | some m => 50 * m + 2

def listElem : Option ℕ → ℕ → MapAccess
  | none, j => .se j
  | some m, k => .ieStrip m k

/-- Where `famfs_parse_file_simple_ext_list` is at the head of its loop. -/
structure SimpleCursor where
  parser : YamlParser
  mem : MapMemory
  extIndex : ℕ
  gotOfs : Bool
  gotLen : Bool

def simpleTurn (owner : Option ℕ) (maxExtents _fuel : ℕ) (c : SimpleCursor) :
    Traced MapAccess Trap (Option (SimpleCursor ⊕ ExtListState)) :=
  match yamlParserParse c.parser with
  | none => pure (some (.inr ⟨-1, c.mem, c.extIndex, c.parser⟩))
  | some (.scalar key, parser) =>
    match extentField key with
    | some field =>
      match expectScalar parser with
      | none => pure (some (.inr ⟨-1, c.mem, c.extIndex, parser⟩))
      | some (value, parser) => do
        touch [listElem owner c.extIndex]
        return some (.inl ⟨parser, c.mem.store (listBase owner + 3 * c.extIndex + field) (strtoull value), c.extIndex,
          c.gotOfs || field = 1, c.gotLen || field = 2⟩)
    | none => pure (some (.inl { c with parser := parser }))
  | some (.mappingStart, parser) =>
    if c.extIndex ≥ maxExtents then pure (some (.inr ⟨-EOVERFLOW, c.mem, c.extIndex, parser⟩))
    else pure (some (.inl { c with parser := parser }))
  | some (.mappingEnd, parser) =>
    if !c.gotLen || !c.gotOfs then pure (some (.inr ⟨-EINVAL, c.mem, c.extIndex, parser⟩))
    else pure (some (.inl ⟨parser, c.mem, c.extIndex + 1, false, false⟩))
  | some (.sequenceEnd, parser) =>
    match expectEvent .mappingEnd parser with
    | none => pure (some (.inr ⟨-1, c.mem, c.extIndex, parser⟩))
    | some parser => pure (some (.inr ⟨0, c.mem, c.extIndex, parser⟩))
  | some (_, parser) => pure (some (.inl { c with parser := parser }))

def tracedSimpleExtList (owner : Option ℕ) (maxExtents fuel : ℕ) (parser : YamlParser) (mem : MapMemory) :
    Traced MapAccess Trap (Option ExtListState) :=
  match startList parser with
  | none => pure (some ⟨-1, mem, 0, parser⟩)
  | some parser => loop (simpleTurn owner maxExtents) fuel ⟨parser, mem, 0, false, false⟩

structure StripedCursor where
  parser : YamlParser
  mem : MapMemory
  extIndex : ℕ

def stripedTurn (maxStrips fuel : ℕ) (c : StripedCursor) :
    Traced MapAccess Trap (Option (StripedCursor ⊕ StripedState)) :=
  match yamlParserParse c.parser with
  | none => pure (some (.inr ⟨-1, c.mem, c.parser⟩))
  | some (.scalar key, parser) =>
    match interleaveField key with
    | some field =>
      match expectScalar parser with
      | none => pure (some (.inr ⟨-1, c.mem, parser⟩))
      | some (value, parser) => do
        touch [.ie c.extIndex]
        return some (.inl ⟨parser, c.mem.store (50 * c.extIndex + field) (strtoull value), c.extIndex⟩)
    | none =>
      if key = lit "simple_ext_list" then
        andThen (tracedSimpleExtList (some c.extIndex) maxStrips fuel parser c.mem) fun strips =>
          if strips.rc ≠ 0 then pure (some (.inr ⟨strips.rc, strips.mem, strips.parser⟩))
          else if strips.nparsed ≠ strips.mem.ieNstrips c.extIndex then
            pure (some (.inr ⟨-EINVAL, strips.mem, strips.parser⟩))
          else pure (some (.inl ⟨strips.parser, strips.mem, c.extIndex + 1⟩))
      else pure (some (.inl { c with parser := parser }))
  | some (.mappingStart, parser) =>
    if c.extIndex ≥ maxStrips then pure (some (.inr ⟨-EOVERFLOW, c.mem, parser⟩))
    else pure (some (.inl { c with parser := parser }))
  | some (.mappingEnd, parser) => pure (some (.inl ⟨parser, c.mem, c.extIndex + 1⟩))
  | some (.sequenceEnd, parser) =>
    match expectEvent .mappingEnd parser with
    | none => pure (some (.inr ⟨-1, c.mem, parser⟩))
    | some parser => pure (some (.inr ⟨0, c.mem, parser⟩))
  | some (_, parser) => pure (some (.inl { c with parser := parser }))

def tracedStripedExtList (maxStrips fuel : ℕ) (parser : YamlParser) (mem : MapMemory) :
    Traced MapAccess Trap (Option StripedState) :=
  match startList parser with
  | none => pure (some ⟨-1, mem, parser⟩)
  | some parser => loop (stripedTurn maxStrips) fuel ⟨parser, mem, 0⟩

structure FileCursor where
  parser : YamlParser
  fm : FamfsLogFileMeta
  past : ℕ → ℕ

def fileTurn (maxExtents maxStrips fuel : ℕ) (c : FileCursor) :
    Traced MapAccess Trap (Option (FileCursor ⊕ FileState)) :=
  match yamlParserParse c.parser with
  | none => pure (some (.inr ⟨-1, c.fm, c.past, c.parser⟩))
  | some (.scalar key, parser) =>
    match fileField key with
    | some store =>
      match expectScalar parser with
      | none => pure (some (.inr ⟨-1, c.fm, c.past, parser⟩))
      | some (value, parser) => pure (some (.inl ⟨parser, store c.fm value, c.past⟩))
    | none =>
      if key = lit "simple_ext_list" then
        andThen (tracedSimpleExtList none maxExtents fuel parser ⟨{ c.fm.fmFmap with fmapExtType := FAMFS_EXT_SIMPLE }, c.past⟩)
          fun exts =>
            if exts.rc ≠ 0 then pure (some (.inr ⟨exts.rc, { c.fm with fmFmap := exts.mem.fmap }, exts.mem.past, exts.parser⟩))
            else if exts.nparsed ≠ exts.mem.fmap.fmapNextents then
              pure (some (.inr ⟨-EINVAL, { c.fm with fmFmap := exts.mem.fmap }, exts.mem.past, exts.parser⟩))
            else pure (some (.inl ⟨exts.parser, { c.fm with fmFmap := exts.mem.fmap }, exts.mem.past⟩))
      else if key = lit "striped_ext_list" then
        andThen (tracedStripedExtList maxStrips fuel parser ⟨{ c.fm.fmFmap with fmapExtType := FAMFS_EXT_INTERLEAVE }, c.past⟩)
          fun exts =>
            if exts.rc ≠ 0 then pure (some (.inr ⟨exts.rc, { c.fm with fmFmap := exts.mem.fmap }, exts.mem.past, exts.parser⟩))
            else pure (some (.inl ⟨exts.parser, { c.fm with fmFmap := exts.mem.fmap }, exts.mem.past⟩))
      else pure (some (.inr ⟨-EINVAL, c.fm, c.past, parser⟩))
  | some (.mappingEnd, parser) => pure (some (.inr ⟨0, c.fm, c.past, parser⟩))
  | some (_, parser) => pure (some (.inl { c with parser := parser }))

def tracedFileYaml (maxExtents maxStrips fuel : ℕ) (parser : YamlParser) (fm : FamfsLogFileMeta) (past : ℕ → ℕ) :
    Traced MapAccess Trap (Option FileState) :=
  match expectEvent .mappingStart parser with
  | none => pure (some ⟨-1, fm, past, parser⟩)
  | some parser => loop (fileTurn maxExtents maxStrips) fuel ⟨parser, fm, past⟩

def tracedShadowYaml (fuel : ℕ) (parser : YamlParser) (fm : FamfsLogFileMeta) (past : ℕ → ℕ)
    (maxExtents maxStrips : ℕ) : Traced MapAccess Trap (Option FileState) :=
  match startDocument parser with
  | none => pure (some ⟨-1, fm, past, parser⟩)
  | some (key, parser) =>
    if key = lit "file" then
      andThen (tracedFileYaml maxExtents maxStrips fuel parser fm past) fun st =>
        pure (some (if st.rc ≠ 0 then st else endDocument st))
    else pure (some (endDocument ⟨0, fm, past, parser⟩))

theorem simpleLoop_result (owner : Option ℕ) (maxExtents fuel : ℕ) (c : SimpleCursor) :
    (loop (simpleTurn owner maxExtents) fuel c).result =
      .ok (simpleExtLoop (listBase owner) maxExtents fuel c.parser c.mem c.extIndex c.gotOfs c.gotLen) := by
  induction fuel generalizing c with
  | zero => rfl
  | succ fuel ih =>
    rw [loop, result_andThen, simpleTurn, simpleExtLoop]
    rcases yamlParserParse c.parser with _ | ⟨event, parser⟩
    · rfl
    cases event with
    | scalar key =>
      dsimp only
      cases extentField key with
      | none => exact ih _
      | some field =>
        dsimp only
        rcases expectScalar parser with _ | ⟨value, parser⟩
        · rfl
        · dsimp only
          simp only [result_bind, result_touch, Runs.ok_bind]
          exact ih _
    | mappingStart =>
      dsimp only
      split
      · rfl
      · exact ih _
    | mappingEnd =>
      dsimp only
      split
      · rfl
      · exact ih _
    | sequenceEnd =>
      dsimp only
      cases expectEvent .mappingEnd parser <;> rfl
    | _ => exact ih _

theorem tracedSimpleExtList_result (owner : Option ℕ) (maxExtents fuel : ℕ) (parser : YamlParser) (mem : MapMemory) :
    (tracedSimpleExtList owner maxExtents fuel parser mem).result =
      .ok (famfsParseFileSimpleExtList fuel parser mem (listBase owner) maxExtents) := by
  unfold tracedSimpleExtList famfsParseFileSimpleExtList
  cases startList parser with
  | none => rfl
  | some parser => exact simpleLoop_result _ _ _ _

theorem stripedLoop_result (maxStrips fuel : ℕ) (c : StripedCursor) :
    (loop (stripedTurn maxStrips) fuel c).result = .ok (stripedExtLoop maxStrips fuel c.parser c.mem c.extIndex) := by
  induction fuel generalizing c with
  | zero => rfl
  | succ fuel ih =>
    rw [loop, result_andThen, stripedTurn, stripedExtLoop]
    rcases yamlParserParse c.parser with _ | ⟨event, parser⟩
    · rfl
    cases event with
    | scalar key =>
      dsimp only
      cases interleaveField key with
      | some field =>
        dsimp only
        rcases expectScalar parser with _ | ⟨value, parser⟩
        · rfl
        · dsimp only
          simp only [result_bind, result_touch, Runs.ok_bind]
          exact ih _
      | none =>
        dsimp only
        split
        · rw [result_andThen, tracedSimpleExtList_result, listBase]
          rcases famfsParseFileSimpleExtList fuel parser c.mem (50 * c.extIndex + 2) maxStrips with _ | strips
          · rfl
          · simp only [Runs.ok_bind, Option.elim_some]
            split
            · rfl
            split
            · rfl
            · exact ih _
        · exact ih _
    | mappingStart =>
      dsimp only
      split
      · rfl
      · exact ih _
    | mappingEnd => exact ih _
    | sequenceEnd =>
      dsimp only
      cases expectEvent .mappingEnd parser <;> rfl
    | _ => exact ih _

theorem tracedStripedExtList_result (maxStrips fuel : ℕ) (parser : YamlParser) (mem : MapMemory) :
    (tracedStripedExtList maxStrips fuel parser mem).result =
      .ok (famfsParseFileStripedExtList fuel parser mem maxStrips) := by
  unfold tracedStripedExtList famfsParseFileStripedExtList
  cases startList parser with
  | none => rfl
  | some parser => exact stripedLoop_result _ _ _

theorem fileLoop_result (maxExtents maxStrips fuel : ℕ) (c : FileCursor) :
    (loop (fileTurn maxExtents maxStrips) fuel c).result =
      .ok (fileLoop maxExtents maxStrips fuel c.parser c.fm c.past) := by
  induction fuel generalizing c with
  | zero => rfl
  | succ fuel ih =>
    rw [loop, result_andThen, fileTurn, fileLoop]
    rcases yamlParserParse c.parser with _ | ⟨event, parser⟩
    · rfl
    cases event with
    | scalar key =>
      dsimp only
      cases fileField key with
      | some store =>
        dsimp only
        rcases expectScalar parser with _ | ⟨value, parser⟩
        · rfl
        · exact ih _
      | none =>
        dsimp only
        split
        · rw [result_andThen, tracedSimpleExtList_result, listBase]
          rcases famfsParseFileSimpleExtList fuel parser ⟨{ c.fm.fmFmap with fmapExtType := FAMFS_EXT_SIMPLE }, c.past⟩ 0
            maxExtents with _ | exts
          · rfl
          · simp only [Runs.ok_bind, Option.elim_some]
            split
            · rfl
            split
            · rfl
            · exact ih _
        split
        · rw [result_andThen, tracedStripedExtList_result]
          rcases famfsParseFileStripedExtList fuel parser
            ⟨{ c.fm.fmFmap with fmapExtType := FAMFS_EXT_INTERLEAVE }, c.past⟩ maxStrips with _ | exts
          · rfl
          · simp only [Runs.ok_bind, Option.elim_some]
            split
            · rfl
            · exact ih _
        · rfl
    | mappingEnd => rfl
    | _ => exact ih _

theorem tracedFileYaml_result (maxExtents maxStrips fuel : ℕ) (parser : YamlParser) (fm : FamfsLogFileMeta) (past : ℕ → ℕ) :
    (tracedFileYaml maxExtents maxStrips fuel parser fm past).result =
      .ok (famfsParseFileYaml fuel parser fm past maxExtents maxStrips) := by
  unfold tracedFileYaml famfsParseFileYaml
  cases expectEvent .mappingStart parser with
  | none => rfl
  | some parser => exact fileLoop_result _ _ _ _

theorem tracedShadowYaml_result (fuel : ℕ) (parser : YamlParser) (fm : FamfsLogFileMeta) (past : ℕ → ℕ)
    (maxExtents maxStrips : ℕ) : (tracedShadowYaml fuel parser fm past maxExtents maxStrips).result =
      .ok (famfsParseShadowYaml fuel parser fm past maxExtents maxStrips) := by
  unfold tracedShadowYaml famfsParseShadowYaml
  rcases startDocument parser with _ | ⟨key, parser⟩
  · rfl
  dsimp only
  split
  · rw [result_andThen, tracedFileYaml_result]
    cases famfsParseFileYaml fuel parser fm past maxExtents maxStrips <;> rfl
  · rfl

end Famfs

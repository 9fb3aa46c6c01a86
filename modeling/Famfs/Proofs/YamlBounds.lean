import Famfs.Proofs.MapBounds
import Famfs.Proofs.YamlRoundTrip
import Famfs.Sanity.YamlNodes
import Famfs.Sanity.YamlSteps

/-! Which documents make the parser store outside the arrays of the map. The list loops look at
their index when a mapping starts, advance it when one ends, and store on scalars: a scalar that
comes after the last extent, or the second element of a list of interleaved extents, is stored
past the end. -/

namespace Famfs

open Machine Numerals Traced Loops Relation

variable {mem : MapMemory}

def SimpleCursor.AtExtent (c : SimpleCursor) : Prop :=
  ∃ key value parser parser' field, yamlParserParse c.parser = some (.scalar key, parser) ∧
    extentField key = some field ∧ expectScalar parser = some (value, parser')

/-- A key of an interleaved extent comes next, with its value. -/
def StripedCursor.AtField (c : StripedCursor) : Prop :=
  ∃ key value parser parser' field, yamlParserParse c.parser = some (.scalar key, parser) ∧
    interleaveField key = some field ∧ expectScalar parser = some (value, parser')

section

variable {P : MapAccess → Prop}

theorem simpleTurn_within_iff {owner : Option ℕ} {maxExtents fuel : ℕ} {c : SimpleCursor} :
    Within P (simpleTurn owner maxExtents fuel c) ↔ (c.AtExtent → P (listElem owner c.extIndex)) := by
  by_cases hat : c.AtExtent
  · obtain ⟨key, value, parser, parser', field, hkey, hfield, hvalue⟩ := id hat
    rw [simpleTurn_extent hkey hfield hvalue, within_touch_bind]
    simp [hat]
  · refine iff_of_true ?_ fun h => absurd h hat
    obtain h | ⟨d, -, hturn⟩ | ⟨r, hturn, -⟩ := simpleTurn_cases owner maxExtents fuel c
    · exact absurd h hat
    · rw [hturn]
      exact within_pure _
    · rw [hturn]
      exact within_pure _

theorem tracedSimpleExtList_within_iff {owner : Option ℕ} {maxExtents : ℕ} {parser : YamlParser} :
    (∀ fuel, Within P (tracedSimpleExtList owner maxExtents fuel parser mem)) ↔
      ∀ start c, startList parser = some start →
        ReflTransGen (SimpleStep owner maxExtents) ⟨start, mem, 0, false, false⟩ c → c.AtExtent →
        P (listElem owner c.extIndex) := by
  unfold tracedSimpleExtList
  cases startList parser with
  | none => simp
  | some first =>
    dsimp only
    rw [within_loop_iff simpleTurn_mono, simple_goes]
    constructor
    · rintro h _ c ⟨⟩ hrun hat
      exact simpleTurn_within_iff.1 (h c hrun 0) hat
    · intro h c hrun fuel
      exact simpleTurn_within_iff.2 (h first c rfl hrun)

theorem stripedTurn_within_iff {maxStrips : ℕ} {c : StripedCursor} :
    (∀ fuel, Within P (stripedTurn maxStrips fuel c)) ↔ (c.AtField → P (.ie c.extIndex)) ∧
      ∀ strips, yamlParserParse c.parser = some (.scalar (lit "simple_ext_list"), strips) →
        ∀ fuel, Within P (tracedSimpleExtList (some c.extIndex) maxStrips fuel strips c.mem) := by
  by_cases hat : c.AtField
  · obtain ⟨key, value, parser, parser', field, hkey, hfield, hvalue⟩ := id hat
    have hno : ∀ strips, yamlParserParse c.parser ≠ some (.scalar (lit "simple_ext_list"), strips) := by
      intro strips h
      rw [hkey] at h
      obtain ⟨rfl, -⟩ : key = lit "simple_ext_list" ∧ parser = strips := by simpa using h
      rw [interleaveField_simple_ext_list] at hfield
      cases hfield
    simp only [stripedTurn_field hkey hfield hvalue, within_touch_bind]
    simp [hat, hno]
  by_cases hlist : ∃ parser, yamlParserParse c.parser = some (.scalar (lit "simple_ext_list"), parser)
  · obtain ⟨parser, hkey⟩ := hlist
    have hafter : ∀ strips, Within P (afterStrips c strips) := by
      intro strips
      unfold afterStrips
      split_ifs <;> exact within_pure _
    simp [stripedTurn_strips hkey, within_andThen, hafter, hkey, hat]
  · refine iff_of_true (fun fuel => ?_) ⟨fun h => absurd h hat, fun strips h => absurd ⟨strips, h⟩ hlist⟩
    obtain h | h | ⟨d, -, hturn⟩ | ⟨r, hturn, -⟩ := stripedTurn_cases maxStrips c
    · exact absurd h hat
    · exact absurd h hlist
    · rw [hturn]
      exact within_pure _
    · rw [hturn]
      exact within_pure _

theorem tracedStripedExtList_within_iff {maxStrips : ℕ} {parser : YamlParser} :
    (∀ fuel, Within P (tracedStripedExtList maxStrips fuel parser mem)) ↔
      ∀ start c, startList parser = some start → ReflTransGen (StripedStep maxStrips) ⟨start, mem, 0⟩ c →
        (c.AtField → P (.ie c.extIndex)) ∧
        ∀ strips, yamlParserParse c.parser = some (.scalar (lit "simple_ext_list"), strips) →
          ∀ fuel, Within P (tracedSimpleExtList (some c.extIndex) maxStrips fuel strips c.mem) := by
  unfold tracedStripedExtList
  cases startList parser with
  | none => simp
  | some first =>
    dsimp only
    rw [within_loop_iff stripedTurn_mono, striped_goes]
    constructor
    · rintro h _ c ⟨⟩ hrun
      exact stripedTurn_within_iff.1 (h c hrun)
    · intro h c hrun
      exact stripedTurn_within_iff.2 (h first c rfl hrun)

theorem fileTurn_within_iff {maxExtents maxStrips : ℕ} {c : FileCursor} :
    (∀ fuel, Within P (fileTurn maxExtents maxStrips fuel c)) ↔
      (∀ list, yamlParserParse c.parser = some (.scalar (lit "simple_ext_list"), list) →
        ∀ fuel, Within P (tracedSimpleExtList none maxExtents fuel list
          ⟨{ c.fm.fmFmap with fmapExtType := FAMFS_EXT_SIMPLE }, c.past⟩)) ∧
      ∀ list, yamlParserParse c.parser = some (.scalar (lit "striped_ext_list"), list) →
        ∀ fuel, Within P (tracedStripedExtList maxStrips fuel list
          ⟨{ c.fm.fmFmap with fmapExtType := FAMFS_EXT_INTERLEAVE }, c.past⟩) := by
  by_cases hsimple : ∃ list, yamlParserParse c.parser = some (.scalar (lit "simple_ext_list"), list)
  · obtain ⟨list, hkey⟩ := hsimple
    have hafter : ∀ exts, Within P (afterSimpleList c exts) := by
      intro exts
      unfold afterSimpleList
      split_ifs <;> exact within_pure _
    have hne : lit "simple_ext_list" ≠ lit "striped_ext_list" := by decide
    simp [fileTurn_simple hkey, within_andThen, hafter, hkey, hne]
  by_cases hstriped : ∃ list, yamlParserParse c.parser = some (.scalar (lit "striped_ext_list"), list)
  · obtain ⟨list, hkey⟩ := hstriped
    have hafter : ∀ exts, Within P (afterStripedList c exts) := by
      intro exts
      unfold afterStripedList
      split_ifs <;> exact within_pure _
    have hne : lit "striped_ext_list" ≠ lit "simple_ext_list" := by decide
    simp [fileTurn_striped hkey, within_andThen, hafter, hkey, hne]
  · refine iff_of_true (fun fuel => ?_) ⟨fun list h => absurd ⟨list, h⟩ hsimple, fun list h => absurd ⟨list, h⟩ hstriped⟩
    obtain h | h | ⟨d, -, hturn⟩ | ⟨r, hturn, -⟩ := fileTurn_cases maxExtents maxStrips c
    · exact absurd h hsimple
    · exact absurd h hstriped
    · rw [hturn]
      exact within_pure _
    · rw [hturn]
      exact within_pure _

end

/-- How many mappings end on the way from one place of the document to another. -/
def mappingEndsFrom (start now : YamlParser) : ℕ := start.events.count .mappingEnd - now.events.count .mappingEnd

/-- A list of extents stays in its array: after sixteen mappings of it have ended, no field of an
extent comes. -/
def ExtentsInside (list : YamlParser) (mem : MapMemory) : Prop :=
  ∀ start c, startList list = some start → ReflTransGen (SimpleStep none 16) ⟨start, mem, 0, false, false⟩ c →
    c.AtExtent → mappingEndsFrom start c.parser < 16

/-- A list of interleaved extents stays in its array: after a mapping of it has ended, no field of an
interleaved extent comes, nor a list of strips with a field in it. The strips stay in theirs. -/
def ElementsInside (list : YamlParser) (mem : MapMemory) : Prop :=
  ∀ start c, startList list = some start → ReflTransGen (StripedStep 16) ⟨start, mem, 0⟩ c →
    (c.AtField → mappingEndsFrom start c.parser = 0) ∧
    ∀ strips, yamlParserParse c.parser = some (.scalar (lit "simple_ext_list"), strips) →
      ∀ first d, startList strips = some first →
        ReflTransGen (SimpleStep (some c.extIndex) 16) ⟨first, c.mem, 0, false, false⟩ d →
        d.AtExtent → mappingEndsFrom start c.parser = 0 ∧ mappingEndsFrom first d.parser < 16

def FileCursor.ListInside (c : FileCursor) : Prop :=
  (∀ list, yamlParserParse c.parser = some (.scalar (lit "simple_ext_list"), list) →
    ExtentsInside list ⟨{ c.fm.fmFmap with fmapExtType := FAMFS_EXT_SIMPLE }, c.past⟩) ∧
  ∀ list, yamlParserParse c.parser = some (.scalar (lit "striped_ext_list"), list) →
    ElementsInside list ⟨{ c.fm.fmFmap with fmapExtType := FAMFS_EXT_INTERLEAVE }, c.past⟩

/-- The document starts with a mapping whose first key is `file`, with a mapping as its value. -/
def FileStarts (parser start : YamlParser) : Prop :=
  ∃ first, startDocument parser = some (lit "file", first) ∧ expectEvent .mappingStart first = some start

theorem simple_ends_from {owner : Option ℕ} {maxExtents : ℕ} {start : YamlParser}
    {c : SimpleCursor} (hrun : ReflTransGen (SimpleStep owner maxExtents) ⟨start, mem, 0, false, false⟩ c) :
    mappingEndsFrom start c.parser = c.extIndex := by
  have hindex := simple_run_index hrun
  unfold mappingEndsFrom
  dsimp only at hindex
  omega

theorem striped_ends_from {maxStrips : ℕ} {start : YamlParser} {c : StripedCursor}
    (hrun : ReflTransGen (StripedStep maxStrips) ⟨start, mem, 0⟩ c) :
    mappingEndsFrom start c.parser = 0 ↔ c.extIndex < FAMFS_MAX_INTERLEAVED_EXTENTS := by
  have hindex := striped_run_index hrun
  unfold mappingEndsFrom FAMFS_MAX_INTERLEAVED_EXTENTS
  omega

theorem extentsInside_iff {list : YamlParser} :
    (∀ fuel, Within (MapAccess.InBounds 0) (tracedSimpleExtList none 16 fuel list mem)) ↔ ExtentsInside list mem := by
  rw [tracedSimpleExtList_within_iff]
  refine forall₄_congr fun start c _ hrun => ?_
  rw [simple_ends_from hrun]
  rfl

theorem elementsInside_iff {list : YamlParser} :
    (∀ fuel, Within (MapAccess.InBounds 0) (tracedStripedExtList 16 fuel list mem)) ↔ ElementsInside list mem := by
  rw [tracedStripedExtList_within_iff]
  refine forall₄_congr fun start c _ hrun => ?_
  rw [striped_ends_from hrun]
  refine and_congr_right fun _ => forall₂_congr fun strips _ => ?_
  rw [tracedSimpleExtList_within_iff]
  refine forall₄_congr fun first d _ hstrips => ?_
  rw [simple_ends_from hstrips]
  rfl

theorem fileTurn_inside_iff {c : FileCursor} :
    (∀ fuel, Within (MapAccess.InBounds 0) (fileTurn 16 16 fuel c)) ↔ c.ListInside := by
  rw [fileTurn_within_iff]
  simp only [extentsInside_iff, elementsInside_iff]
  rfl

theorem tracedFileYaml_inside_iff {parser : YamlParser} {fm : FamfsLogFileMeta} {past : ℕ → ℕ} :
    (∀ fuel, Within (MapAccess.InBounds 0) (tracedFileYaml 16 16 fuel parser fm past)) ↔
      ∀ start, expectEvent .mappingStart parser = some start →
        ∀ c, ReflTransGen (FileStep 16 16) ⟨start, fm, past⟩ c → c.ListInside := by
  unfold tracedFileYaml
  cases expectEvent .mappingStart parser with
  | none => simp
  | some first =>
    dsimp only
    rw [within_loop_iff fileTurn_mono, file_goes]
    simp only [fileTurn_inside_iff, Option.some.injEq, forall_eq']

/-- The parser stores extent data only inside the arrays of the map just when every list that it
comes to stays inside. -/
theorem yaml_inside_iff (parser : YamlParser) (fm : FamfsLogFileMeta) (past : ℕ → ℕ) :
    (∀ fuel, Within (MapAccess.InBounds 0) (tracedShadowYaml fuel parser fm past 16 16)) ↔
      ∀ start, FileStarts parser start → ∀ c, ReflTransGen (FileStep 16 16) ⟨start, fm, past⟩ c → c.ListInside := by
  unfold tracedShadowYaml FileStarts
  rcases startDocument parser with _ | ⟨key, first⟩
  · simp
  dsimp only
  by_cases hkey : key = lit "file"
  · have hrest : ∀ st : FileState, Within (MapAccess.InBounds 0)
        (pure (some (if st.rc ≠ 0 then st else endDocument st)) : Traced MapAccess Trap (Option FileState)) :=
      fun _ => within_pure _
    simp only [if_pos hkey, within_andThen, hrest, implies_true, and_true, tracedFileYaml_inside_iff]
    simp [hkey]
  · simp [hkey]

/-- The events of an interleaved extent of one strip. -/
def oneStrip : List YamlEvent :=
  yamlMapping (yamlScalars ["nstrips", "1", "chunk_size", "0x200000", "simple_ext_list"] ++
    yamlSequence (yamlMapping (yamlScalars ["offset", "0x400000", "length", "0x200000"])))

theorem oneStrip_nodes : YamlNodes oneStrip :=
  yamlMapping_nodes ((yamlScalars_nodes _).append (yamlSequence_nodes (yamlMapping_nodes (yamlScalars_nodes _))))

/-- A shadow file that gives `nextents` as the number of its interleaved extents. -/
def interleavedYaml (nextents : String) (elements : List YamlEvent) : List YamlEvent :=
  yamlDocument (yamlMapping (yamlScalars ["file"] ++
    yamlMapping (yamlScalars ["nextents", nextents, "striped_ext_list"] ++ yamlSequence elements)))

theorem interleavedYaml_document (nextents : String) {elements : List YamlEvent} (h : YamlNodes elements) :
    YamlDocument (interleavedYaml nextents elements) :=
  ⟨_, yamlMapping_nodes ((yamlScalars_nodes _).append
    (yamlMapping_nodes ((yamlScalars_nodes _).append (yamlSequence_nodes h)))), rfl⟩

/-- The second interleaved extent is stored to `ie[1]`. -/
theorem yaml_stores_outside :
    YamlDocument (interleavedYaml "2" (oneStrip ++ oneStrip)) ∧
      ¬ Within (MapAccess.InBounds 0)
        (tracedShadowYaml 20 ⟨interleavedYaml "2" (oneStrip ++ oneStrip), false⟩ FamfsLogFileMeta.zero (fun _ => 0) 16 16) := by
  refine ⟨interleavedYaml_document "2" (oneStrip_nodes.append oneStrip_nodes), fun h => ?_⟩
  have hstore : MapAccess.ie 1 ∈
      (tracedShadowYaml 20 ⟨interleavedYaml "2" (oneStrip ++ oneStrip), false⟩ FamfsLogFileMeta.zero (fun _ => 0) 16 16).trace := by
    decide +kernel
  exact absurd (h _ hstore) (by decide)

end Famfs

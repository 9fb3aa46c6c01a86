import Famfs.Sanity.YamlEvents

/-! Shadow files carry the metadata of a file without loss: the parser gives back what
the emitter was given. -/

namespace Famfs

open Machine Numerals

/-- The maps of files: simple extents, or one interleaved extent, and zeroes after them. -/
inductive FamfsLogFmap.Mapped (f : FamfsLogFmap) : Prop
  | simple (htype : f.fmapExtType = FAMFS_EXT_SIMPLE) (hpos : 1 ≤ f.fmapNextents)
      (hmax : f.fmapNextents ≤ FAMFS_MAX_SIMPLE_EXTENTS) (hrest : ∀ i, 3 * f.fmapNextents ≤ i → f.word i = 0)
  | interleaved (htype : f.fmapExtType = FAMFS_EXT_INTERLEAVE) (hone : f.fmapNextents = 1) (hpos : 1 ≤ f.ieNstrips 0)
      (hmax : f.ieNstrips 0 ≤ FAMFS_MAX_SIMPLE_EXTENTS) (hrest : ∀ i, 2 + 3 * f.ieNstrips 0 ≤ i → f.word i = 0)

def FamfsLogFileMeta.zero : FamfsLogFileMeta := ⟨0, 0, 0, 0, 0, [], .zero⟩

theorem word_zero (i : ℕ) : FamfsLogFmap.zero.word i = 0 := by
  unfold FamfsLogFmap.word FamfsLogFmap.zero
  split_ifs <;> rfl

section

variable {f : FamfsLogFmap}

theorem putExtents_all (htype : f.fmapExtType = FAMFS_EXT_SIMPLE) (hmax : f.fmapNextents ≤ FAMFS_MAX_SIMPLE_EXTENTS)
    (hrest : ∀ i, 3 * f.fmapNextents ≤ i → f.word i = 0) :
    FamfsLogFmap.putExtents ⟨FAMFS_EXT_SIMPLE, f.fmapNextents, FamfsLogFmap.zero.words⟩ 0
      (f.extentsAt 0 f.fmapNextents) = f := by
  have hmax' : f.fmapNextents ≤ 16 := hmax
  obtain ⟨hputType, hputN⟩ := putExtents_header (f.extentsAt 0 f.fmapNextents)
    ⟨FAMFS_EXT_SIMPLE, f.fmapNextents, FamfsLogFmap.zero.words⟩ 0
  refine FamfsLogFmap.ext_word (hputType.trans htype.symm) hputN fun i _ => ?_
  rw [word_putExtents f _ _ (by omega)]
  split_ifs with hi
  · rfl
  · rw [hrest i (by omega)]
    exact word_zero i

theorem putInterleaved_all (htype : f.fmapExtType = FAMFS_EXT_INTERLEAVE) (hone : f.fmapNextents = 1)
    (hmax : f.ieNstrips 0 ≤ FAMFS_MAX_SIMPLE_EXTENTS) (hrest : ∀ i, 2 + 3 * f.ieNstrips 0 ≤ i → f.word i = 0) :
    FamfsLogFmap.putInterleaved ⟨FAMFS_EXT_INTERLEAVE, 1, FamfsLogFmap.zero.words⟩ f = f := by
  have hmax' : f.ieNstrips 0 ≤ 16 := hmax
  unfold FamfsLogFmap.putInterleaved
  obtain ⟨hputType, hputN⟩ := putExtents_header (f.extentsAt 2 (f.ieNstrips 0))
    ((FamfsLogFmap.setWord ⟨FAMFS_EXT_INTERLEAVE, 1, FamfsLogFmap.zero.words⟩ 0 (f.ieNstrips 0)).setWord 1
      (f.ieChunkSize 0)) 2
  refine FamfsLogFmap.ext_word (hputType.trans htype.symm) (hputN.trans hone.symm) fun i _ => ?_
  rw [word_putExtents f _ _ (by omega), FamfsLogFmap.word_setWord _ (by omega), FamfsLogFmap.word_setWord _ (by omega)]
  split_ifs with hi h1 h0
  · rfl
  · rw [h1]
    rfl
  · rw [h0]
    rfl
  · rw [hrest i (by omega)]
    exact word_zero i

end

section

variable {m : FamfsLogFileMeta} (broken : Bool) (past : ℕ → ℕ)

theorem fileLoop_field (key : CStr) {store : FamfsLogFileMeta → CStr → FamfsLogFileMeta}
    (hkey : fileField key = some store) (maxExtents maxStrips fuel : ℕ) (value : CStr) (rest : List YamlEvent)
    (fm : FamfsLogFileMeta) :
    fileLoop maxExtents maxStrips (fuel + 1) ⟨.scalar key :: .scalar value :: rest, broken⟩ fm past =
      fileLoop maxExtents maxStrips fuel ⟨rest, broken⟩ (store fm value) past := by
  rw [fileLoop]
  simp only [yamlParserParse, hkey, expectScalar]

theorem fileLoop_fields (hfits : (FamfsLogEntryBody.fm m).Fits) (hpath : m.fmRelpath.length ≤ FAMFS_MAX_PATHLEN - 1)
    (maxExtents maxStrips fuel : ℕ) (rest : List YamlEvent) :
    fileLoop maxExtents maxStrips (fuel + 7)
        ⟨.scalar (lit "path") :: .scalar m.fmRelpath :: .scalar (lit "size") :: .scalar (formatSigned (s64 m.fmSize)) ::
          .scalar (lit "flags") :: .scalar (formatSigned (s32 m.fmFlags)) ::
          .scalar (lit "mode") :: .scalar (formatOctal m.fmMode) ::
          .scalar (lit "uid") :: .scalar (formatSigned (s32 m.fmUid)) ::
          .scalar (lit "gid") :: .scalar (formatSigned (s32 m.fmGid)) ::
          .scalar (lit "nextents") :: .scalar (formatSigned (s32 m.fmFmap.fmapNextents)) :: rest, broken⟩ .zero past =
      fileLoop maxExtents maxStrips fuel ⟨rest, broken⟩
        { m with fmFmap := ⟨0, m.fmFmap.fmapNextents, FamfsLogFmap.zero.words⟩ } past := by
  cases hfits with
  | fm hsize hflags huid hgid hmode _ _ hfmap =>
    have hmode' : u32 (strtoull (formatOctal m.fmMode)) = m.fmMode := by
      rw [strtoull_formatOctal (by omega), u32_of_lt hmode]
    rw [fileLoop_field broken past (lit "path") rfl, fileLoop_field broken past (lit "size") rfl,
      fileLoop_field broken past (lit "flags") rfl, fileLoop_field broken past (lit "mode") rfl,
      fileLoop_field broken past (lit "uid") rfl, fileLoop_field broken past (lit "gid") rfl,
      fileLoop_field broken past (lit "nextents") rfl]
    simp only [strtoull_s64 hsize, strtoull_s32 hflags, strtoull_s32 huid, strtoull_s32 hgid, hmode',
      strtoull_s32 hfmap.nextents, setRelpath, List.take_of_length_le hpath]
    simp only [FamfsLogFileMeta.zero, List.drop_nil, ite_self, List.append_nil]
    rfl

theorem s32_small {n : ℕ} (h16 : n ≤ 16) : s32 n = n := by
  simp only [s32, u32]
  split_ifs <;> omega

theorem fileLoop_simple (hfits : m.fmFmap.Fits) (htype : m.fmFmap.fmapExtType = FAMFS_EXT_SIMPLE)
    (hpos : 1 ≤ m.fmFmap.fmapNextents) (h16 : m.fmFmap.fmapNextents ≤ 16)
    (hrest : ∀ i, 3 * m.fmFmap.fmapNextents ≤ i → m.fmFmap.word i = 0) {fuel : ℕ} (hfuel : 90 ≤ fuel)
    (rest : List YamlEvent) :
    fileLoop 16 16 (fuel + 1)
        ⟨famfsEmitYamlSimpleExtList m.fmFmap 0 (s32 m.fmFmap.fmapNextents) ++ .mappingEnd :: .mappingEnd :: rest, broken⟩
        { m with fmFmap := ⟨0, m.fmFmap.fmapNextents, FamfsLogFmap.zero.words⟩ } past =
      some ⟨0, m, past, ⟨rest, broken⟩⟩ := by
  have hne : m.fmFmap.extentsAt 0 m.fmFmap.fmapNextents ≠ [] := by
    rw [← List.length_pos_iff, extentsAt_length]
    omega
  have hlist : famfsParseFileSimpleExtList fuel _
      ⟨⟨FAMFS_EXT_SIMPLE, m.fmFmap.fmapNextents, FamfsLogFmap.zero.words⟩, past⟩ 0 16 =
        some ⟨0, _, _, ⟨.mappingEnd :: rest, broken⟩⟩ :=
    parseSimpleExtList broken past (extentsAt_fits hfits 0 _) hne (by rw [extentsAt_length]; exact h16)
      (by rw [extentsAt_length]; omega) (by rw [extentsAt_length]; omega) _ _
  rw [putExtents_all htype h16 hrest, extentsAt_length] at hlist
  obtain ⟨extra, rfl⟩ : ∃ extra, fuel = extra + 1 := ⟨fuel - 1, by omega⟩
  rw [s32_small h16, emitSimpleExtList_eq, fileLoop]
  simp only [List.cons_append, List.append_assoc, List.nil_append, yamlParserParse,
    show fileField (lit "simple_ext_list") = none from rfl, if_true, hlist, ne_eq, not_true_eq_false,
    if_false, fileLoop]

theorem fileLoop_striped (hfits : m.fmFmap.Fits) (htype : m.fmFmap.fmapExtType = FAMFS_EXT_INTERLEAVE)
    (hone : m.fmFmap.fmapNextents = 1) (hpos : 1 ≤ m.fmFmap.ieNstrips 0) (h16 : m.fmFmap.ieNstrips 0 ≤ 16)
    (hrest : ∀ i, 2 + 3 * m.fmFmap.ieNstrips 0 ≤ i → m.fmFmap.word i = 0) {fuel : ℕ} (hfuel : 90 ≤ fuel)
    (rest : List YamlEvent) :
    fileLoop 16 16 (fuel + 1)
        ⟨famfsEmitYamlStripedExtList m.fmFmap ++ .mappingEnd :: .mappingEnd :: rest, broken⟩
        { m with fmFmap := ⟨0, m.fmFmap.fmapNextents, FamfsLogFmap.zero.words⟩ } past =
      some ⟨0, m, past, ⟨rest, broken⟩⟩ := by
  have hlist : famfsParseFileStripedExtList fuel _ ⟨⟨FAMFS_EXT_INTERLEAVE, 1, FamfsLogFmap.zero.words⟩, past⟩ 16 =
      some ⟨0, _, ⟨.mappingEnd :: rest, broken⟩⟩ :=
    parseStripedExtList broken past hfits hpos h16 h16 (by omega) _ _
  rw [putInterleaved_all htype hone h16 hrest] at hlist
  obtain ⟨extra, rfl⟩ : ∃ extra, fuel = extra + 1 := ⟨fuel - 1, by omega⟩
  have hemit : famfsEmitYamlStripedExtList m.fmFmap = .scalar (lit "striped_ext_list") :: .sequenceStart ::
      (emitInterleavedExtent m.fmFmap 0 ++ [.sequenceEnd]) := by
    unfold famfsEmitYamlStripedExtList
    rw [hone, List.range_one, List.flatMap_singleton]
    rfl
  rw [hemit, hone, fileLoop]
  simp only [List.cons_append, List.append_assoc, List.nil_append, yamlParserParse,
    show fileField (lit "striped_ext_list") = none from rfl,
    show lit "striped_ext_list" ≠ lit "simple_ext_list" by decide, if_true, hlist, ne_eq,
    not_true_eq_false, if_false, fileLoop]

theorem fileLoop_section (hfits : (FamfsLogEntryBody.fm m).Fits) (hpath : m.fmRelpath.length ≤ FAMFS_MAX_PATHLEN - 1)
    (hmap : m.fmFmap.Mapped) {fuel : ℕ} (hfuel : 100 ≤ fuel) (rest : List YamlEvent) :
    fileLoop 16 16 fuel ⟨famfsEmitYamlFileSection m ++ .mappingEnd :: .mappingEnd :: rest, broken⟩ .zero past =
      some ⟨0, m, past, ⟨rest, broken⟩⟩ := by
  obtain ⟨extra, rfl⟩ : ∃ extra, fuel = extra + 1 + 7 := ⟨fuel - 8, by omega⟩
  have hfields := fileLoop_fields broken past hfits hpath 16 16 (extra + 1)
  unfold famfsEmitYamlFileSection
  simp only [List.cons_append, List.nil_append, hfields]
  cases hfits with
  | fm hsize hflags huid hgid hmode _ _ hfmap =>
    cases hmap with
    | simple htype hpos hmax hrest =>
      rw [if_pos htype]
      exact fileLoop_simple broken past hfmap htype hpos hmax hrest (by omega) rest
    | interleaved htype hone hpos hmax hrest =>
      rw [if_neg (by rw [htype]; decide), if_pos htype]
      exact fileLoop_striped broken past hfmap htype hone hpos hmax hrest (by omega) rest

theorem shadow_yaml_round_trip (hfits : (FamfsLogEntryBody.fm m).Fits)
    (hpath : m.fmRelpath.length ≤ FAMFS_MAX_PATHLEN - 1) (hmap : m.fmFmap.Mapped) :
    ∃ turns, ∀ fuel ≥ turns,
      famfsParseShadowYaml fuel ⟨famfsEmitFileYaml m, broken⟩ .zero past FAMFS_MAX_SIMPLE_EXTENTS
        FAMFS_MAX_SIMPLE_EXTENTS = some ⟨0, m, past, ⟨[], broken⟩⟩ := by
  refine ⟨100, fun fuel hfuel => ?_⟩
  have hsection := fileLoop_section broken past hfits hpath hmap hfuel [.documentEnd, .streamEnd]
  simp only [famfsParseShadowYaml, startDocument, famfsEmitFileYaml, List.cons_append, List.nil_append,
    expectEvent, expectScalar, yamlParserParse, if_true, Option.bind_eq_bind, Option.bind_some, famfsParseFileYaml,
    FAMFS_MAX_SIMPLE_EXTENTS, hsection, ne_eq, not_true_eq_false, if_false,
    endDocument]

end

/-- A file of two extents whose size and device indices have their top bits set. -/
def topBitFile : FamfsLogFileMeta :=
  ⟨2 ^ 64 - 1, 2 ^ 32 - 1, 0, 2 ^ 31, 0o644, lit "d/f",
    ⟨FAMFS_EXT_SIMPLE, 2, (FamfsLogFmap.zero.putExtents 0
      [⟨2 ^ 63, FAMFS_ALLOC_UNIT, 2 ^ 64 - 1⟩, ⟨2 ^ 63 + 1, 2 ^ 63, FAMFS_ALLOC_UNIT⟩]).words⟩⟩

theorem topBitFile_mapped : topBitFile.fmFmap.Mapped := by
  refine .simple rfl (by decide) (by decide) fun i hi => ?_
  have hi : 6 ≤ i := hi
  show (FamfsLogFmap.zero.putExtents 0 [_, _]).word i = 0
  simp only [FamfsLogFmap.putExtents, FamfsLogFmap.setExtentAt]
  iterate 6 rw [FamfsLogFmap.word_setWord _ (by omega), if_neg (by omega)]
  exact word_zero i

theorem shadow_yaml_round_trip_top_bits :
    ∃ turns, ∀ fuel ≥ turns,
      famfsParseShadowYaml fuel ⟨famfsEmitFileYaml topBitFile, false⟩ .zero (fun _ => 0) FAMFS_MAX_SIMPLE_EXTENTS
        FAMFS_MAX_SIMPLE_EXTENTS = some ⟨0, topBitFile, fun _ => 0, ⟨[], false⟩⟩ :=
  shadow_yaml_round_trip false (fun _ => 0)
    (.fm (by decide) (by decide) (by decide) (by decide) (by decide) (by decide) (by decide)
      ⟨by decide, by decide, by decide⟩)
    (by decide) topBitFile_mapped

end Famfs

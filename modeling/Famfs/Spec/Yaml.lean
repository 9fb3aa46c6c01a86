import Famfs.Lib.Numerals
import Famfs.Spec.Meta

/-! Shadow files: the events that `famfs_yaml.c` hands to libyaml for a file, and its
parser over the events that libyaml gives back. A loop of the parser takes fuel, one
unit a turn, and is `none` without. A store outside the union of the map goes to the words
behind it, and the loops go on. -/

namespace Famfs

open Machine Numerals

def EOVERFLOW : ℤ := 75

/-- The bytes of an ASCII literal. -/
def lit (s : String) : CStr := s.toList.map fun c => UInt8.ofNat c.toNat

inductive YamlEvent where
  | noEvent
  | streamStart
  | streamEnd
  | documentStart
  | documentEnd
  | alias
  | scalar (value : CStr)
  | sequenceStart
  | sequenceEnd
  | mappingStart
  | mappingEnd
deriving DecidableEq

open YamlEvent in
def emitSimpleExtent (se : FamfsSimpleExtent) : List YamlEvent :=
  [mappingStart,
    scalar (lit "devindex"), scalar (formatSigned (s64 se.seDevindex)),
    scalar (lit "offset"), scalar (formatHex se.seOffset),
    scalar (lit "length"), scalar (formatHex se.seLen),
    mappingEnd]

/-- `se` is the array at word `base`, and `nextents` is an `int`. -/
def famfsEmitYamlSimpleExtList (fmap : FamfsLogFmap) (base : ℕ) (nextents : ℤ) : List YamlEvent :=
  [.scalar (lit "simple_ext_list"), .sequenceStart] ++
    (List.range nextents.toNat).flatMap (fun i => emitSimpleExtent (fmap.extentAt (base + 3 * i))) ++
    [.sequenceEnd]

def emitInterleavedExtent (fmap : FamfsLogFmap) (i : ℕ) : List YamlEvent :=
  [.mappingStart,
    .scalar (lit "nstrips"), .scalar (formatSigned (s64 (fmap.ieNstrips i))),
    .scalar (lit "chunk_size"), .scalar (formatHex (fmap.ieChunkSize i))] ++
    famfsEmitYamlSimpleExtList fmap (50 * i + 2) (s32 (fmap.ieNstrips i)) ++
    [.mappingEnd]

def famfsEmitYamlStripedExtList (fmap : FamfsLogFmap) : List YamlEvent :=
  [.scalar (lit "striped_ext_list"), .sequenceStart] ++
    (List.range fmap.fmapNextents).flatMap (emitInterleavedExtent fmap) ++
    [.sequenceEnd]

/-- An extent type that is neither of the two only prints a message. -/
def famfsEmitYamlFileSection (fm : FamfsLogFileMeta) : List YamlEvent :=
  [.scalar (lit "path"), .scalar fm.fmRelpath,
    .scalar (lit "size"), .scalar (formatSigned (s64 fm.fmSize)),
    .scalar (lit "flags"), .scalar (formatSigned (s32 fm.fmFlags)),
    .scalar (lit "mode"), .scalar (formatOctal fm.fmMode),
    .scalar (lit "uid"), .scalar (formatSigned (s32 fm.fmUid)),
    .scalar (lit "gid"), .scalar (formatSigned (s32 fm.fmGid)),
    .scalar (lit "nextents"), .scalar (formatSigned (s32 fm.fmFmap.fmapNextents))] ++
    if fm.fmFmap.fmapExtType = FAMFS_EXT_SIMPLE then
      famfsEmitYamlSimpleExtList fm.fmFmap 0 (s32 fm.fmFmap.fmapNextents)
    else if fm.fmFmap.fmapExtType = FAMFS_EXT_INTERLEAVE then famfsEmitYamlStripedExtList fm.fmFmap
    else []

def famfsEmitFileYaml (fm : FamfsLogFileMeta) : List YamlEvent :=
  [.streamStart, .documentStart, .mappingStart, .scalar (lit "file"), .mappingStart] ++ famfsEmitYamlFileSection fm ++
    [.mappingEnd, .mappingEnd, .documentEnd, .streamEnd]

/-- What libyaml still has to give: after the events it reports an error if the text is
`broken`, else it succeeds with empty events for ever. -/
structure YamlParser where
  events : List YamlEvent
  broken : Bool

def yamlParserParse (parser : YamlParser) : Option (YamlEvent × YamlParser) :=
  match parser.events with
  | event :: events => some (event, { parser with events := events })
  | [] => if parser.broken then none else some (.noEvent, parser)

/-- `GET_YAML_EVENT_OR_GOTO` with a type that has no data; `none` is `rc = -1`. -/
def expectEvent (event : YamlEvent) (parser : YamlParser) : Option YamlParser :=
  match yamlParserParse parser with
  | some (e, parser) => if e = event then some parser else none
  | none => none

/-- `GET_YAML_EVENT_OR_GOTO` with `YAML_SCALAR_EVENT`. -/
def expectScalar (parser : YamlParser) : Option (CStr × YamlParser) :=
  match yamlParserParse parser with
  | some (.scalar value, parser) => some (value, parser)
  | _ => none

/-- The map that is parsed into and the words behind it. -/
structure MapMemory where
  fmap : FamfsLogFmap
  past : ℕ → ℕ

def MapMemory.word (mem : MapMemory) (k : ℕ) : ℕ := mem.fmap.wordIn mem.past k

def MapMemory.store (mem : MapMemory) (k v : ℕ) : MapMemory :=
  if k < 50 then { mem with fmap := mem.fmap.setWord k v }
  else { mem with past := Function.update mem.past (k - 50) v }

/-- `ie[i].ie_nstrips`. -/
def MapMemory.ieNstrips (mem : MapMemory) (i : ℕ) : ℕ := mem.word (50 * i)

structure ExtListState where
  rc : ℤ
  mem : MapMemory
  nparsed : ℕ
  parser : YamlParser

/-- Which word of an extent a key is about. -/
def extentField (key : CStr) : Option ℕ :=
  if key = lit "offset" then some 1
  else if key = lit "length" then some 2
  else if key = lit "devindex" then some 0
  else none

/-- The `while` loop of `famfs_parse_file_simple_ext_list`. Every turn also deletes `val_event`, which is
then empty or was never filled; the deletion is taken to do nothing. -/
def simpleExtLoop (base maxExtents : ℕ) :
    ℕ → YamlParser → MapMemory → ℕ → Bool → Bool → Option ExtListState
  | 0, _, _, _, _, _ => none
  | fuel + 1, parser, mem, extIndex, gotOfs, gotLen =>
    match yamlParserParse parser with
    | none => some ⟨-1, mem, extIndex, parser⟩
    | some (.scalar key, parser) =>
      match extentField key with
      | some field =>
        match expectScalar parser with
        | none => some ⟨-1, mem, extIndex, parser⟩
        | some (value, parser) =>
          simpleExtLoop base maxExtents fuel parser (mem.store (base + 3 * extIndex + field) (strtoull value)) extIndex
            (gotOfs || field = 1) (gotLen || field = 2)
      | none => simpleExtLoop base maxExtents fuel parser mem extIndex gotOfs gotLen
    | some (.mappingStart, parser) =>
      if extIndex ≥ maxExtents then some ⟨-EOVERFLOW, mem, extIndex, parser⟩
      else simpleExtLoop base maxExtents fuel parser mem extIndex gotOfs gotLen
    | some (.mappingEnd, parser) =>
      if !gotLen || !gotOfs then some ⟨-EINVAL, mem, extIndex, parser⟩
      else simpleExtLoop base maxExtents fuel parser mem (extIndex + 1) false false
    | some (.sequenceEnd, parser) =>
      match expectEvent .mappingEnd parser with
      | none => some ⟨-1, mem, extIndex, parser⟩
      | some parser => some ⟨0, mem, extIndex, parser⟩
    | some (_, parser) => simpleExtLoop base maxExtents fuel parser mem extIndex gotOfs gotLen

/-- A list starts with the start of the sequence and the start of its first element. -/
def startList (parser : YamlParser) : Option YamlParser :=
  expectEvent .sequenceStart parser >>= expectEvent .mappingStart

def famfsParseFileSimpleExtList (fuel : ℕ) (parser : YamlParser) (mem : MapMemory) (base maxExtents : ℕ) :
    Option ExtListState :=
  match startList parser with
  | none => some ⟨-1, mem, 0, parser⟩
  | some parser => simpleExtLoop base maxExtents fuel parser mem 0 false false

structure StripedState where
  rc : ℤ
  mem : MapMemory
  parser : YamlParser

/-- Which word of an interleaved extent a key is about. -/
def interleaveField (key : CStr) : Option ℕ :=
  if key = lit "chunk_size" then some 1
  else if key = lit "nstrips" then some 0
  else none

/-- The `while` loop of `famfs_parse_file_striped_ext_list`. The limit it checks is
`max_strips`, and the deletion of `val_event` is taken to do nothing here too. -/
def stripedExtLoop (maxStrips : ℕ) : ℕ → YamlParser → MapMemory → ℕ → Option StripedState
  | 0, _, _, _ => none
  | fuel + 1, parser, mem, extIndex =>
    match yamlParserParse parser with
    | none => some ⟨-1, mem, parser⟩
    | some (.scalar key, parser) =>
      match interleaveField key with
      | some field =>
        match expectScalar parser with
        | none => some ⟨-1, mem, parser⟩
        | some (value, parser) =>
          stripedExtLoop maxStrips fuel parser (mem.store (50 * extIndex + field) (strtoull value)) extIndex
      | none =>
        if key = lit "simple_ext_list" then
          match famfsParseFileSimpleExtList fuel parser mem (50 * extIndex + 2) maxStrips with
          | none => none
          | some strips =>
            if strips.rc ≠ 0 then some ⟨strips.rc, strips.mem, strips.parser⟩
            else if strips.nparsed ≠ strips.mem.ieNstrips extIndex then
              some ⟨-EINVAL, strips.mem, strips.parser⟩
            else stripedExtLoop maxStrips fuel strips.parser strips.mem (extIndex + 1)
        else stripedExtLoop maxStrips fuel parser mem extIndex
    | some (.mappingStart, parser) =>
      if extIndex ≥ maxStrips then some ⟨-EOVERFLOW, mem, parser⟩
      else stripedExtLoop maxStrips fuel parser mem extIndex
    | some (.mappingEnd, parser) => stripedExtLoop maxStrips fuel parser mem (extIndex + 1)
    | some (.sequenceEnd, parser) =>
      match expectEvent .mappingEnd parser with
      | none => some ⟨-1, mem, parser⟩
      | some parser => some ⟨0, mem, parser⟩
    | some (_, parser) => stripedExtLoop maxStrips fuel parser mem extIndex

def famfsParseFileStripedExtList (fuel : ℕ) (parser : YamlParser) (mem : MapMemory) (maxStrips : ℕ) :
    Option StripedState :=
  match startList parser with
  | none => some ⟨-1, mem, parser⟩
  | some parser => stripedExtLoop maxStrips fuel parser mem 0

structure FileState where
  rc : ℤ
  fm : FamfsLogFileMeta
  past : ℕ → ℕ
  parser : YamlParser

/-- `strncpy` of at most 79 bytes into the array of 80, whose last byte stays. -/
def setRelpath (fm : FamfsLogFileMeta) (value : CStr) : FamfsLogFileMeta :=
  { fm with fmRelpath :=
      value.take (FAMFS_MAX_PATHLEN - 1) ++
        if FAMFS_MAX_PATHLEN - 1 ≤ value.length then fm.fmRelpath.drop (FAMFS_MAX_PATHLEN - 1) else [] }

/-- The keys whose value is one scalar, and where it goes. -/
def fileField (key : CStr) : Option (FamfsLogFileMeta → CStr → FamfsLogFileMeta) :=
  if key = lit "path" then some setRelpath
  else if key = lit "size" then some fun fm value => { fm with fmSize := strtoull value }
  else if key = lit "flags" then some fun fm value => { fm with fmFlags := u32 (strtoull value) }
  else if key = lit "mode" then some fun fm value => { fm with fmMode := u32 (strtoull value) }
  else if key = lit "uid" then some fun fm value => { fm with fmUid := u32 (strtoull value) }
  else if key = lit "gid" then some fun fm value => { fm with fmGid := u32 (strtoull value) }
  else if key = lit "nextents" then
    some fun fm value => { fm with fmFmap := { fm.fmFmap with fmapNextents := u32 (strtoull value) } }
  else none

/-- The `while` loop of `famfs_parse_file_yaml`. -/
def fileLoop (maxExtents maxStrips : ℕ) :
    ℕ → YamlParser → FamfsLogFileMeta → (ℕ → ℕ) → Option FileState
  | 0, _, _, _ => none
  | fuel + 1, parser, fm, past =>
    match yamlParserParse parser with
    | none => some ⟨-1, fm, past, parser⟩
    | some (.scalar key, parser) =>
      match fileField key with
      | some store =>
        match expectScalar parser with
        | none => some ⟨-1, fm, past, parser⟩
        | some (value, parser) => fileLoop maxExtents maxStrips fuel parser (store fm value) past
      | none =>
        if key = lit "simple_ext_list" then
          match famfsParseFileSimpleExtList fuel parser ⟨{ fm.fmFmap with fmapExtType := FAMFS_EXT_SIMPLE }, past⟩ 0
            maxExtents with
          | none => none
          | some exts =>
            let fm := { fm with fmFmap := exts.mem.fmap }
            if exts.rc ≠ 0 then some ⟨exts.rc, fm, exts.mem.past, exts.parser⟩
            else if exts.nparsed ≠ fm.fmFmap.fmapNextents then some ⟨-EINVAL, fm, exts.mem.past, exts.parser⟩
            else fileLoop maxExtents maxStrips fuel exts.parser fm exts.mem.past
        else if key = lit "striped_ext_list" then
          match famfsParseFileStripedExtList fuel parser ⟨{ fm.fmFmap with fmapExtType := FAMFS_EXT_INTERLEAVE }, past⟩
            maxStrips with
          | none => none
          | some exts =>
            let fm := { fm with fmFmap := exts.mem.fmap }
            if exts.rc ≠ 0 then some ⟨exts.rc, fm, exts.mem.past, exts.parser⟩
            else fileLoop maxExtents maxStrips fuel exts.parser fm exts.mem.past
        else some ⟨-EINVAL, fm, past, parser⟩
    | some (.mappingEnd, parser) => some ⟨0, fm, past, parser⟩
    | some (_, parser) => fileLoop maxExtents maxStrips fuel parser fm past

def famfsParseFileYaml (fuel : ℕ) (parser : YamlParser) (fm : FamfsLogFileMeta) (past : ℕ → ℕ) (maxExtents maxStrips : ℕ) :
    Option FileState :=
  match expectEvent .mappingStart parser with
  | none => some ⟨-1, fm, past, parser⟩
  | some parser => fileLoop maxExtents maxStrips fuel parser fm past

/-- What comes before the first key. -/
def startDocument (parser : YamlParser) : Option (CStr × YamlParser) :=
  expectEvent .streamStart parser >>= expectEvent .documentStart >>= expectEvent .mappingStart >>= expectScalar

def endDocument (st : FileState) : FileState :=
  match expectEvent .documentEnd st.parser >>= expectEvent .streamEnd with
  | none => { st with rc := -1 }
  | some parser => { st with parser := parser }

def famfsParseShadowYaml (fuel : ℕ) (parser : YamlParser) (fm : FamfsLogFileMeta) (past : ℕ → ℕ)
    (maxExtents maxStrips : ℕ) : Option FileState :=
  match startDocument parser with
  | none => some ⟨-1, fm, past, parser⟩
  | some (key, parser) =>
    if key = lit "file" then
      match famfsParseFileYaml fuel parser fm past maxExtents maxStrips with
      | none => none
      | some st => some (if st.rc ≠ 0 then st else endDocument st)
    else some (endDocument ⟨0, fm, past, parser⟩)

end Famfs

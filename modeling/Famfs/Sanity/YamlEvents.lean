import Famfs.Lib.Runs
import Famfs.Spec.LogReader
import Famfs.Spec.Yaml

/-! The parser on what the emitter wrote, part by part. -/

namespace Famfs

open Machine Numerals

theorem store_inside (f : FamfsLogFmap) (past : ℕ → ℕ) {k : ℕ} (hk : k < 50) (v : ℕ) :
    MapMemory.store ⟨f, past⟩ k v = ⟨f.setWord k v, past⟩ := if_pos hk

def FamfsLogFmap.extentsAt (g : FamfsLogFmap) (base : ℕ) : ℕ → List FamfsSimpleExtent
  | 0 => []
  | n + 1 => g.extentAt base :: g.extentsAt (base + 3) n

def FamfsLogFmap.putExtents (f : FamfsLogFmap) (base : ℕ) : List FamfsSimpleExtent → FamfsLogFmap
  | [] => f
  | e :: es => (f.setExtentAt base e).putExtents (base + 3) es

theorem range_extentsAt (g : FamfsLogFmap) (base n : ℕ) :
    (List.range n).map (fun i => g.extentAt (base + 3 * i)) = g.extentsAt base n := by
  induction n generalizing base with
  | zero => rfl
  | succ n ih =>
    rw [List.range_succ_eq_map, List.map_cons, List.map_map, FamfsLogFmap.extentsAt, ← ih (base + 3)]
    congr 1
    apply List.map_congr_left
    intro i _
    simp only [Function.comp_apply, Nat.succ_eq_add_one]
    congr 1
    omega

@[simp] theorem extentsAt_length (g : FamfsLogFmap) (base n : ℕ) : (g.extentsAt base n).length = n := by
  rw [← range_extentsAt, List.length_map, List.length_range]

theorem word_setExtentAt (f g : FamfsLogFmap) {base : ℕ} (hbase : base + 3 ≤ 50) (i : ℕ) :
    (f.setExtentAt base (g.extentAt base)).word i = if base ≤ i ∧ i < base + 3 then g.word i else f.word i := by
  unfold FamfsLogFmap.setExtentAt FamfsLogFmap.extentAt
  rw [FamfsLogFmap.word_setWord _ (by omega), FamfsLogFmap.word_setWord _ (by omega),
    FamfsLogFmap.word_setWord _ (by omega)]
  by_cases h2 : i = base + 2
  · rw [if_pos h2, if_pos (by omega), h2]
  · rw [if_neg h2]
    by_cases h1 : i = base + 1
    · rw [if_pos h1, if_pos (by omega), h1]
    · rw [if_neg h1]
      by_cases h0 : i = base
      · rw [if_pos h0, if_pos (by omega), h0]
      · rw [if_neg h0, if_neg (by omega)]

theorem word_putExtents (g : FamfsLogFmap) (n : ℕ) (f : FamfsLogFmap) {base : ℕ} (hbase : base + 3 * n ≤ 50) (i : ℕ) :
    (f.putExtents base (g.extentsAt base n)).word i = if base ≤ i ∧ i < base + 3 * n then g.word i else f.word i := by
  induction n generalizing f base with
  | zero =>
    rw [if_neg (by omega)]
    rfl
  | succ n ih =>
    rw [FamfsLogFmap.extentsAt, FamfsLogFmap.putExtents, ih _ (by omega), word_setExtentAt f g (by omega)]
    by_cases hfirst : base ≤ i ∧ i < base + 3
    · rw [if_neg (by omega), if_pos hfirst, if_pos (by omega)]
    · rw [if_neg hfirst]
      by_cases hlater : base + 3 ≤ i ∧ i < base + 3 + 3 * n
      · rw [if_pos hlater, if_pos (by omega)]
      · rw [if_neg hlater, if_neg (by omega)]

theorem putExtents_header (es : List FamfsSimpleExtent) (f : FamfsLogFmap) (base : ℕ) :
    (f.putExtents base es).fmapExtType = f.fmapExtType ∧ (f.putExtents base es).fmapNextents = f.fmapNextents := by
  induction es generalizing f base with
  | nil => exact ⟨rfl, rfl⟩
  | cons e es ih => exact ih (f.setExtentAt base e) (base + 3)

theorem FamfsLogFmap.ext_word {f g : FamfsLogFmap} (htype : f.fmapExtType = g.fmapExtType)
    (hn : f.fmapNextents = g.fmapNextents) (hwords : ∀ i < 50, f.word i = g.word i) : f = g := by
  obtain ⟨ft, fn, fw⟩ := f
  obtain ⟨gt, gn, gw⟩ := g
  obtain rfl : ft = gt := htype
  obtain rfl : fn = gn := hn
  congr 1
  funext i
  have hi := hwords i i.isLt
  simpa only [FamfsLogFmap.word, i.isLt, dite_true] using hi

section

variable {base maxExtents : ℕ} (broken : Bool) (past : ℕ → ℕ)

def FamfsSimpleExtent.Fits (e : FamfsSimpleExtent) : Prop :=
  e.seDevindex < 2 ^ 64 ∧ e.seOffset < 2 ^ 64 ∧ e.seLen < 2 ^ 64

theorem simpleExtLoop_extent {e : FamfsSimpleExtent} (he : e.Fits) {idx : ℕ} (hidx : base + 3 * idx + 2 < 50)
    (fuel : ℕ) (f : FamfsLogFmap) (rest : List YamlEvent) :
    simpleExtLoop base maxExtents (fuel + 4) ⟨(emitSimpleExtent e).tail ++ rest, broken⟩ ⟨f, past⟩ idx false false =
      simpleExtLoop base maxExtents fuel ⟨rest, broken⟩ ⟨f.setExtentAt (base + 3 * idx) e, past⟩ (idx + 1) false false := by
  obtain ⟨hdev, hofs, hlen⟩ := he
  have hkeys : extentField (lit "devindex") = some 0 ∧ extentField (lit "offset") = some 1 ∧
      extentField (lit "length") = some 2 := by decide
  obtain ⟨hk0, hk1, hk2⟩ := hkeys
  simp only [emitSimpleExtent, List.tail_cons, List.cons_append, List.nil_append, simpleExtLoop, yamlParserParse,
    expectScalar, hk0, hk1, hk2, strtoull_s64 hdev, strtoull_formatHex hofs, strtoull_formatHex hlen,
    FamfsLogFmap.setExtentAt]
  rw [store_inside f past (by omega), store_inside _ past (by omega), store_inside _ past (by omega)]
  rfl

theorem emitSimpleExtent_cons (e : FamfsSimpleExtent) (es : List FamfsSimpleExtent) (rest : List YamlEvent) :
    (e :: es).flatMap emitSimpleExtent ++ rest =
      .mappingStart :: ((emitSimpleExtent e).tail ++ (es.flatMap emitSimpleExtent ++ rest)) := by
  rw [List.flatMap_cons, List.append_assoc]
  rfl

theorem simpleExtLoop_list {es : List FamfsSimpleExtent} (hes : ∀ e ∈ es, e.Fits) {idx : ℕ}
    (hmax : idx + es.length ≤ maxExtents) (hroom : base + 3 * (idx + es.length) ≤ 50) (fuel : ℕ) (f : FamfsLogFmap)
    (rest : List YamlEvent) :
    simpleExtLoop base maxExtents (fuel + 1 + 5 * es.length)
        ⟨es.flatMap emitSimpleExtent ++ .sequenceEnd :: .mappingEnd :: rest, broken⟩ ⟨f, past⟩ idx false false =
      some ⟨0, ⟨f.putExtents (base + 3 * idx) es, past⟩, idx + es.length, ⟨rest, broken⟩⟩ := by
  induction es generalizing f idx with
  | nil => rfl
  | cons e es ih =>
    rw [List.length_cons] at hmax hroom ⊢
    have hfuel : fuel + 1 + 5 * (es.length + 1) = (fuel + 1 + 5 * es.length) + 4 + 1 := by ring
    rw [emitSimpleExtent_cons, hfuel, simpleExtLoop]
    simp only [yamlParserParse]
    rw [if_neg (by omega), simpleExtLoop_extent broken past (hes e (List.mem_cons_self ..)) (by omega),
      ih (fun x hx => hes x (List.mem_cons_of_mem _ hx)) (by omega) (by omega), FamfsLogFmap.putExtents,
      show base + 3 * (idx + 1) = base + 3 * idx + 3 by ring, show idx + 1 + es.length = idx + (es.length + 1) by ring]

theorem parseSimpleExtList {es : List FamfsSimpleExtent} (hes : ∀ e ∈ es, e.Fits) (hne : es ≠ [])
    (hmax : es.length ≤ maxExtents) (hroom : base + 3 * es.length ≤ 50) {fuel : ℕ} (hfuel : 5 * es.length ≤ fuel)
    (f : FamfsLogFmap) (rest : List YamlEvent) :
    famfsParseFileSimpleExtList fuel
        ⟨.sequenceStart :: (es.flatMap emitSimpleExtent ++ .sequenceEnd :: .mappingEnd :: rest), broken⟩ ⟨f, past⟩ base
        maxExtents =
      some ⟨0, ⟨f.putExtents base es, past⟩, es.length, ⟨rest, broken⟩⟩ := by
  obtain ⟨e, es, rfl⟩ := List.exists_cons_of_ne_nil hne
  rw [List.length_cons] at hmax hroom hfuel ⊢
  obtain ⟨extra, rfl⟩ : ∃ extra, fuel = extra + 1 + 5 * es.length + 4 := ⟨fuel - 5 * es.length - 5, by omega⟩
  rw [emitSimpleExtent_cons, famfsParseFileSimpleExtList]
  simp only [startList, expectEvent, yamlParserParse, if_true, Option.bind_eq_bind, Option.bind_some]
  rw [simpleExtLoop_extent broken past (hes e (List.mem_cons_self ..)) (by omega),
    simpleExtLoop_list broken past (fun x hx => hes x (List.mem_cons_of_mem _ hx)) (by omega) (by omega),
    FamfsLogFmap.putExtents, Nat.mul_zero, Nat.add_zero, Nat.zero_add, Nat.mul_one, Nat.add_comm 1]

theorem emitSimpleExtList_eq (g : FamfsLogFmap) (base n : ℕ) :
    famfsEmitYamlSimpleExtList g base n =
      .scalar (lit "simple_ext_list") :: .sequenceStart ::
        ((g.extentsAt base n).flatMap emitSimpleExtent ++ [.sequenceEnd]) := by
  unfold famfsEmitYamlSimpleExtList
  rw [← range_extentsAt, List.flatMap_map, Int.toNat_natCast]
  rfl

theorem FamfsLogFmap.Fits.extentAt {g : FamfsLogFmap} (hg : g.Fits) (k : ℕ) : (g.extentAt k).Fits := by
  have hword : ∀ i, g.word i < 2 ^ 64 := by
    intro i
    unfold FamfsLogFmap.word
    split_ifs with hi
    · exact hg.words ⟨i, hi⟩
    · norm_num
  exact ⟨hword k, hword (k + 1), hword (k + 2)⟩

theorem extentsAt_fits {g : FamfsLogFmap} (hg : g.Fits) (base n : ℕ) : ∀ e ∈ g.extentsAt base n, e.Fits := by
  intro e he
  rw [← range_extentsAt] at he
  obtain ⟨i, -, rfl⟩ := List.mem_map.1 he
  exact hg.extentAt _

def FamfsLogFmap.putInterleaved (f g : FamfsLogFmap) : FamfsLogFmap :=
  ((f.setWord 0 (g.ieNstrips 0)).setWord 1 (g.ieChunkSize 0)).putExtents 2 (g.extentsAt 2 (g.ieNstrips 0))

theorem parseStripedExtList {g : FamfsLogFmap} (hg : g.Fits) {maxStrips : ℕ} (hpos : 1 ≤ g.ieNstrips 0)
    (h16 : g.ieNstrips 0 ≤ 16) (hmax : g.ieNstrips 0 ≤ maxStrips) {fuel : ℕ} (hfuel : 5 * g.ieNstrips 0 + 4 ≤ fuel)
    (f : FamfsLogFmap) (rest : List YamlEvent) :
    famfsParseFileStripedExtList fuel
        ⟨.sequenceStart :: (emitInterleavedExtent g 0 ++ .sequenceEnd :: .mappingEnd :: rest), broken⟩ ⟨f, past⟩ maxStrips =
      some ⟨0, ⟨f.putInterleaved g, past⟩, ⟨rest, broken⟩⟩ := by
  have hkeys : interleaveField (lit "nstrips") = some 0 ∧ interleaveField (lit "chunk_size") = some 1 ∧
      interleaveField (lit "simple_ext_list") = none := by decide
  obtain ⟨hk0, hk1, hk2⟩ := hkeys
  have hstrips : s32 (g.ieNstrips 0) = (g.ieNstrips 0 : ℤ) := by
    simp only [s32, u32]
    split_ifs <;> omega
  have hn64 : g.ieNstrips 0 < 2 ^ 64 := by omega
  have hchunk : g.ieChunkSize 0 < 2 ^ 64 := (hg.extentAt 0).2.1
  obtain ⟨extra, rfl⟩ : ∃ extra, fuel = extra + 1 + 1 + 1 + 1 := ⟨fuel - 4, by omega⟩
  have hne : g.extentsAt 2 (g.ieNstrips 0) ≠ [] := by
    rw [← List.length_pos_iff, extentsAt_length]
    omega
  have hlist : famfsParseFileSimpleExtList (extra + 1) ⟨.sequenceStart ::
      ((g.extentsAt 2 (g.ieNstrips 0)).flatMap emitSimpleExtent ++
        .sequenceEnd :: .mappingEnd :: .sequenceEnd :: .mappingEnd :: rest), broken⟩
      ⟨(f.setWord 0 (g.ieNstrips 0)).setWord 1 (g.ieChunkSize 0), past⟩ 2 maxStrips =
        some ⟨0, ⟨f.putInterleaved g, past⟩, _, _⟩ :=
    parseSimpleExtList broken past (extentsAt_fits hg 2 _) hne (by rw [extentsAt_length]; exact hmax)
      (by rw [extentsAt_length]; omega) (by rw [extentsAt_length]; omega) _ _
  rw [extentsAt_length] at hlist
  have hcount : MapMemory.ieNstrips ⟨f.putInterleaved g, past⟩ 0 = g.ieNstrips 0 := by
    rw [MapMemory.ieNstrips, MapMemory.word, FamfsLogFmap.wordIn_eq _ _ (by omega), FamfsLogFmap.putInterleaved,
      word_putExtents g _ _ (by omega), if_neg (by omega),
      FamfsLogFmap.word_setWord _ (by omega), if_neg (by omega), FamfsLogFmap.word_setWord _ (by omega), if_pos rfl]
  rw [famfsParseFileStripedExtList]
  simp only [startList, expectEvent, yamlParserParse, if_true, Option.bind_eq_bind, Option.bind_some,
    emitInterleavedExtent, hstrips, emitSimpleExtList_eq, List.cons_append, List.nil_append, List.append_assoc,
    stripedExtLoop, expectScalar, hk0, hk1, hk2, strtoull_s64 hn64, strtoull_formatHex hchunk, Nat.mul_zero,
    Nat.zero_add]
  rw [store_inside f past (by omega), store_inside _ past (by omega), hlist]
  simp only [hcount, ne_eq, not_true_eq_false, if_false, if_true]

end

end Famfs

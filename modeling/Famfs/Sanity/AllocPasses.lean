import Famfs.Sanity.AllocStrips

/-! The loop over buckets, pass by pass. Each pass marks the first run that its search may
take; the run becomes a strip only if its offset is positive as an `s64`. -/

namespace Famfs

open Machine Intervals

/-- The indices that marking `n` bits from `p` goes through. -/
def Touches (n p b : ℕ) : Prop := ∃ t < n, u32 (p + t) = b

theorem has_touches {n p b : ℕ} (hb : Seg.Has (p, n) b) (h32 : b < 2 ^ 32) : Touches n p b := by
  obtain ⟨h1, h2⟩ := hb
  simp only at h1 h2
  exact ⟨b - p, by omega, by rw [u32_of_lt (by omega)]; omega⟩

theorem touches_iff {n p b : ℕ} (h32 : p + n ≤ 2 ^ 32) : Touches n p b ↔ Seg.Has (p, n) b := by
  constructor
  · rintro ⟨t, ht, rfl⟩
    rw [u32_of_lt (by omega)]
    exact ⟨Nat.le_add_right p t, by simp only; omega⟩
  · intro hb
    exact has_touches hb (lt_of_lt_of_le hb.2 h32)

theorem Touches.lt {n p b : ℕ} (h : Touches n p b) : b < 2 ^ 32 := by
  obtain ⟨t, -, rfl⟩ := h
  exact Nat.mod_lt _ (by norm_num)

theorem setRun_test (bitmap : Bitmap) (n p b : ℕ) :
    muBitmapTest (setRun bitmap n p) b = true ↔
      muBitmapTest bitmap b = true ∨ (Touches n p b ∧ b < bitmap.bits) := by
  induction n generalizing bitmap p with
  | zero => simp [setRun, Touches]
  | succ n ih =>
    have hsplit : Touches (n + 1) p b ↔ b = u32 p ∨ Touches n (p + 1) b := by
      constructor
      · rintro ⟨t, ht, rfl⟩
        cases t with
        | zero => exact Or.inl rfl
        | succ t => exact Or.inr ⟨t, by omega, by congr 1; omega⟩
      · rintro (rfl | ⟨t, ht, rfl⟩)
        · exact ⟨0, by omega, rfl⟩
        · exact ⟨t + 1, by omega, by congr 1; omega⟩
    rw [setRun, ih, mseBitmapSet32, muBitmapTest_set, muBitmapSet_bits, hsplit, Bool.or_eq_true, decide_eq_true_eq]
    constructor
    · rintro ((h | ⟨rfl, h⟩) | h)
      · exact Or.inl h
      · exact Or.inr ⟨Or.inl rfl, h⟩
      · exact Or.inr ⟨Or.inr h.1, h.2⟩
    · rintro (h | ⟨rfl | h, hb⟩)
      · exact Or.inl (Or.inl h)
      · exact Or.inl (Or.inr ⟨rfl, hb⟩)
      · exact Or.inr ⟨h, hb⟩

section

variable (g : StripeGeometry)

def StripeGeometry.stripUnits : ℕ := allocBits g.allocUnit (u64 (g.stripSizeAu * g.allocUnit))

def passStart (st : StripState) : ℕ := bucketPos g st.bs / g.allocUnit

/-- The first place that the search of a pass may stop at. -/
def Takes (st : StripState) (p : ℕ) : Prop :=
  IsLeast {q | Candidate st.bitmap g.nbits g.allocUnit (u64 (g.stripSizeAu * g.allocUnit)) (bucketPos g st.bs)
    (u64 (g.bucketSizeAu * g.allocUnit)) q} p

def Stored (p : ℕ) : Prop := 0 < s64 (p * g.allocUnit)

instance (p : ℕ) : Decidable (Stored g p) := inferInstanceAs (Decidable (_ < _))

def passPlace (st : StripState) : Option ℕ :=
  bitmapScan st.bitmap g.stripUnits (passStart g st) (rangeBits g.nbits g.allocUnit (u64 (g.bucketSizeAu * g.allocUnit)))
    (g.nbits - passStart g st) (passStart g st)

def passStrip (st : StripState) : Option ℕ := (passPlace g st).filter fun p => Stored g p

def passBits (st : StripState) : Bitmap := ((passPlace g st).map (setRun st.bitmap g.stripUnits)).getD st.bitmap

def stripAt (p : ℕ) : FamfsSimpleExtent := ⟨0, (s64 (p * g.allocUnit)).toNat, u64 (g.stripSizeAu * g.allocUnit)⟩

variable {g} {st st' : StripState} {p : ℕ}

theorem passPlace_iff : passPlace g st = some p ↔ Takes g st p := by
  constructor
  · intro h
    obtain ⟨hsel, hfuel, hmin⟩ := bitmapScan_some h
    have hle := hsel.from_le
    exact ⟨⟨by omega, hsel⟩, fun q hq => hmin q hq.2⟩
  · rintro ⟨⟨hp, hsel⟩, hleast⟩
    cases hplace : passPlace g st with
    | none =>
      have hle : passStart g st ≤ p := hsel.from_le
      exact absurd hsel (bitmapScan_none hplace p (by omega))
    | some q =>
      obtain ⟨hselq, hfuel, hmin⟩ := bitmapScan_some hplace
      have hleq := hselq.from_le
      have h1 : p ≤ q := hleast ⟨by omega, hselq⟩
      have h2 : q ≤ p := hmin p hsel
      rw [Nat.le_antisymm h1 h2]

theorem takes_of_candidate {q : ℕ} (hq : Candidate st.bitmap g.nbits g.allocUnit (u64 (g.stripSizeAu * g.allocUnit))
    (bucketPos g st.bs) (u64 (g.bucketSizeAu * g.allocUnit)) q) : ∃ p ≤ q, Takes g st p := by
  obtain ⟨hlt, hsel⟩ := hq
  have hle : passStart g st ≤ q := hsel.from_le
  cases hplace : passPlace g st with
  | none => exact absurd hsel (bitmapScan_none hplace q (by omega))
  | some p => exact ⟨p, (bitmapScan_some hplace).2.2 q hsel, passPlace_iff.1 hplace⟩

theorem passStrip_iff : passStrip g st = some p ↔ Takes g st p ∧ Stored g p := by
  rw [passStrip, Option.filter_eq_some_iff, passPlace_iff, decide_eq_true_eq]

theorem stripSearch_eq :
    (stripSearch g st).1 = ((passPlace g st).map fun p => s64 (p * g.allocUnit)).getD (-1) ∧
      (stripSearch g st).2.1 = passBits g st := by
  unfold stripSearch bitmapAllocContiguous passBits
  dsimp only
  split
  · rename_i hscan
    have hplace : passPlace g st = none := hscan
    rw [hplace]
    exact ⟨rfl, rfl⟩
  · rename_i p hscan
    have hplace : passPlace g st = some p := hscan
    rw [hplace]
    exact ⟨rfl, rfl⟩

@[simp] theorem passBits_bits : (passBits g st).bits = st.bitmap.bits := by
  unfold passBits
  cases passPlace g st <;> simp

theorem passBits_test (b : ℕ) :
    muBitmapTest (passBits g st) b = true ↔
      muBitmapTest st.bitmap b = true ∨ ∃ p, Takes g st p ∧ Touches g.stripUnits p b ∧ b < st.bitmap.bits := by
  simp only [← passPlace_iff]
  unfold passBits
  cases passPlace g st with
  | none => simp
  | some p => simp [setRun_test]

theorem Takes.clear (h : Takes g st p) {b : ℕ} (hb : Seg.Has (p, g.stripUnits) b) : muBitmapTest st.bitmap b = false :=
  h.1.2.run b hb

theorem Takes.lt (h : Takes g st p) : p < g.nbits := h.1.1

theorem Takes.start_le (h : Takes g st p) : passStart g st ≤ p := h.1.2.from_le

theorem Takes.unique {q : ℕ} (h : Takes g st p) (hq : Takes g st q) : p = q := IsLeast.unique h hq

theorem stripSearch_pos : 0 < (stripSearch g st).1 ↔ (passStrip g st).isSome = true := by
  rw [stripSearch_eq.1, passStrip]
  cases passPlace g st with
  | none => simp
  | some p =>
    by_cases hs : 0 < s64 (p * g.allocUnit)
    · simp [Option.filter, Stored, hs]
    · simp [Option.filter, Stored, hs]

structure PassStep (g : StripeGeometry) (st : StripState) (done : Bool) (st1 : StripState) : Prop where
  bs : st1.bs = (bucketSeriesNext st.bs).2
  bitmap : st1.bitmap = passBits g st
  count : st1.nstripsAllocated = st.nstripsAllocated + (passStrip g st).toList.length
  fmap : st1.fmap = ((passStrip g st).map fun p => st.fmap.setIeStrip st.nstripsAllocated (stripAt g p)).getD st.fmap
  room : passStrip g st ≠ none → st.nstripsAllocated < FAMFS_MAX_SIMPLE_EXTENTS
  last : done = true ↔ passStrip g st ≠ none ∧ g.nstrips ≤ st.nstripsAllocated + 1
  i : done = false → st1.i = st.i + 1

theorem stripStep_pass {done : Bool} (h : stripStep g st = .ok (done, st')) : PassStep g st done st' := by
  have hpos : 0 < (stripSearch g st).1 ↔ (passStrip g st).isSome = true := stripSearch_pos
  have hofs : ∀ p, passStrip g st = some p → (stripSearch g st).1 = s64 (p * g.allocUnit) := by
    intro p hp
    rw [stripSearch_eq.1, passPlace_iff.2 (passStrip_iff.1 hp).1]
    rfl
  rw [stripStep] at h
  cases hstrip : passStrip g st with
  | none =>
    rw [hstrip] at hpos
    simp only [hpos, Option.isSome_none, Bool.false_eq_true, if_false] at h
    cases h
    exact ⟨rfl, stripSearch_eq.2, by rw [hstrip]; rfl, by rw [hstrip]; rfl, fun hne => absurd hstrip hne,
      by simp [hstrip], fun _ => rfl⟩
  | some p =>
    have hstored : 0 < s64 (p * g.allocUnit) := (passStrip_iff.1 hstrip).2
    simp only [hofs p hstrip, hstored, if_true] at h
    split_ifs at h with hfull hlast
    · cases h
      exact ⟨rfl, stripSearch_eq.2, by rw [hstrip]; rfl, by rw [hstrip]; rfl, fun _ => not_le.1 hfull,
        by simp [hstrip, hlast], fun hd => by cases hd⟩
    · cases h
      exact ⟨rfl, stripSearch_eq.2, by rw [hstrip]; rfl, by rw [hstrip]; rfl, fun _ => not_le.1 hfull,
        by simp [hstrip, hlast], fun _ => rfl⟩

theorem PassStep.more (hstep : PassStep g st false st') (hlt : st.nstripsAllocated < g.nstrips) :
    st'.nstripsAllocated < g.nstrips := by
  have hnot : ¬ (passStrip g st ≠ none ∧ g.nstrips ≤ st.nstripsAllocated + 1) := fun hl =>
    Bool.false_ne_true (hstep.last.2 hl)
  rw [hstep.count]
  cases hp : passStrip g st with
  | none => simpa using hlt
  | some p =>
    rw [hp] at hnot
    simp only [ne_eq, reduceCtorEq, not_false_eq_true, true_and] at hnot
    simp only [Option.toList_some, List.length_singleton]
    omega

theorem stripStep_ok (hroom : passStrip g st ≠ none → st.nstripsAllocated < FAMFS_MAX_SIMPLE_EXTENTS) :
    ∃ r, stripStep g st = .ok r := by
  rw [stripStep]
  split_ifs with hpos hfull hlast
  · exact absurd hfull (not_le.2 (hroom (Option.isSome_iff_ne_none.1 (stripSearch_pos.1 hpos))))
  all_goals exact ⟨_, rfl⟩

theorem stripStep_error (hstrip : passStrip g st ≠ none) (hfull : FAMFS_MAX_SIMPLE_EXTENTS ≤ st.nstripsAllocated) :
    stripStep g st = .error .outOfBounds := by
  rw [stripStep]
  simp only [stripSearch_pos.2 (Option.isSome_iff_ne_none.2 hstrip), hfull, if_true]

end

/-- The states of the loop over buckets that search, in order. -/
def stripHeads (g : StripeGeometry) : ℕ → StripState → List StripState
  | 0, _ => []
  | fuel + 1, st => st :: match stripStep g st with
      | .ok (false, st') => stripHeads g fuel st'
      | _ => []

section

variable {g : StripeGeometry}

/-- What the heads of a stretch of the loop have in common with its start. -/
structure HeadsFrom (g : StripeGeometry) (st : StripState) (heads : List StripState) : Prop where
  bits : ∀ s ∈ heads, s.bitmap.bits = st.bitmap.bits
  grows : ∀ s ∈ heads, ∀ b, muBitmapTest st.bitmap b = true → muBitmapTest s.bitmap b = true
  /-- Only earlier passes have marked anything. -/
  earlier : ∀ pre s post, heads = pre ++ s :: post → ∀ b, muBitmapTest s.bitmap b = true ↔
    muBitmapTest st.bitmap b = true ∨ ∃ r ∈ pre, ∃ p, Takes g r p ∧ Touches g.stripUnits p b ∧ b < st.bitmap.bits
  /-- A strip goes to the slot after the earlier ones. -/
  slot : ∀ pre s post, heads = pre ++ s :: post →
    s.nstripsAllocated = st.nstripsAllocated + (pre.filterMap (passStrip g)).length
  /-- Each pass takes the next bucket. -/
  bucket : ∀ pre s post, heads = pre ++ s :: post →
    s.bs = { st.bs with current := min st.bs.nbuckets (st.bs.current + pre.length) }

structure LoopEnd (g : StripeGeometry) (fuel : ℕ) (st st' : StripState) (heads : List StripState) : Prop where
  count : st'.nstripsAllocated = st.nstripsAllocated + (heads.filterMap (passStrip g)).length
  bound : st'.nstripsAllocated ≤ g.nstrips
  head : st'.fmap.head = st.fmap.head
  slots : ∀ j, st'.fmap.ieStrips 0 j = if j < st.nstripsAllocated then st.fmap.ieStrips 0 j
    else (((heads.filterMap (passStrip g)).map (stripAt g))[j - st.nstripsAllocated]?).getD (st.fmap.ieStrips 0 j)
  bits : st'.bitmap.bits = st.bitmap.bits
  marked : ∀ b, muBitmapTest st'.bitmap b = true ↔
    muBitmapTest st.bitmap b = true ∨ ∃ s ∈ heads, ∃ p, Takes g s p ∧ Touches g.stripUnits p b ∧ b < st.bitmap.bits
  passes : st'.nstripsAllocated < g.nstrips → st'.i = st.i + fuel ∧ heads.length = fuel

theorem HeadsFrom.nil (st : StripState) : HeadsFrom g st [] := by
  refine ⟨by simp, by simp, ?_, ?_, ?_⟩ <;>
  · intro pre s post h
    simp at h

theorem LoopEnd.nil {st : StripState} (hlt : st.nstripsAllocated < g.nstrips) : LoopEnd g 0 st st [] :=
  ⟨rfl, hlt.le, rfl, by simp, rfl, by simp, fun _ => ⟨rfl, rfl⟩⟩

section

variable {fuel : ℕ} {st st1 st' : StripState} {done : Bool} {heads : List StripState}

theorem HeadsFrom.cons (hstep : PassStep g st done st1) (hcur : st.bs.current ≤ st.bs.nbuckets)
    (h : HeadsFrom g st1 heads) : HeadsFrom g st (st :: heads) where
  bits := by
    intro s hs
    rcases List.mem_cons.1 hs with rfl | hs
    · rfl
    · rw [h.bits s hs, hstep.bitmap, passBits_bits]
  grows := by
    intro s hs b hb
    rcases List.mem_cons.1 hs with rfl | hs
    · exact hb
    · refine h.grows s hs b ?_
      rw [hstep.bitmap, passBits_test]
      exact Or.inl hb
  earlier := by
    intro pre s post heq b
    rcases List.append_eq_cons_iff.1 heq.symm with ⟨rfl, hcons⟩ | ⟨pre, rfl, hcons⟩
    · cases hcons
      simp
    · rw [h.earlier pre s post hcons, hstep.bitmap, passBits_test, passBits_bits]
      simp only [List.mem_cons, exists_eq_or_imp, or_assoc]
  slot := by
    intro pre s post heq
    rcases List.append_eq_cons_iff.1 heq.symm with ⟨rfl, hcons⟩ | ⟨pre, rfl, hcons⟩
    · cases hcons
      rfl
    · rw [h.slot pre s post hcons, hstep.count, List.filterMap_cons]
      cases passStrip g st with
      | none => rfl
      | some p => simp only [Option.toList_some, List.length_cons, List.length_nil]; omega
  bucket := by
    intro pre s post heq
    rcases List.append_eq_cons_iff.1 heq.symm with ⟨rfl, hcons⟩ | ⟨pre, rfl, hcons⟩
    · cases hcons
      rw [List.length_nil, Nat.add_zero, Nat.min_eq_right hcur]
    · rw [h.bucket pre s post hcons, hstep.bs, bucketSeriesNext]
      split_ifs with hend
      · rw [Nat.le_antisymm hcur hend]
        simp
      · simp only [List.length_cons]
        congr 2
        omega

theorem LoopEnd.one (hlt : st.nstripsAllocated < g.nstrips) (hstep : PassStep g st true st1) (fuel : ℕ) :
    LoopEnd g (fuel + 1) st st1 [st] := by
  obtain ⟨hsome, hlast⟩ := hstep.last.1 rfl
  obtain ⟨p, hp⟩ := Option.ne_none_iff_exists'.1 hsome
  have hroom := hstep.room hsome
  have hcount := hstep.count
  have hfmap := hstep.fmap
  rw [hp] at hcount hfmap
  simp only [Option.toList_some, List.length_singleton] at hcount
  simp only [Option.map_some, Option.getD_some] at hfmap
  refine ⟨by simpa [hp] using hcount, by omega, ?_, fun j => ?_, ?_, fun b => ?_, fun hless => by omega⟩
  · rw [hfmap]
    exact setIeStrip_head _ hroom _
  · rw [hfmap]
    rcases Nat.lt_trichotomy j st.nstripsAllocated with hj | rfl | hj
    · rw [if_pos hj, setIeStrip_ne _ hroom (by omega)]
    · rw [if_neg (lt_irrefl _), setIeStrip_self _ hroom]
      simp [hp]
    · rw [if_neg (by omega), setIeStrip_ne _ hroom (by omega)]
      simp [hp, show j - st.nstripsAllocated ≠ 0 by omega]
  · rw [hstep.bitmap, passBits_bits]
  · rw [hstep.bitmap, passBits_test]
    simp

theorem LoopEnd.cons (hstep : PassStep g st false st1) (h : LoopEnd g fuel st1 st' heads) :
    LoopEnd g (fuel + 1) st st' (st :: heads) := by
  have hcount := hstep.count
  have hfmap := hstep.fmap
  refine ⟨?_, h.bound, ?_, fun j => ?_, ?_, fun b => ?_, fun hless => ?_⟩
  · rw [h.count, hcount, List.filterMap_cons]
    cases passStrip g st with
    | none => rfl
    | some p => simp only [Option.toList_some, List.length_cons, List.length_nil]; omega
  · rw [h.head, hfmap]
    cases hp : passStrip g st with
    | none => rfl
    | some p => exact setIeStrip_head _ (hstep.room (by rw [hp]; exact Option.some_ne_none p)) _
  · cases hp : passStrip g st with
    | none =>
      have hcount' : st1.nstripsAllocated = st.nstripsAllocated := by rw [hcount, hp]; rfl
      have hfmap' : st1.fmap = st.fmap := by rw [hfmap, hp]; rfl
      rw [h.slots, hcount', hfmap', List.filterMap_cons, hp]
    | some p =>
      have hroom := hstep.room (by rw [hp]; exact Option.some_ne_none p)
      have hcount' : st1.nstripsAllocated = st.nstripsAllocated + 1 := by rw [hcount, hp]; rfl
      have hfmap' : st1.fmap = st.fmap.setIeStrip st.nstripsAllocated (stripAt g p) := by rw [hfmap, hp]; rfl
      rw [h.slots, hcount', hfmap', List.filterMap_cons, hp]
      rcases Nat.lt_trichotomy j st.nstripsAllocated with hj | rfl | hj
      · rw [if_pos hj, if_pos (show j < st.nstripsAllocated + 1 by omega), setIeStrip_ne _ hroom (by omega)]
      · rw [if_neg (lt_irrefl _), if_pos (Nat.lt_succ_self _), setIeStrip_self _ hroom]
        simp
      · rw [if_neg (show ¬ j < st.nstripsAllocated by omega), if_neg (show ¬ j < st.nstripsAllocated + 1 by omega),
          setIeStrip_ne _ hroom (by omega),
          show j - st.nstripsAllocated = j - (st.nstripsAllocated + 1) + 1 by omega, List.map_cons,
          List.getElem?_cons_succ]
  · rw [h.bits, hstep.bitmap, passBits_bits]
  · rw [h.marked, hstep.bitmap, passBits_test, passBits_bits]
    simp only [List.mem_cons, exists_eq_or_imp, or_assoc]
  · obtain ⟨hi, hlen⟩ := h.passes hless
    refine ⟨by rw [hi, hstep.i rfl]; omega, by rw [List.length_cons, hlen]⟩

theorem stripLoop_end (hlt : st.nstripsAllocated < g.nstrips) (hcur : st.bs.current ≤ st.bs.nbuckets)
    (h : stripLoop g fuel st = .ok st') :
    HeadsFrom g st (stripHeads g fuel st) ∧ LoopEnd g fuel st st' (stripHeads g fuel st) := by
  induction fuel generalizing st with
  | zero =>
    cases h
    exact ⟨HeadsFrom.nil _, LoopEnd.nil hlt⟩
  | succ fuel ih =>
    rw [stripLoop, Runs.bind_eq_ok] at h
    obtain ⟨⟨done, st1⟩, h1, h2⟩ := h
    have hstep := stripStep_pass h1
    have hcur1 : st1.bs.current ≤ st1.bs.nbuckets := by
      rw [hstep.bs, bucketSeriesNext]
      split_ifs with hend
      · exact hcur
      · simp only
        omega
    cases done with
    | true =>
      cases h2
      simp only [stripHeads, h1]
      exact ⟨HeadsFrom.cons hstep hcur (HeadsFrom.nil _), LoopEnd.one hlt hstep fuel⟩
    | false =>
      obtain ⟨hheads, hend⟩ := ih (hstep.more hlt) hcur1 h2
      simp only [stripHeads, h1]
      exact ⟨HeadsFrom.cons hstep hcur hheads, LoopEnd.cons hstep hend⟩

theorem stripLoop_ok (hlt : st.nstripsAllocated < g.nstrips) (h16 : g.nstrips ≤ FAMFS_MAX_SIMPLE_EXTENTS) :
    ∃ st', stripLoop g fuel st = .ok st' := by
  induction fuel generalizing st with
  | zero => exact ⟨st, rfl⟩
  | succ fuel ih =>
    obtain ⟨⟨done, st1⟩, h1⟩ := stripStep_ok (g := g) fun _ => lt_of_lt_of_le hlt h16
    have hstep := stripStep_pass h1
    rw [stripLoop, h1, Runs.ok_bind]
    cases done with
    | true => exact ⟨st1, rfl⟩
    | false =>
      exact ih (hstep.more hlt)

end

theorem HeadsFrom.sees {st : StripState} {heads : List StripState} (h : HeadsFrom g st heads) {i j p b : ℕ} (hij : i < j)
    (hj : j < heads.length) (ht : Takes g heads[i] p) (hb : Touches g.stripUnits p b) (hlt : b < st.bitmap.bits) :
    muBitmapTest heads[j].bitmap b = true := by
  have hsplit : heads = heads.take j ++ heads[j] :: heads.drop (j + 1) := by
    rw [List.getElem_cons_drop, List.take_append_drop]
  refine (h.earlier _ _ _ hsplit b).2 (Or.inr ⟨heads[i], ?_, p, ht, hb, hlt⟩)
  rw [List.mem_take_iff_getElem]
  exact ⟨i, by omega, rfl⟩

open Classical in
theorem HeadsFrom.first {st : StripState} {heads : List StripState} (h : HeadsFrom g st heads) {b : ℕ}
    (hex : ∃ s ∈ heads, ∃ p, Takes g s p ∧ Touches g.stripUnits p b) :
    ∃ s ∈ heads, (∃ p, Takes g s p ∧ Touches g.stripUnits p b) ∧
      (muBitmapTest s.bitmap b = true ↔ muBitmapTest st.bitmap b = true) := by
  obtain ⟨s, hfind⟩ : ∃ s, heads.find? (fun s => decide (∃ p, Takes g s p ∧ Touches g.stripUnits p b)) = some s := by
    rw [← Option.isSome_iff_exists, List.find?_isSome]
    obtain ⟨s, hs, hp⟩ := hex
    exact ⟨s, hs, decide_eq_true hp⟩
  obtain ⟨hp, pre, post, hsplit, hnone⟩ := List.find?_eq_some_iff_append.1 hfind
  refine ⟨s, by rw [hsplit]; simp, of_decide_eq_true hp, ?_⟩
  rw [h.earlier pre s post hsplit b, or_iff_left]
  rintro ⟨r, hr, p, ht, hb, -⟩
  have := hnone r hr
  simp only [Bool.not_eq_true', decide_eq_false_iff_not] at this
  exact this ⟨p, ht, hb⟩

theorem HeadsFrom.was_clear {st : StripState} {heads : List StripState} (hheads : HeadsFrom g st heads) {s : StripState} (hs : s ∈ heads) {p b : ℕ} (ht : Takes g s p)
    (hb : Seg.Has (p, g.stripUnits) b) : muBitmapTest st.bitmap b = false := by
  cases hbit : muBitmapTest st.bitmap b with
  | false => rfl
  | true =>
    have hset := hheads.grows s hs b hbit
    rw [ht.clear hb] at hset
    exact Bool.noConfusion hset

theorem HeadsFrom.disjoint {st : StripState} {heads : List StripState} (hheads : HeadsFrom g st heads)
    (hbuf : g.nbits ≤ st.bitmap.bits)
    (h32 : ∀ s ∈ heads, ∀ p, Takes g s p → Stored g p → g.stripUnits = 0 ∨ p + g.stripUnits ≤ 2 ^ 32) :
    (heads.filterMap (passStrip g)).Pairwise fun p q =>
      ∀ b, Seg.Has (p, g.stripUnits) b → ¬ Seg.Has (q, g.stripUnits) b := by
  rw [List.pairwise_filterMap, List.pairwise_iff_getElem]
  simp only [passStrip_iff]
  rintro i j hi hj hij p ⟨htp, hsp⟩ q ⟨htq, -⟩ b ⟨h1, h2⟩ ⟨h3, h4⟩
  simp only at h1 h2 h3 h4
  have hbound := h32 _ (List.getElem_mem hi) p htp hsp
  have hp := htp.lt
  have hq := htq.lt
  have htouch : Touches g.stripUnits p (max p q) :=
    has_touches ⟨by simp only; omega, by simp only; omega⟩ (by omega)
  have hseen := hheads.sees hij hj htp htouch (by omega)
  rw [htq.clear ⟨by simp only; omega, by simp only; omega⟩] at hseen
  exact Bool.noConfusion hseen

theorem HeadsFrom.slot_iff {st : StripState} {heads : List StripState} (hheads : HeadsFrom g st heads)
    (hzero : st.nstripsAllocated = 0) {j p : ℕ} :
    (heads.filterMap (passStrip g))[j]? = some p ↔ ∃ s ∈ heads, s.nstripsAllocated = j ∧ passStrip g s = some p := by
  have hslot : ∀ pre s post, heads = pre ++ s :: post → s.nstripsAllocated = (pre.filterMap (passStrip g)).length :=
    fun pre s post heq => by rw [hheads.slot pre s post heq, hzero, Nat.zero_add]
  constructor
  · intro hj
    obtain ⟨hlt, hget⟩ := List.getElem?_eq_some_iff.1 hj
    have hsplit : heads.filterMap (passStrip g) = (heads.filterMap (passStrip g)).take j ++
        p :: (heads.filterMap (passStrip g)).drop (j + 1) := by
      rw [← hget, List.getElem_cons_drop, List.take_append_drop]
    obtain ⟨l, rest, hheads', hl, hrest⟩ := List.filterMap_eq_append_iff.1 hsplit
    obtain ⟨m, s, post, hm, hnone, hs, -⟩ := List.filterMap_eq_cons_iff.1 hrest
    have heq : heads = (l ++ m) ++ s :: post := by rw [hheads', hm, List.append_assoc]
    refine ⟨s, by rw [heq]; simp, ?_, hs⟩
    rw [hslot _ _ _ heq, List.filterMap_append, hl, List.filterMap_eq_nil_iff.2 hnone, List.append_nil, List.length_take]
    omega
  · rintro ⟨s, hs, rfl, hp⟩
    obtain ⟨pre, post, heq⟩ := List.append_of_mem hs
    rw [hslot pre s post heq, heq, List.filterMap_append, List.filterMap_cons_some hp]
    simp

end

end Famfs

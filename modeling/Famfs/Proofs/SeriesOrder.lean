import Famfs.Sanity.StripedCalls

/-! A bucket series under any mixture of `bucket_series_next` and `bucket_series_rewind`. Since the
last rewind the calls have returned the buckets in the order of the shuffle, and then -1. -/

namespace Famfs

open Machine

inductive SeriesCall where
  | next
  | rewind
deriving DecidableEq, Repr

/-- What a call returns, nothing for a rewind, and the series after it. -/
def SeriesCall.run (bs : BucketSeries) : SeriesCall → Option ℤ × BucketSeries
  | .next => (some (bucketSeriesNext bs).1, (bucketSeriesNext bs).2)
  | .rewind => (none, bucketSeriesRewind bs)

def seriesAnswers (bs : BucketSeries) : List SeriesCall → List (Option ℤ)
  | [] => []
  | c :: calls => (c.run bs).1 :: seriesAnswers (c.run bs).2 calls

/-- The values after one more answer, which starts them anew if it is that of a rewind. -/
def valuesAfter (out : List ℤ) (answer : Option ℤ) : List ℤ := answer.elim [] fun v => out ++ [v]

def sinceRewind (answers : List (Option ℤ)) : List ℤ := answers.foldl valuesAfter []

/-- The buckets in their order, each once, and then -1 however often. -/
def InSeriesOrder (buckets : List ℕ) (out : List ℤ) : Prop :=
  ∃ n, out <+: buckets.map Nat.cast ++ List.replicate n (-1)

/-- The series over the array `b`, after it has returned `out` since the last rewind. -/
structure SeriesAt (b : List ℕ) (out : List ℤ) (bs : BucketSeries) : Prop where
  nbuckets : bs.nbuckets = b.length
  buckets : bs.buckets = b
  current : bs.current = min out.length b.length
  order : ∀ n, out.length ≤ b.length + n → out <+: b.map Nat.cast ++ List.replicate n (-1)

section

variable {b : List ℕ} {out : List ℤ} {bs : BucketSeries}

theorem SeriesAt.rewind (h : SeriesAt b out bs) : SeriesAt b [] (bucketSeriesRewind bs) :=
  ⟨h.nbuckets, h.buckets, (Nat.zero_min _).symm, fun _ _ => List.nil_prefix⟩

theorem SeriesAt.next_cases (h : SeriesAt b out bs) (hint : ∀ x ∈ b, x < 2 ^ 63) :
    (∃ hlt : out.length < b.length, bucketSeriesNext bs = ((b[out.length] : ℤ), { bs with current := out.length + 1 })) ∨
      (b.length ≤ out.length ∧ bucketSeriesNext bs = (-1, bs)) := by
  rcases Nat.lt_or_ge out.length b.length with hlt | hge
  · have hcur : bs.current = out.length := h.current.trans (Nat.min_eq_left hlt.le)
    refine Or.inl ⟨hlt, ?_⟩
    rw [bucketSeriesNext, if_neg (by rw [h.nbuckets, hcur]; omega), h.buckets, hcur, List.getD_eq_getElem _ _ hlt,
      s64_of_lt (hint _ (List.getElem_mem hlt))]
  · refine Or.inr ⟨hge, ?_⟩
    rw [bucketSeriesNext, if_pos (by rw [h.nbuckets, h.current, Nat.min_eq_right hge])]

theorem SeriesAt.next (h : SeriesAt b out bs) (hint : ∀ x ∈ b, x < 2 ^ 63) :
    SeriesAt b (out ++ [(bucketSeriesNext bs).1]) (bucketSeriesNext bs).2 := by
  rcases h.next_cases hint with ⟨hlt, hnext⟩ | ⟨hge, hnext⟩
  · rw [hnext]
    refine ⟨h.nbuckets, h.buckets, ?_, fun n hn => ?_⟩
    · rw [List.length_append, List.length_singleton, Nat.min_eq_left hlt]
    · refine Runs.prefix_concat (h.order n (by omega)) ?_
      rw [List.getElem?_append_left (by rwa [List.length_map]), List.getElem?_map, List.getElem?_eq_getElem hlt]
      rfl
  · rw [hnext]
    refine ⟨h.nbuckets, h.buckets, ?_, fun n hn => ?_⟩
    · rw [h.current, List.length_append, List.length_singleton]
      omega
    · rw [List.length_append, List.length_singleton] at hn
      refine Runs.prefix_concat (h.order n (by omega)) ?_
      rw [List.getElem?_append_right (by rwa [List.length_map]), List.getElem?_replicate, List.length_map,
        if_pos (by omega)]

theorem SeriesAt.call (h : SeriesAt b out bs) (hint : ∀ x ∈ b, x < 2 ^ 63) (c : SeriesCall) :
    SeriesAt b (valuesAfter out (c.run bs).1) (c.run bs).2 := by
  cases c with
  | next => exact h.next hint
  | rewind => exact h.rewind

theorem SeriesAt.calls (h : SeriesAt b out bs) (hint : ∀ x ∈ b, x < 2 ^ 63) (calls : List SeriesCall) :
    InSeriesOrder b ((seriesAnswers bs calls).foldl valuesAfter out) := by
  induction calls generalizing out bs with
  | nil => exact ⟨out.length, h.order _ (Nat.le_add_left _ _)⟩
  | cons c calls ih => exact ih (h.call hint c)

end

/-- The array is a permutation of the bucket numbers, and every mixture of calls goes through it in
its order, from the start or from the last rewind on. -/
theorem bucket_series_permutes (rand : ℕ → ℕ) {nbuckets start : ℕ} (hpos : 1 ≤ nbuckets)
    (hint : start + nbuckets < 2 ^ 31) :
    (bucketSeriesAlloc rand nbuckets start).buckets.Perm (List.range' start nbuckets) ∧
      ∀ calls, InSeriesOrder (bucketSeriesAlloc rand nbuckets start).buckets
        (sinceRewind (seriesAnswers (bucketSeriesAlloc rand nbuckets start) calls)) := by
  have hperm := bucketSeriesAlloc_perm rand hpos hint.le
  have hlen : nbuckets = (bucketSeriesAlloc rand nbuckets start).buckets.length := by
    rw [hperm.length_eq, List.length_range']
  have hstart : SeriesAt (bucketSeriesAlloc rand nbuckets start).buckets [] (bucketSeriesAlloc rand nbuckets start) :=
    ⟨hlen, rfl, (Nat.zero_min _).symm, fun _ _ => List.nil_prefix⟩
  refine ⟨hperm, hstart.calls fun x hx => ?_⟩
  have hmem := hperm.mem_iff.1 hx
  rw [List.mem_range'_1] at hmem
  omega

/-- Three buckets from 2 on and a `rand` that returns 0: a call, a rewind and four calls. -/
theorem bucket_series_permutes_three :
    ((bucketSeriesAlloc (fun _ => 0) 3 2).buckets = [3, 4, 2] ∧
      (bucketSeriesAlloc (fun _ => 0) 3 2).buckets.Perm (List.range' 2 3)) ∧
    (sinceRewind (seriesAnswers (bucketSeriesAlloc (fun _ => 0) 3 2) [.next, .rewind, .next, .next, .next, .next]) =
        [3, 4, 2, -1] ∧
      InSeriesOrder (bucketSeriesAlloc (fun _ => 0) 3 2).buckets
        (sinceRewind (seriesAnswers (bucketSeriesAlloc (fun _ => 0) 3 2)
          [.next, .rewind, .next, .next, .next, .next]))) := by
  obtain ⟨hperm, horder⟩ := bucket_series_permutes (fun _ => 0) (show 1 ≤ 3 by decide) (show 2 + 3 < 2 ^ 31 by decide)
  exact ⟨⟨by decide, hperm⟩, by decide, horder _⟩

end Famfs

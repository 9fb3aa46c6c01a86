import Famfs.Sanity.PcqEntries

/-! The invariant of the queue. With `P` messages published and `D` taken, the indices
are `P % n` and `D % n`, the producer has seen at least the index after `P - (n - 1)`
messages were taken, and buckets `D % n` to `(P - 1) % n` hold the messages in between;
the two program counters say how far a call is with message `P` or `D`. -/

namespace Famfs

open Machine

/-- How far the producer is with message `published.length`. -/
inductive PutOk (crc32 : Crc32) (n size : ℕ) (published accepted : List (List UInt8)) (seen nextSeq : ℕ)
    (bucket : ℕ → ℕ → UInt8) : PutPc → Prop
  | idle (hseq : nextSeq = u64 published.length) (hacc : accepted = published) :
      PutOk crc32 n size published accepted seen nextSeq bucket .idle
  | loadIndex {e : List UInt8} (hlen : e.length = size) (hseq : nextSeq = u64 published.length)
      (hacc : accepted = published) : PutOk crc32 n size published accepted seen nextSeq bucket (.loadIndex e)
  | check {e : List UInt8} (hlen : e.length = size) (hseq : nextSeq = u64 published.length)
      (hacc : accepted = published) :
      PutOk crc32 n size published accepted seen nextSeq bucket (.check e (published.length % n))
  | full {e : List UInt8} (hlen : e.length = size) (hseq : nextSeq = u64 published.length)
      (hacc : accepted = published) : PutOk crc32 n size published accepted seen nextSeq bucket (.full e)
  | loadSeq {e : List UInt8} (hlen : e.length = size) (hseq : nextSeq = u64 published.length)
      (hacc : accepted = published) (hroom : published.length + 1 ≤ seen + (n - 1)) :
      PutOk crc32 n size published accepted seen nextSeq bucket (.loadSeq e (published.length % n))
  | storeSeq {e : List UInt8} (hlen : e.length = size) (hacc : accepted = published)
      (hroom : published.length + 1 ≤ seen + (n - 1)) :
      PutOk crc32 n size published accepted seen nextSeq bucket
        (.storeSeq e (published.length % n) (u64 published.length))
  | copy {e : List UInt8} {todo : Finset ℕ} (hlen : e.length = size) (hseq : nextSeq = u64 (published.length + 1))
      (hacc : accepted = published) (hroom : published.length + 1 ≤ seen + (n - 1))
      (hcopied : ∀ j < size, j ∉ todo →
        bucket (published.length % n) j = (pcqStamp crc32 size (u64 published.length) e).getD j 0) :
      PutOk crc32 n size published accepted seen nextSeq bucket
        (.copy (pcqStamp crc32 size (u64 published.length) e) (published.length % n) todo)
  | storeIndex {e : List UInt8} (hlen : e.length = size) (hseq : nextSeq = u64 (published.length + 1))
      (hacc : accepted = published) (hroom : published.length + 1 ≤ seen + (n - 1))
      (hcopied : HoldsEntry size (bucket (published.length % n)) (pcqStamp crc32 size (u64 published.length) e)) :
      PutOk crc32 n size published accepted seen nextSeq bucket
        (.storeIndex (pcqStamp crc32 size (u64 published.length) e) (published.length % n))
  | putGood {e : List UInt8} (hseq : nextSeq = u64 published.length)
      (hacc : published = accepted ++ [e.take (pcqPayloadSize size)]) :
      PutOk crc32 n size published accepted seen nextSeq bucket (.putGood e)

/-- How far the consumer is with message `taken.length`. A bucket that came from the
cache does not pass the checksum, and is only met on the first try. -/
inductive GetOk (crc32 : Crc32) (n size : ℕ) (published taken delivered : List (List UInt8)) (nextSeq : ℕ) :
    GetPc → Prop
  | idle (hseq : nextSeq = u64 taken.length) (hdel : delivered = taken) :
      GetOk crc32 n size published taken delivered nextSeq .idle
  | loadIndex (hseq : nextSeq = u64 taken.length) (hdel : delivered = taken) :
      GetOk crc32 n size published taken delivered nextSeq .loadIndex
  | check (hseq : nextSeq = u64 taken.length) (hdel : delivered = taken) :
      GetOk crc32 n size published taken delivered nextSeq (.check (taken.length % n))
  | empty (hseq : nextSeq = u64 taken.length) (hdel : delivered = taken) :
      GetOk crc32 n size published taken delivered nextSeq .empty
  | loadSeq {m : List UInt8} (hm : published[taken.length]? = some m) (hseq : nextSeq = u64 taken.length)
      (hdel : delivered = taken) :
      GetOk crc32 n size published taken delivered nextSeq (.loadSeq (taken.length % n))
  | storeSeq {m : List UInt8} (hm : published[taken.length]? = some m) (hdel : delivered = taken) :
      GetOk crc32 n size published taken delivered nextSeq (.storeSeq (taken.length % n) (u64 taken.length))
  | memory {m : List UInt8} {retries : ℕ} {todo : Finset ℕ} {out : ℕ → UInt8}
      (hm : published[taken.length]? = some m) (hseq : nextSeq = u64 (taken.length + 1)) (hdel : delivered = taken)
      (hcopied : ∀ j < size, j ∉ todo → out j = (pcqStamp crc32 size (u64 taken.length) m).getD j 0) :
      GetOk crc32 n size published taken delivered nextSeq
        (.copy (taken.length % n) (u64 taken.length) retries .memory todo out)
  | cache {m : List UInt8} {line : ℕ → UInt8} {todo : Finset ℕ} {out : ℕ → UInt8}
      (hm : published[taken.length]? = some m) (hseq : nextSeq = u64 (taken.length + 1)) (hdel : delivered = taken)
      (hbad : pcqCrcGood crc32 size (entryBytes size line) = false) (hcopied : ∀ j < size, j ∉ todo → out j = line j) :
      GetOk crc32 n size published taken delivered nextSeq
        (.copy (taken.length % n) (u64 taken.length) CONSUMER_NRETRIES (.cache line) todo out)
  | reloadIndex {m : List UInt8} (hm : published[taken.length]? = some m) (hseq : nextSeq = u64 (taken.length + 1))
      (hdel : delivered = taken) :
      GetOk crc32 n size published taken delivered nextSeq (.reloadIndex (pcqStamp crc32 size (u64 taken.length) m))
  | storeIndex {m : List UInt8} (hm : published[taken.length]? = some m) (hseq : nextSeq = u64 (taken.length + 1))
      (hdel : delivered = taken) :
      GetOk crc32 n size published taken delivered nextSeq
        (.storeIndex (pcqStamp crc32 size (u64 taken.length) m) (taken.length % n))
  | getGood {out : List UInt8} (hseq : nextSeq = u64 taken.length)
      (hdel : taken = delivered ++ [out.take (pcqPayloadSize size)]) :
      GetOk crc32 n size published taken delivered nextSeq (.getGood out)

structure PcqOk (crc32 : Crc32) (n size : ℕ) (s : PcqState) : Prop where
  nbuckets : s.pcq.nbuckets = n
  bucketSize : s.pcq.bucketSize = size
  magic : s.magicGood = true
  producerIndex : s.pcq.producerIndex = s.published.length % n
  consumerIndex : s.pcqc.consumerIndex = s.taken.length % n
  indexes : s.indexes = (List.range (s.taken.length + 1)).map (· % n)
  seen : s.seen ≤ s.taken.length
  room : s.published.length ≤ s.seen + (n - 1)
  taken : s.taken <+: s.published
  payload : ∀ m ∈ s.published, m.length = pcqPayloadSize size
  bucket : ∀ k m, s.published[k]? = some m → s.taken.length ≤ k →
    HoldsEntry size (s.bucket (k % n)) (pcqStamp crc32 size (u64 k) m)
  put : PutOk crc32 n size s.published s.accepted s.seen s.pcq.nextSeq s.bucket s.put
  get : GetOk crc32 n size s.published s.taken s.delivered s.pcqc.nextSeq s.get

section

variable {crc32 : Crc32} {n size : ℕ} {s t : PcqState}

theorem PcqOk.withProducer (hok : PcqOk crc32 n size s) {nextSeq : ℕ} {invalidated : ℕ → Bool}
    {accepted : List (List UInt8)} {pc : PutPc}
    (hput : PutOk crc32 n size s.published accepted s.seen nextSeq s.bucket pc) :
    PcqOk crc32 n size
      { s with pcq := { s.pcq with nextSeq := nextSeq }, invalidated := invalidated, accepted := accepted
               put := pc } :=
  ⟨hok.nbuckets, hok.bucketSize, hok.magic, hok.producerIndex, hok.consumerIndex, hok.indexes, hok.seen, hok.room,
    hok.taken, hok.payload, hok.bucket, hput, hok.get⟩

theorem PcqOk.withPut (hok : PcqOk crc32 n size s) {pc : PutPc}
    (hput : PutOk crc32 n size s.published s.accepted s.seen s.pcq.nextSeq s.bucket pc) :
    PcqOk crc32 n size { s with put := pc } := hok.withProducer hput

theorem PcqOk.withConsumer (hok : PcqOk crc32 n size s) {nextSeq : ℕ} {invalidated : ℕ → Bool}
    {delivered : List (List UInt8)} {pc : GetPc}
    (hget : GetOk crc32 n size s.published s.taken delivered nextSeq pc) :
    PcqOk crc32 n size
      { s with pcqc := { s.pcqc with nextSeq := nextSeq }, invalidated := invalidated, delivered := delivered
               get := pc } :=
  ⟨hok.nbuckets, hok.bucketSize, hok.magic, hok.producerIndex, hok.consumerIndex, hok.indexes, hok.seen, hok.room,
    hok.taken, hok.payload, hok.bucket, hok.put, hget⟩

theorem PcqOk.withGet (hok : PcqOk crc32 n size s) {pc : GetPc}
    (hget : GetOk crc32 n size s.published s.taken s.delivered s.pcqc.nextSeq pc) :
    PcqOk crc32 n size { s with get := pc } := hok.withConsumer hget

theorem GetOk.publish {published taken delivered : List (List UInt8)} {nextSeq : ℕ} {pc : GetPc}
    (hget : GetOk crc32 n size published taken delivered nextSeq pc) (m : List UInt8) :
    GetOk crc32 n size (published ++ [m]) taken delivered nextSeq pc := by
  have hmono : ∀ {k : ℕ} {x : List UInt8}, published[k]? = some x → (published ++ [m])[k]? = some x := by
    intro k x hx
    obtain ⟨hk, rfl⟩ := List.getElem?_eq_some_iff.1 hx
    rw [List.getElem?_append_left hk, List.getElem?_eq_getElem hk]
  cases hget with
  | idle hseq hdel => exact .idle hseq hdel
  | loadIndex hseq hdel => exact .loadIndex hseq hdel
  | check hseq hdel => exact .check hseq hdel
  | empty hseq hdel => exact .empty hseq hdel
  | loadSeq hm hseq hdel => exact .loadSeq (hmono hm) hseq hdel
  | storeSeq hm hdel => exact .storeSeq (hmono hm) hdel
  | memory hm hseq hdel hcopied => exact .memory (hmono hm) hseq hdel hcopied
  | cache hm hseq hdel hbad hcopied => exact .cache (hmono hm) hseq hdel hbad hcopied
  | reloadIndex hm hseq hdel => exact .reloadIndex (hmono hm) hseq hdel
  | storeIndex hm hseq hdel => exact .storeIndex (hmono hm) hseq hdel
  | getGood hseq hdel => exact .getGood hseq hdel

theorem PcqOk.le (hok : PcqOk crc32 n size s) : s.taken.length ≤ s.published.length := hok.taken.length_le

theorem PcqOk.next_free (hok : PcqOk crc32 n size s) (hroom : s.published.length + 1 ≤ s.seen + (n - 1)) {k : ℕ}
    (hk : s.taken.length ≤ k) (hkp : k < s.published.length) : k % n ≠ s.published.length % n := by
  have hseen := hok.seen
  intro heq
  have := (Ring.mod_eq_iff (le_of_lt hkp) (show s.published.length < k + n by omega)).1 heq.symm
  omega

theorem PcqOk.index_seen (hok : PcqOk crc32 n size s) {k v : ℕ} (hv : s.indexes[k]? = some v) :
    k ≤ s.taken.length ∧ v = k % n := by
  rw [hok.indexes] at hv
  obtain ⟨hk, hval⟩ := List.getElem?_eq_some_iff.1 hv
  rw [List.length_map, List.length_range] at hk
  rw [List.getElem_map, List.getElem_range] at hval
  exact ⟨by omega, hval.symm⟩

theorem PcqOk.message (h16 : 16 ≤ size) (hok : PcqOk crc32 n size s) {m : List UInt8} (hm : s.published[s.taken.length]? = some m) :
    HoldsEntry size (s.bucket (s.taken.length % n)) (pcqStamp crc32 size (u64 s.taken.length) m) ∧
      (pcqStamp crc32 size (u64 s.taken.length) m).length = size ∧
      (pcqStamp crc32 size (u64 s.taken.length) m).take (pcqPayloadSize size) = m ∧
      pcqCrcGood crc32 size (pcqStamp crc32 size (u64 s.taken.length) m) = true ∧
      pcqSeq size (pcqStamp crc32 size (u64 s.taken.length) m) = u64 s.taken.length := by
  have hlen : m.length = pcqPayloadSize size := hok.payload m (List.mem_of_getElem? hm)
  refine ⟨hok.bucket _ m hm le_rfl, pcqStamp_length crc32 _ hlen.ge h16, ?_, pcqCrcGood_stamp crc32 _ hlen.ge h16,
    pcqSeq_stamp crc32 _ hlen.ge (u64_lt _)⟩
  rw [pcqStamp_payload crc32 _ hlen.ge, ← hlen, List.take_length]

theorem next_index (hn : 1 ≤ n) (hn64 : n < 2 ^ 64) (k : ℕ) : u64 (k % n + 1) % n = (k + 1) % n := by
  have hlt := Nat.mod_lt k hn
  rw [u64_of_lt (by omega), Nat.mod_add_mod]

end

section

variable {crc32 : Crc32} {n size : ℕ} (hn : 1 ≤ n) (hn64 : n < 2 ^ 64) (h16 : 16 ≤ size) {s t : PcqState}

include hn hn64 h16

theorem pcqOk_producer (hok : PcqOk crc32 n size s) (hstep : ProducerStep crc32 s t) : PcqOk crc32 n size t := by
  have hput := hok.put
  have hle := hok.le
  have hseen := hok.seen
  cases hstep with
  | call entry hidle hlen =>
    rw [hidle] at hput
    cases hput with
    | idle hseq hacc =>
      rw [if_pos hok.magic]
      exact hok.withPut (.loadIndex (hlen.trans hok.bucketSize) hseq hacc)
  | loadIndex hpc =>
    rw [hpc] at hput
    cases hput with
    | loadIndex hlen hseq hacc =>
      rw [hok.producerIndex]
      exact hok.withPut (.check hlen hseq hacc)
  | check k v hpc hk hv =>
    rw [hpc] at hput
    cases hput with
    | check hlen hseq hacc =>
      obtain ⟨hkt, rfl⟩ := hok.index_seen hv
      have hroom : s.published.length ≤ k + (n - 1) := by have := hok.room; omega
      rw [hok.nbuckets, next_index hn hn64]
      refine ⟨hok.nbuckets, hok.bucketSize, hok.magic, hok.producerIndex, hok.consumerIndex, hok.indexes, hkt, hroom,
        hok.taken, hok.payload, hok.bucket, ?_, hok.get⟩
      by_cases hfull : (s.published.length + 1) % n = k % n
      · rw [if_neg (not_not.2 hfull)]
        exact .full hlen hseq hacc
      · rw [if_pos hfull]
        refine .loadSeq hlen hseq hacc ?_
        -- the next slot is not the one that was seen, so the lap is not complete
        have hnot : ¬ s.published.length + 1 = k + n := by
          intro heq
          exact hfull (by rw [heq, Nat.add_mod_right])
        show s.published.length + 1 ≤ k + (n - 1)
        omega
  | again hpc =>
    rw [hpc] at hput
    cases hput with
    | full hlen hseq hacc => exact hok.withPut (.loadIndex hlen hseq hacc)
  | refused hpc =>
    rw [hpc] at hput
    cases hput with
    | full hlen hseq hacc => exact hok.withPut (.idle hseq hacc)
  | loadSeq hpc =>
    rw [hpc] at hput
    cases hput with
    | loadSeq hlen hseq hacc hroom =>
      rw [hseq]
      exact hok.withPut (.storeSeq hlen hacc hroom)
  | storeSeq hpc =>
    rw [hpc] at hput
    cases hput with
    | storeSeq hlen hacc hroom =>
      have hsucc : u64 (u64 s.published.length + 1) = u64 (s.published.length + 1) := by
        simp only [u64]
        omega
      rw [hok.bucketSize, hsucc]
      refine hok.withProducer (.copy hlen rfl hacc hroom fun j hj hdone => ?_)
      exact absurd (Finset.mem_range.2 hj) hdone
  | @copyByte entry i todo j hpc hj =>
    rw [hpc] at hput
    cases hput with
    | copy hlen hseq hacc hroom hcopied =>
      refine ⟨hok.nbuckets, hok.bucketSize, hok.magic, hok.producerIndex, hok.consumerIndex, hok.indexes, hok.seen,
        hok.room, hok.taken, hok.payload, fun k m hm hk => ?_, .copy hlen hseq hacc hroom fun b hb hdone => ?_, hok.get⟩
      · obtain ⟨hkp, -⟩ := List.getElem?_eq_some_iff.1 hm
        have hother := hok.next_free hroom hk hkp
        simp only [Function.update_of_ne hother]
        exact hok.bucket k m hm hk
      · simp only [Function.update_self]
        by_cases hbj : b = j
        · rw [hbj, Function.update_self]
        · rw [Function.update_of_ne hbj]
          exact hcopied b hb fun hmem => hdone (Finset.mem_erase.2 ⟨hbj, hmem⟩)
  | flush hpc =>
    rw [hpc] at hput
    cases hput with
    | copy hlen hseq hacc hroom hcopied =>
      exact hok.withProducer (.storeIndex hlen hseq hacc hroom fun j hj => hcopied j hj (Finset.notMem_empty j))
  | storeIndex hpc =>
    rw [hpc] at hput
    cases hput with
    | @storeIndex e hlen hseq hacc hroom hcopied =>
      have hpay : pcqPayloadSize size ≤ e.length := by simp only [pcqPayloadSize]; omega
      have hlast : (s.published ++ [e.take (pcqPayloadSize size)]).length = s.published.length + 1 := by simp
      rw [hok.bucketSize, hok.nbuckets, next_index hn hn64, pcqStamp_payload crc32 _ hpay]
      refine ⟨hok.nbuckets, hok.bucketSize, hok.magic, ?_, hok.consumerIndex, hok.indexes, hok.seen, ?_,
        hok.taken.trans (List.prefix_append _ _), fun m hm => ?_, fun k m hm hk => ?_, .putGood ?_ ?_,
        hok.get.publish _⟩
      · rw [hlast]
      · rw [hlast]
        exact hroom
      · rcases List.mem_append.1 hm with hm | hm
        · exact hok.payload m hm
        · rw [List.mem_singleton.1 hm, payload_length hpay]
      · rw [List.getElem?_append] at hm
        split_ifs at hm with hkp
        · exact hok.bucket k m hm hk
        · obtain ⟨h0, rfl⟩ := List.getElem?_eq_some_iff.1 hm
          rw [List.length_singleton] at h0
          have hkP : k = s.published.length := by omega
          subst hkP
          simp only [Nat.sub_self, List.getElem_cons_zero, pcqStamp_take]
          exact hcopied
      · rw [hlast]
        exact hseq
      · rw [hacc, pcqStamp_payload crc32 _ hpay]
  | putGood hpc =>
    rw [hpc] at hput
    cases hput with
    | putGood hseq hacc =>
      refine hok.withProducer (.idle hseq ?_)
      rw [hok.bucketSize, ← hacc]

theorem pcqOk_consumer {stale : Stale}
    (hstale : ∀ s b line, stale s b line →
      pcqCrcGood crc32 s.pcq.bucketSize (entryBytes s.pcq.bucketSize line) = false)
    (hok : PcqOk crc32 n size s) (hstep : ConsumerStep crc32 stale s t) : PcqOk crc32 n size t := by
  have hget := hok.get
  have hle := hok.le
  have hsucc : u64 (u64 s.taken.length + 1) = u64 (s.taken.length + 1) := by
    simp only [u64]
    omega
  cases hstep with
  | call hidle =>
    rw [hidle] at hget
    cases hget with
    | idle hseq hdel =>
      rw [if_pos hok.magic]
      exact hok.withGet (.loadIndex hseq hdel)
  | loadIndex hpc =>
    rw [hpc] at hget
    cases hget with
    | loadIndex hseq hdel =>
      rw [hok.consumerIndex]
      exact hok.withGet (.check hseq hdel)
  | check hpc =>
    rw [hpc] at hget
    cases hget with
    | check hseq hdel =>
      rw [hok.producerIndex]
      by_cases heq : s.taken.length % n = s.published.length % n
      · rw [if_neg (not_not.2 heq)]
        exact hok.withGet (.empty hseq hdel)
      · rw [if_pos heq]
        have hlt : s.taken.length < s.published.length := lt_of_le_of_ne hle fun h => heq (by rw [h])
        exact hok.withGet (.loadSeq (List.getElem?_eq_getElem hlt) hseq hdel)
  | again hpc =>
    rw [hpc] at hget
    cases hget with
    | empty hseq hdel => exact hok.withGet (.loadIndex hseq hdel)
  | refused hpc =>
    rw [hpc] at hget
    cases hget with
    | empty hseq hdel => exact hok.withGet (.idle hseq hdel)
  | loadSeq hpc =>
    rw [hpc] at hget
    cases hget with
    | loadSeq hm hseq hdel =>
      rw [hseq]
      exact hok.withGet (.storeSeq hm hdel)
  | storeSeq hpc hview =>
    rw [hpc] at hget
    cases hget with
    | storeSeq hm hdel =>
      rw [hok.bucketSize, hsucc]
      refine hok.withConsumer ?_
      cases hview with
      | memory => exact .memory hm rfl hdel fun j hj hdone => absurd (Finset.mem_range.2 hj) hdone
      | cache hinv hline =>
        have hbad := hstale _ _ _ hline
        rw [hok.bucketSize] at hbad
        exact .cache hm rfl hdel hbad fun j hj hdone => absurd (Finset.mem_range.2 hj) hdone
  | copyByte j hpc hj =>
    rw [hpc] at hget
    cases hget with
    | memory hm hseq hdel hcopied =>
      refine hok.withGet (.memory hm hseq hdel fun b hb hdone => ?_)
      by_cases hbj : b = j
      · rw [hbj, Function.update_self]
        exact hok.bucket _ _ hm le_rfl j (hbj ▸ hb)
      · rw [Function.update_of_ne hbj]
        exact hcopied b hb fun hmem => hdone (Finset.mem_erase.2 ⟨hbj, hmem⟩)
    | cache hm hseq hdel hbad hcopied =>
      refine hok.withGet (.cache hm hseq hdel hbad fun b hb hdone => ?_)
      by_cases hbj : b = j
      · rw [hbj, Function.update_self]
        rfl
      · rw [Function.update_of_ne hbj]
        exact hcopied b hb fun hmem => hdone (Finset.mem_erase.2 ⟨hbj, hmem⟩)
  | retry hpc hcrc hview =>
    rw [hpc] at hget
    rw [hok.bucketSize] at hcrc
    cases hget with
    | memory hm hseq hdel hcopied =>
      obtain ⟨-, hlen, -, hgood, -⟩ := PcqOk.message h16 hok hm
      have hbytes := HoldsEntry.bytes (fun j hj => hcopied j hj (Finset.notMem_empty j)) hlen
      rw [hbytes, hgood] at hcrc
      cases hcrc
    | cache hm hseq hdel hbad hcopied =>
      cases hview with
      | cache hinv hline =>
        simp only [Function.update_self, Bool.true_eq_false] at hinv
      | memory =>
        rw [hok.bucketSize]
        refine hok.withConsumer ?_
        exact .memory hm hseq hdel fun j hj hdone => absurd (Finset.mem_range.2 hj) hdone
  | badCrc hpc hcrc =>
    rw [hpc] at hget
    rw [hok.bucketSize] at hcrc
    cases hget with
    | memory hm hseq hdel hcopied =>
      obtain ⟨-, hlen, -, hgood, -⟩ := PcqOk.message h16 hok hm
      have hbytes := HoldsEntry.bytes (fun j hj => hcopied j hj (Finset.notMem_empty j)) hlen
      rw [hbytes, hgood] at hcrc
      cases hcrc
  | verdict hpc hcrc =>
    rw [hpc] at hget
    rw [hok.bucketSize] at hcrc ⊢
    cases hget with
    | memory hm hseq hdel hcopied =>
      obtain ⟨-, hlen, -, -, hseqOut⟩ := PcqOk.message h16 hok hm
      have hbytes := HoldsEntry.bytes (fun j hj => hcopied j hj (Finset.notMem_empty j)) hlen
      rw [hbytes, if_neg (not_not.2 hseqOut)]
      exact hok.withGet (.reloadIndex hm hseq hdel)
    | cache hm hseq hdel hbad hcopied =>
      rw [entryBytes_congr fun j hj => hcopied j hj (Finset.notMem_empty j), hbad] at hcrc
      cases hcrc
  | reloadIndex hpc =>
    rw [hpc] at hget
    cases hget with
    | reloadIndex hm hseq hdel =>
      rw [hok.consumerIndex]
      exact hok.withGet (.storeIndex hm hseq hdel)
  | storeIndex hpc =>
    rw [hpc] at hget
    cases hget with
    | @storeIndex m hm hseq hdel =>
      obtain ⟨-, -, htake, -, -⟩ := PcqOk.message h16 hok hm
      have hlast : (s.taken ++ [m]).length = s.taken.length + 1 := by simp
      rw [hok.nbuckets, hok.bucketSize, next_index hn hn64, htake]
      refine ⟨hok.nbuckets, hok.bucketSize, hok.magic, hok.producerIndex, ?_, ?_, ?_, hok.room,
        Runs.prefix_concat hok.taken hm, hok.payload, fun k x hx hk => ?_, hok.put, .getGood ?_ ?_⟩
      · rw [hlast]
      · rw [hlast, List.range_succ, List.map_append, ← hok.indexes, List.map_singleton]
      · have := hok.seen
        rw [hlast]
        exact Nat.le_succ_of_le this
      · rw [hlast] at hk
        exact hok.bucket k x hx (by omega)
      · rw [hlast]
        exact hseq
      · rw [hdel, htake]
  | getGood hpc =>
    rw [hpc] at hget
    cases hget with
    | getGood hseq hdel =>
      refine hok.withConsumer (.idle hseq ?_)
      rw [hok.bucketSize, ← hdel]

end

end Famfs

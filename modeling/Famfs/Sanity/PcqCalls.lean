import Famfs.Sanity.PcqSteps

/-! Whole calls. A producer that finds room comes to the end of its call by itself, and so
does a consumer for which a message waits; the work left for the consumer gets less with
each of its steps and is not touched by the producer. -/

namespace Famfs

open Machine Relation

/-- Steps left in a call of the consumer that finds a message. -/
def GetPc.work (size : ℕ) : GetPc → ℕ
  | .loadIndex => 3 * (size + 1) + 7
  | .check _ => 3 * (size + 1) + 6
  | .loadSeq _ => 3 * (size + 1) + 5
  | .storeSeq _ _ => 3 * (size + 1) + 4
  | .copy _ _ retries _ todo _ => retries * (size + 1) + todo.card + 4
  | .reloadIndex _ => 3
  | .storeIndex _ _ => 2
  | .getGood _ => 1
  | _ => 0

/-- The consumer is in a call, and it has found a message or will. -/
inductive Meets (s : PcqState) : Prop
  | loadIndex (hpc : s.get = .loadIndex) (hwaits : s.taken.length < s.published.length)
  | check {i : ℕ} (hpc : s.get = .check i) (hwaits : s.taken.length < s.published.length)
  | loadSeq {i : ℕ} (hpc : s.get = .loadSeq i)
  | storeSeq {i seq : ℕ} (hpc : s.get = .storeSeq i seq)
  | copy {i seq retries : ℕ} {view : BucketView} {todo : Finset ℕ} {out : ℕ → UInt8}
      (hpc : s.get = .copy i seq retries view todo out)
  | reloadIndex {out : List UInt8} (hpc : s.get = .reloadIndex out)
  | storeIndex {out : List UInt8} {i : ℕ} (hpc : s.get = .storeIndex out i)
  | getGood {out : List UInt8} (hpc : s.get = .getGood out)

/-- The call ends, and it hands out the message that is next. -/
structure Delivers (s t : PcqState) : Prop where
  idle : t.get = .idle
  next : ∃ m, s.published[s.delivered.length]? = some m ∧ t.delivered = s.delivered ++ [m]

section

variable {crc32 : Crc32} {n size : ℕ} {stale : Stale} {s t : PcqState}

theorem consumer_frame (hstep : ConsumerStep crc32 stale s t) : t.put = s.put ∧ t.published = s.published := by
  cases hstep <;> exact ⟨rfl, rfl⟩

theorem producer_frame (hstep : ProducerStep crc32 s t) :
    t.get = s.get ∧ t.taken = s.taken ∧ t.delivered = s.delivered := by
  cases hstep <;> exact ⟨rfl, rfl, rfl⟩

theorem consumer_run_frame (hrun : ReflTransGen (ConsumerStep crc32 stale) s t) :
    t.put = s.put ∧ t.published = s.published := by
  refine Runs.invariant (P := fun t => t.put = s.put ∧ t.published = s.published) (fun a b h hstep => ?_) hrun ⟨rfl, rfl⟩
  obtain ⟨hput, hpub⟩ := consumer_frame hstep
  exact ⟨hput.trans h.1, hpub.trans h.2⟩

theorem producer_run_frame (hrun : ReflTransGen (ProducerStep crc32) s t) : t.get = s.get ∧ t.taken = s.taken := by
  refine Runs.invariant (P := fun t => t.get = s.get ∧ t.taken = s.taken) (fun a b h hstep => ?_) hrun ⟨rfl, rfl⟩
  obtain ⟨hget, htaken, -⟩ := producer_frame hstep
  exact ⟨hget.trans h.1, htaken.trans h.2⟩

theorem Meets.enabled (hmeets : Meets s) : ∃ t, ConsumerStep crc32 stale s t := by
  cases hmeets with
  | loadIndex hpc => exact ⟨_, .loadIndex hpc⟩
  | check hpc => exact ⟨_, .check hpc⟩
  | loadSeq hpc => exact ⟨_, .loadSeq hpc⟩
  | storeSeq hpc => exact ⟨_, .storeSeq hpc .memory⟩
  | @copy i seq retries view todo out hpc =>
    by_cases htodo : todo = ∅
    · subst htodo
      cases hcrc : pcqCrcGood crc32 s.pcq.bucketSize (entryBytes s.pcq.bucketSize out) with
      | true => exact ⟨_, .verdict hpc hcrc⟩
      | false =>
        cases retries with
        | zero => exact ⟨_, .badCrc hpc hcrc⟩
        | succ retries => exact ⟨_, .retry hpc hcrc .memory⟩
    · obtain ⟨j, hj⟩ := Finset.nonempty_iff_ne_empty.2 htodo
      exact ⟨_, .copyByte j hpc hj⟩
  | reloadIndex hpc => exact ⟨_, .reloadIndex hpc⟩
  | storeIndex hpc => exact ⟨_, .storeIndex hpc⟩
  | getGood hpc => exact ⟨_, .getGood hpc⟩

theorem Meets.step (hok : PcqOk crc32 n size s) (hok' : PcqOk crc32 n size t) (hmeets : Meets s)
    (hstep : ConsumerStep crc32 stale s t) :
    t.get.work size < s.get.work size ∧ (Delivers s t ∨ (Meets t ∧ t.delivered = s.delivered)) := by
  have hsize := hok.bucketSize
  cases hstep with
  | call hidle => cases hmeets <;> simp_all
  | loadIndex hpc =>
    have hwaits : s.taken.length < s.published.length := by cases hmeets <;> simp_all
    refine ⟨?_, Or.inr ⟨.check rfl hwaits, rfl⟩⟩
    rw [hpc]
    simp only [GetPc.work]
    omega
  | @check i hpc =>
    have hwaits : s.taken.length < s.published.length := by cases hmeets <;> simp_all
    have hi : i ≠ s.pcq.producerIndex := by
      have hget := hok.get
      rw [hpc] at hget
      cases hget with
      | check hseq hdel =>
        rw [hok.producerIndex]
        intro heq
        have hroom := hok.room
        have hseen := hok.seen
        have := (Ring.mod_eq_iff (le_of_lt hwaits) (by omega)).1 heq.symm
        omega
    rw [if_pos hi]
    refine ⟨?_, Or.inr ⟨.loadSeq rfl, rfl⟩⟩
    rw [hpc]
    simp only [GetPc.work]
    omega
  | again hpc => cases hmeets <;> simp_all
  | refused hpc => cases hmeets <;> simp_all
  | loadSeq hpc =>
    refine ⟨?_, Or.inr ⟨.storeSeq rfl, rfl⟩⟩
    rw [hpc]
    simp only [GetPc.work]
    omega
  | storeSeq hpc hview =>
    refine ⟨?_, Or.inr ⟨.copy rfl, rfl⟩⟩
    rw [hpc, hsize]
    simp only [GetPc.work, Finset.card_range, CONSUMER_NRETRIES]
    omega
  | copyByte j hpc hj =>
    refine ⟨?_, Or.inr ⟨.copy rfl, rfl⟩⟩
    rw [hpc]
    simp only [GetPc.work]
    have := Finset.card_erase_lt_of_mem hj
    omega
  | retry hpc hcrc hview =>
    refine ⟨?_, Or.inr ⟨.copy rfl, rfl⟩⟩
    rw [hpc, hsize]
    simp only [GetPc.work, Finset.card_range, Finset.card_empty, Nat.succ_mul]
    omega
  | badCrc hpc hcrc => cases hok'.get
  | @verdict i seq retries view out hpc hcrc =>
    by_cases hseq : pcqSeq s.pcq.bucketSize (entryBytes s.pcq.bucketSize out) ≠ seq
    · have hget := hok'.get
      rw [if_pos hseq] at hget
      cases hget
    · rw [if_neg hseq]
      refine ⟨?_, Or.inr ⟨.reloadIndex rfl, rfl⟩⟩
      rw [hpc]
      simp only [GetPc.work]
      omega
  | reloadIndex hpc =>
    refine ⟨?_, Or.inr ⟨.storeIndex rfl, rfl⟩⟩
    rw [hpc]
    simp only [GetPc.work]
    omega
  | storeIndex hpc =>
    refine ⟨?_, Or.inr ⟨.getGood rfl, rfl⟩⟩
    rw [hpc]
    simp only [GetPc.work]
    omega
  | @getGood out hpc =>
    have hget := hok.get
    rw [hpc] at hget
    cases hget with
    | getGood hseq hdel =>
      refine ⟨?_, Or.inl ⟨rfl, out.take (pcqPayloadSize size), ?_, ?_⟩⟩
      · rw [hpc]
        simp only [GetPc.work]
        omega
      · obtain ⟨r, hr⟩ := hok.taken
        rw [← hr, hdel, List.append_assoc, List.getElem?_append_right le_rfl, Nat.sub_self]
        rfl
      · rw [hsize]

theorem Meets.producer (hmeets : Meets s) (hstep : ProducerStep crc32 s t) : Meets t := by
  obtain ⟨hget, htaken, -⟩ := producer_frame hstep
  have hgrows : s.published.length ≤ t.published.length := by
    cases hstep <;> simp
  cases hmeets with
  | loadIndex hpc hwaits => exact .loadIndex (hget.trans hpc) (by rw [htaken]; omega)
  | check hpc hwaits => exact .check (hget.trans hpc) (by rw [htaken]; omega)
  | loadSeq hpc => exact .loadSeq (hget.trans hpc)
  | storeSeq hpc => exact .storeSeq (hget.trans hpc)
  | copy hpc => exact .copy (hget.trans hpc)
  | reloadIndex hpc => exact .reloadIndex (hget.trans hpc)
  | storeIndex hpc => exact .storeIndex (hget.trans hpc)
  | getGood hpc => exact .getGood (hget.trans hpc)

theorem put_copies {entry : List UInt8} {i : ℕ} {todo : Finset ℕ} (hpc : s.put = .copy entry i todo) :
    ∃ bucket, ReflTransGen (ProducerStep crc32) s { s with bucket := bucket, put := .copy entry i ∅ } := by
  induction todo using Finset.induction_on generalizing s with
  | empty =>
    refine ⟨s.bucket, ?_⟩
    rw [← hpc]
  | insert j todo hj ih =>
    have hstep : ProducerStep crc32 s _ := .copyByte j hpc (Finset.mem_insert_self j todo)
    rw [Finset.erase_insert hj] at hstep
    obtain ⟨bucket, hrun⟩ := @ih { s with bucket := _, put := .copy entry i todo } rfl
    exact ⟨bucket, .head hstep hrun⟩

end

section

variable {crc32 : Crc32} {n size : ℕ} (hn : 1 ≤ n) (hn64 : n < 2 ^ 64) (h16 : 16 ≤ size) {s : PcqState}

include hn hn64 h16

theorem put_returns (hok : PcqOk crc32 n size s) (hidle : s.put = .idle) {e : List UInt8} (hlen : e.length = size)
    (hroom : s.published.length + 1 < s.taken.length + n) :
    ∃ t, ReflTransGen (ProducerStep crc32) s t ∧ t.put = .idle ∧
      t.published = s.published ++ [e.take (pcqPayloadSize size)] ∧
      t.invalidated (s.published.length % n) = false := by
  have hseen : s.indexes[s.taken.length]? = some (s.taken.length % n) := by
    rw [hok.indexes, List.getElem?_map, List.getElem?_range (Nat.lt_succ_self _), Option.map_some]
  have hfree : u64 (s.pcq.producerIndex + 1) % s.pcq.nbuckets ≠ s.taken.length % n := by
    rw [hok.producerIndex, hok.nbuckets, next_index hn hn64]
    intro heq
    have hle := hok.le
    have := (Ring.mod_eq_iff (by omega) hroom).1 heq
    omega
  have hcall : ProducerStep crc32 s _ := .call e hidle (hlen.trans hok.bucketSize.symm)
  have hcheck : ProducerStep crc32 { s with put := .check e s.pcq.producerIndex } _ := .check _ _ rfl hok.seen hseen
  rw [if_pos hok.magic] at hcall
  rw [if_pos hfree] at hcheck
  have hstart : ReflTransGen (ProducerStep crc32) s _ :=
    (((ReflTransGen.single hcall).tail (.loadIndex rfl)).tail hcheck).tail (.loadSeq rfl) |>.tail (.storeSeq rfl)
  obtain ⟨bucket, hcopy⟩ := @put_copies crc32
    { s with seen := s.taken.length
             pcq := { s.pcq with nextSeq := u64 (s.pcq.nextSeq + 1) }
             put := .copy (pcqStamp crc32 s.pcq.bucketSize s.pcq.nextSeq e) s.pcq.producerIndex
               (Finset.range s.pcq.bucketSize) } _ _ _ rfl
  refine ⟨_, (hstart.trans hcopy) |>.tail (.flush rfl) |>.tail (.storeIndex rfl) |>.tail (.putGood rfl), rfl, ?_, ?_⟩
  · have hpay : pcqPayloadSize size ≤ e.length := by simp only [pcqPayloadSize]; omega
    simp only [hok.bucketSize, pcqStamp_payload crc32 _ hpay]
  · simp only [hok.producerIndex, Function.update_self]

variable {stale : Stale}
  (hstale : ∀ s b line, stale s b line →
    pcqCrcGood crc32 s.pcq.bucketSize (entryBytes s.pcq.bucketSize line) = false)

include hstale

theorem get_delivers (hok : PcqOk crc32 n size s) (hmeets : Meets s) :
    ∃ t u, ReflTransGen (ConsumerStep crc32 stale) s t ∧ t.delivered = s.delivered ∧
      ConsumerStep crc32 stale t u ∧ Delivers t u := by
  have hstep : ∀ t, PcqOk crc32 n size t ∧ Meets t ∧ t.delivered = s.delivered → ∃ u, ConsumerStep crc32 stale t u ∧
      (Delivers t u ∨ ((PcqOk crc32 n size u ∧ Meets u ∧ u.delivered = s.delivered) ∧
        u.get.work size < t.get.work size)) := by
    rintro t ⟨hokt, hmeetst, hsame⟩
    obtain ⟨u, hstep⟩ : ∃ u, ConsumerStep crc32 stale t u := hmeetst.enabled
    have hoku := pcqOk_consumer hn hn64 h16 hstale hokt hstep
    obtain ⟨hwork, hdel | ⟨hmeetsu, hsameu⟩⟩ := hmeetst.step hokt hoku hstep
    · exact ⟨u, hstep, Or.inl hdel⟩
    · exact ⟨u, hstep, Or.inr ⟨⟨hoku, hmeetsu, hsameu.trans hsame⟩, hwork⟩⟩
  obtain ⟨t, u, hrun, ⟨-, -, hsame⟩, hlast, hdel⟩ := Runs.reaches (fun t : PcqState => t.get.work size) hstep ⟨hok, hmeets, rfl⟩
  exact ⟨t, u, hrun, hsame, hlast, hdel⟩

theorem get_returns (hok : PcqOk crc32 n size s) (hidle : s.get = .idle)
    (hwaits : s.taken.length < s.published.length) :
    ∃ t, ReflTransGen (ConsumerStep crc32 stale) s t ∧ t.get = .idle ∧ t.delivered.length = s.delivered.length + 1 := by
  have hcall : ConsumerStep crc32 stale s _ := .call hidle
  rw [if_pos hok.magic] at hcall
  have hok1 := pcqOk_consumer hn hn64 h16 hstale hok hcall
  obtain ⟨t, u, hrun, hsame, hstep, hidle', m, -, hdel⟩ := get_delivers hn hn64 h16 hstale hok1 (.loadIndex rfl hwaits)
  refine ⟨u, .tail (.head hcall hrun) hstep, hidle', ?_⟩
  rw [hdel, hsame, List.length_append, List.length_singleton]

end

end Famfs

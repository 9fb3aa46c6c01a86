import Famfs.Proofs.PcqRuns

/-! A consumer whose cache is not coherent. It looks at the sequence number only after the
checksum was good, and does not try again then: old content that the checksum rejects is
read anew, but a complete message of an earlier lap ends the program. -/

namespace Famfs

open Machine Relation

def RejectedContent (crc32 : Crc32) : Stale := fun s b line =>
  EarlierContent crc32 s b line ∧ pcqCrcGood crc32 s.pcq.bucketSize (entryBytes s.pcq.bucketSize line) = false

section

variable {crc32 : Crc32} {n size : ℕ} {s0 s t : PcqState} {stale : Stale}

theorem get_copies {i seq retries : ℕ} {view : BucketView} {todo : Finset ℕ} {out : ℕ → UInt8}
    (hpc : s.get = .copy i seq retries view todo out) :
    ∃ out', ReflTransGen (ConsumerStep crc32 stale) s { s with get := .copy i seq retries view ∅ out' } ∧
      ∀ j, out' j = if j ∈ todo then s.loadByte i j view else out j := by
  induction todo using Finset.induction_on generalizing s out with
  | empty =>
    refine ⟨out, ?_, fun j => rfl⟩
    rw [← hpc]
  | insert j todo hj ih =>
    have hstep : ConsumerStep crc32 stale s _ := .copyByte j hpc (Finset.mem_insert_self j todo)
    rw [Finset.erase_insert hj] at hstep
    obtain ⟨out', hrun, hout⟩ := @ih { s with get := _ } _ rfl
    refine ⟨out', .head hstep hrun, fun b => ?_⟩
    rw [hout b]
    by_cases hbj : b = j
    · rw [hbj, if_neg hj, if_pos (Finset.mem_insert_self j todo), Function.update_self]
    · simp only [Finset.mem_insert, hbj, false_or, Function.update_of_ne hbj]
      cases view <;> rfl

theorem get_first_copy (crc32 : Crc32) (hmagic : s.magicGood = true) (hidle : s.get = .idle)
    (hwaits : s.pcqc.consumerIndex ≠ s.pcq.producerIndex) {view : BucketView}
    (hview : ∀ pc, Views stale { s with get := pc } s.pcqc.consumerIndex view) :
    ∃ out, ReflTransGen (ConsumerStep crc32 stale) s
        { s with pcqc := { s.pcqc with nextSeq := u64 (s.pcqc.nextSeq + 1) }
                 get := .copy s.pcqc.consumerIndex s.pcqc.nextSeq CONSUMER_NRETRIES view ∅ out } ∧
      ∀ j < s.pcq.bucketSize, out j = s.loadByte s.pcqc.consumerIndex j view := by
  have hcall : ConsumerStep crc32 stale s _ := .call hidle
  have hcheck : ConsumerStep crc32 stale { s with get := .check s.pcqc.consumerIndex } _ := .check rfl
  rw [if_pos hmagic] at hcall
  rw [if_pos hwaits] at hcheck
  have hstart : ReflTransGen (ConsumerStep crc32 stale) s _ :=
    (((ReflTransGen.single hcall).tail (.loadIndex rfl)).tail hcheck).tail (.loadSeq rfl)
      |>.tail (.storeSeq rfl (hview _))
  obtain ⟨out, hcopy, hout⟩ := @get_copies crc32
    { s with pcqc := { s.pcqc with nextSeq := u64 (s.pcqc.nextSeq + 1) }
             get := .copy s.pcqc.consumerIndex s.pcqc.nextSeq CONSUMER_NRETRIES view
               (Finset.range s.pcq.bucketSize) fun _ => 0 }
    stale _ _ _ _ _ _ rfl
  refine ⟨out, hstart.trans hcopy, fun j hj => ?_⟩
  rw [hout j, if_pos (Finset.mem_range.2 hj)]
  cases view <;> rfl

theorem wrong_seq_fatal (h16 : 16 ≤ size) (hsize : s.pcq.bucketSize = size) (hmagic : s.magicGood = true)
    (hidle : s.get = .idle) (hwaits : s.pcqc.consumerIndex ≠ s.pcq.producerIndex) {view : BucketView}
    (hview : ∀ pc, Views stale { s with get := pc } s.pcqc.consumerIndex view) {seq : ℕ} {m : List UInt8}
    (hpay : pcqPayloadSize size ≤ m.length) (hseq64 : seq < 2 ^ 64)
    (hbytes : HoldsEntry size (fun j => s.loadByte s.pcqc.consumerIndex j view) (pcqStamp crc32 size seq m))
    (hseq : seq ≠ s.pcqc.nextSeq) :
    ∃ t, ReflTransGen (ConsumerStep crc32 stale) s t ∧ t.get = .badMsg ∧ t.delivered = s.delivered := by
  obtain ⟨out, hcopy, hout⟩ := get_first_copy crc32 hmagic hidle hwaits hview
  have hentry : entryBytes size out = pcqStamp crc32 size seq m := by
    refine HoldsEntry.bytes (fun j hj => ?_) (pcqStamp_length crc32 _ hpay h16)
    rw [hout j (hsize ▸ hj), ← hbytes j hj]
  have hlast := hcopy.tail (.verdict rfl (by
    show pcqCrcGood crc32 s.pcq.bucketSize (entryBytes s.pcq.bucketSize out) = true
    rw [hsize, hentry]
    exact pcqCrcGood_stamp crc32 _ hpay h16))
  refine ⟨_, hlast, ?_, rfl⟩
  simp only [hsize, hentry, pcqSeq_stamp crc32 _ hpay hseq64, if_pos hseq]

theorem earlier_message_fatal (h16 : 16 ≤ size) (hok : PcqOk crc32 n size s) (hidle : s.get = .idle)
    (hlap : s.published.length < s.taken.length + n) (hwaits : s.taken.length < s.published.length)
    (hinv : s.invalidated (s.taken.length % n) = false) {k : ℕ} (hk : k < s.taken.length)
    (hb : k % n = s.taken.length % n) (hseq : u64 k ≠ u64 s.taken.length) :
    ∃ t, ReflTransGen (ConsumerStep crc32 (EarlierContent crc32)) s t ∧ t.get = .badMsg ∧ t.delivered = s.delivered := by
  have hkp : k < s.published.length := by omega
  obtain ⟨m, hm⟩ : ∃ m, s.published[k]? = some m := ⟨_, List.getElem?_eq_getElem hkp⟩
  have hnext : s.pcqc.nextSeq = u64 s.taken.length := by
    have hget := hok.get
    rw [hidle] at hget
    cases hget with
    | idle hseq hdel => exact hseq
  have hother : s.pcqc.consumerIndex ≠ s.pcq.producerIndex := by
    rw [hok.consumerIndex, hok.producerIndex]
    intro heq
    have := (Ring.mod_eq_iff hwaits.le hlap).1 heq.symm
    omega
  have hline : ∀ pc, EarlierContent crc32 { s with get := pc } s.pcqc.consumerIndex
      fun j => (pcqStamp crc32 size (u64 k) m).getD j 0 := fun pc =>
    .message hk (by rw [hok.nbuckets, hb, hok.consumerIndex]) hm fun j _ => by rw [hok.bucketSize]
  exact wrong_seq_fatal h16 hok.bucketSize hok.magic hidle hother
    (fun pc => .cache (by rw [hok.consumerIndex]; exact hinv) (hline pc))
    (hok.payload m (List.mem_of_getElem? hm)).ge (u64_lt k) (fun j _ => rfl) (by rw [hnext]; exact hseq)

theorem rejected_delivers (hn : 1 ≤ n) (hn64 : n < 2 ^ 64) (h16 : 16 ≤ size) (hok : PcqOk crc32 n size s)
    (hmeets : Meets s) {run : ℕ → PcqState} (hstart : run 0 = s)
    (hsteps : ∀ i, PcqStep crc32 (RejectedContent crc32) (run i) (run (i + 1)))
    (hfair : ∀ i, ∃ j ≥ i, ConsumerStep crc32 (RejectedContent crc32) (run j) (run (j + 1))) :
    ∃ j, (run j).delivered = s.delivered ∧ Delivers (run j) (run (j + 1)) := by
  subst hstart
  have hmine : ∀ a b, PcqOk crc32 n size a ∧ Meets a ∧ a.delivered = (run 0).delivered →
      ConsumerStep crc32 (RejectedContent crc32) a b → Delivers a b ∨
        ((PcqOk crc32 n size b ∧ Meets b ∧ b.delivered = (run 0).delivered) ∧ b.get.work size < a.get.work size) := by
    rintro a b ⟨hoka, hmeetsa, hsame⟩ hstep
    have hokb := pcqOk_consumer hn hn64 h16 (fun _ _ _ h => h.2) hoka hstep
    obtain ⟨hwork, hdel | ⟨hmeetsb, hsameb⟩⟩ := hmeetsa.step hoka hokb hstep
    · exact Or.inl hdel
    · exact Or.inr ⟨⟨hokb, hmeetsb, hsameb.trans hsame⟩, hwork⟩
  have htheirs : ∀ a b, PcqOk crc32 n size a ∧ Meets a ∧ a.delivered = (run 0).delivered → ProducerStep crc32 a b →
      (PcqOk crc32 n size b ∧ Meets b ∧ b.delivered = (run 0).delivered) ∧ b.get.work size ≤ a.get.work size := by
    rintro a b ⟨hoka, hmeetsa, hsame⟩ hstep
    obtain ⟨hget, -, hdel⟩ := producer_frame hstep
    exact ⟨⟨pcqOk_producer hn hn64 h16 hoka hstep, hmeetsa.producer hstep, hdel.trans hsame⟩, by rw [hget]⟩
  have hboth : ∀ i, ConsumerStep crc32 (RejectedContent crc32) (run i) (run (i + 1)) ∨
      ProducerStep crc32 (run i) (run (i + 1)) := by
    intro i
    cases hsteps i with
    | producer h => exact Or.inr h
    | consumer h => exact Or.inl h
  obtain ⟨j, -, ⟨-, -, hsame⟩, hgoal⟩ := Runs.leads_to (fun t : PcqState => t.get.work size) hmine htheirs hboth hfair
    (i := 0) ⟨hok, hmeets, rfl⟩
  exact ⟨j, hsame, hgoal⟩

theorem stale_cache_tolerated (hn : 1 ≤ n) (hn64 : n < 2 ^ 64) (h16 : 16 ≤ size) (hinit : PcqInit n size s0)
    (hrun : ReflTransGen (PcqStep crc32 (RejectedContent crc32)) s0 s) :
    s.get ≠ .badMsg ∧ s.delivered <+: s.puts ∧
      (s.get = .idle → s.delivered.length < s.puts.length → ∀ t, ConsumerStep crc32 (RejectedContent crc32) s t →
        Meets t ∧ t.delivered = s.delivered) ∧
      (Meets s →
        (∃ t u, ReflTransGen (ConsumerStep crc32 (RejectedContent crc32)) s t ∧ t.delivered = s.delivered ∧
          ConsumerStep crc32 (RejectedContent crc32) t u ∧ Delivers t u) ∧
        ∀ run : ℕ → PcqState, run 0 = s → (∀ i, PcqStep crc32 (RejectedContent crc32) (run i) (run (i + 1))) →
          (∀ i, ∃ j ≥ i, ConsumerStep crc32 (RejectedContent crc32) (run j) (run (j + 1))) →
          ∃ j, (run j).delivered = s.delivered ∧ Delivers (run j) (run (j + 1))) := by
  have hok : PcqOk crc32 n size s := pcqOk_run hn hn64 h16 (fun _ _ _ h => h.2) (pcqOk_init hinit) hrun
  rw [hok.puts]
  refine ⟨hok.get_ne_badMsg, hok.delivered_prefix, fun hidle hwaits t hstep => ?_, fun hmeets =>
    ⟨get_delivers hn hn64 h16 (fun _ _ _ h => h.2) hok hmeets, fun run hstart hsteps hfair =>
      rejected_delivers hn hn64 h16 hok hmeets hstart hsteps hfair⟩⟩
  rw [hok.delivered_idle hidle] at hwaits
  cases hstep with
  | call => exact ⟨.loadIndex (if_pos hok.magic) hwaits, rfl⟩
  | loadIndex hpc | check hpc | again hpc | refused hpc | loadSeq hpc | storeSeq hpc | copyByte _ hpc | retry hpc
  | badCrc hpc | verdict hpc | reloadIndex hpc | storeIndex hpc | getGood hpc =>
    rw [hidle] at hpc
    cases hpc

/-- The consumer finds zeroes in its cache where message 0 lies in memory. -/
theorem stale_cache_tolerated_zeroes :
    ∃ s out, ReflTransGen (PcqStep Crc32.update (RejectedContent Crc32.update)) smallQueue s ∧
      s.get = .copy 0 0 CONSUMER_NRETRIES (.cache fun _ => 0) ∅ out ∧ (∀ j < 32, out j = 0) ∧ s.published.length = 1 ∧
      s.get ≠ .badMsg ∧ ∃ t u, t.delivered = s.delivered ∧ Delivers t u := by
  have hok0 : PcqOk Crc32.update 2 32 smallQueue := pcqOk_init smallQueue_init
  obtain ⟨s, hputs, -, hpub, hinv⟩ := put_returns (by norm_num) (by norm_num) (by norm_num) hok0 rfl
    (List.length_replicate (n := 32) (a := 7)) (by decide)
  obtain ⟨hget, htaken⟩ := producer_run_frame hputs
  have hrun : ReflTransGen (PcqStep Crc32.update (RejectedContent Crc32.update)) smallQueue s :=
    ReflTransGen.mono (fun _ _ h => .producer h) _ _ hputs
  have hok := pcqOk_run (by norm_num) (by norm_num) (by norm_num) (fun _ _ _ h => h.2) hok0 hrun
  have hfirst : s.pcqc.consumerIndex = 0 := by rw [hok.consumerIndex, htaken]; rfl
  have hnext : s.pcqc.nextSeq = 0 := by
    have hseq := hok.get
    rw [hget] at hseq
    cases hseq with
    | idle hseq hdel => rw [hseq, htaken]; rfl
  have hwaits : s.pcqc.consumerIndex ≠ s.pcq.producerIndex := by
    rw [hfirst, hok.producerIndex, hpub]
    decide
  have hbad : pcqCrcGood Crc32.update s.pcq.bucketSize (entryBytes s.pcq.bucketSize fun _ => 0) = false := by
    rw [hok.bucketSize]
    decide +kernel
  have hview : ∀ pc, Views (RejectedContent Crc32.update) { s with get := pc } s.pcqc.consumerIndex (.cache fun _ => 0) :=
    fun pc => .cache (by rw [hfirst]; exact hinv) ⟨.mixture hbad, hbad⟩
  obtain ⟨out, hcopy, hout⟩ := get_first_copy Crc32.update hok.magic hget hwaits hview
  have hstale := hrun.trans (ReflTransGen.mono (fun _ _ h => .consumer h) _ _ hcopy)
  obtain ⟨hgood, -, -, hdel⟩ :=
    stale_cache_tolerated (by norm_num) (by norm_num) (by norm_num) smallQueue_init hstale
  obtain ⟨⟨t, u, -, hsame, -, hlast⟩, -⟩ := hdel (.copy rfl)
  refine ⟨_, out, hstale, by rw [hfirst, hnext], fun j hj => hout j (hok.bucketSize ▸ hj), ?_, hgood, t, u, hsame, hlast⟩
  show s.published.length = 1
  rw [hpub]
  rfl

/-- Message 0 is still in the cache when message 2 lies in its bucket. -/
theorem earlier_lap_fatal :
    PcqInit 2 32 smallQueue ∧ ∃ s, ReflTransGen (PcqStep Crc32.update (EarlierContent Crc32.update)) smallQueue s ∧
      s.published.length = 3 ∧ s.delivered.length = 2 ∧ s.get = .badMsg := by
  have hok0 : PcqOk Crc32.update 2 32 smallQueue := pcqOk_init smallQueue_init
  have hlen : (List.replicate 32 (7 : UInt8)).length = 32 := List.length_replicate
  obtain ⟨a, hruna, hoka, hputa, hgeta, hpuba, hemptya⟩ :=
    exchange (by norm_num) (by norm_num) (by norm_num) hok0 rfl rfl rfl hlen
  obtain ⟨b, hrunb, hokb, hputb, hgetb, hpubb, hemptyb⟩ :=
    exchange (by norm_num) (by norm_num) (by norm_num) hoka hputa hgeta hemptya hlen
  have htwo : b.published.length = 2 := by rw [hpubb, hpuba]; rfl
  obtain ⟨c, hputs, hputc, hpubc, hinv⟩ := put_returns (by norm_num) (by norm_num) (by norm_num) hokb hputb hlen (by omega)
  rw [htwo] at hinv
  obtain ⟨hgetc, htakenc⟩ := producer_run_frame hputs
  have hrunc : ReflTransGen (PcqStep Crc32.update coherent) smallQueue c :=
    (hruna.trans hrunb).trans (ReflTransGen.mono (fun _ _ h => .producer h) _ _ hputs)
  have hokc := pcqOk_coherent (by norm_num) (by norm_num) (by norm_num) hok0 hrunc
  have hthree : c.published.length = 3 := by rw [hpubc, List.length_append, htwo]; rfl
  have htaken : c.taken.length = 2 := by rw [htakenc, ← hemptyb, htwo]
  obtain ⟨t, hgets, hbad, hdel⟩ := earlier_message_fatal (by norm_num) hokc (hgetc.trans hgetb) (by omega) (by omega)
    (by rw [htaken]; exact hinv) (show 0 < c.taken.length by omega) (by rw [htaken]) (by rw [htaken]; decide)
  refine ⟨smallQueue_init, t, (coherent_run hrunc).trans (ReflTransGen.mono (fun _ _ h => .consumer h) _ _ hgets),
    ?_, ?_, hbad⟩
  · rw [(consumer_run_frame hgets).2, hthree]
  · rw [hdel, hokc.delivered_idle (hgetc.trans hgetb), htaken]

end

end Famfs

import Famfs.Proofs.PcqStale

/-! Processes that stop inside a call and are started again. Each party keeps its place in
two shared words, an index and a sequence number, and stores the second first: one that
stops between the two stores leaves words that disagree, and `pcq_open` does not look.
Stops at any other place lose nothing. -/

namespace Famfs

open Machine Relation

/-- The producer has stored `next_seq` for a message and not yet its index. -/
def PutPc.midway : PutPc → Bool
  | .copy _ _ _ | .storeIndex _ _ => true
  | _ => false

/-- The consumer has stored `next_seq` for a message and not yet its index. -/
def GetPc.midway : GetPc → Bool
  | .copy _ _ _ _ _ _ | .reloadIndex _ | .storeIndex _ _ | .badMsg => true
  | _ => false

structure CleanStep (crc32 : Crc32) (stale : Stale) (p q : PcqPair) : Prop where
  step : PairStep crc32 stale p q
  producer : p.producer = true → q.producer = false → p.queue.put.midway = false
  consumer : p.consumer = true → q.consumer = false → p.queue.get.midway = false

/-- The same queue with another record of which calls came back. -/
def PcqState.retold (s : PcqState) (acc del : List (List UInt8)) : PcqState :=
  { s with accepted := acc, delivered := del }

/-- Old content of any kind that the checksum rejects. -/
def AnyRejected (crc32 : Crc32) : Stale := fun s _ line =>
  pcqCrcGood crc32 s.pcq.bucketSize (entryBytes s.pcq.bucketSize line) = false

section

variable {crc32 : Crc32} {stale : Stale} {s t : PcqState}

theorem ProducerStep.retold (hstep : ProducerStep crc32 s t) (acc del : List (List UInt8)) :
    ∃ new, t.accepted = s.accepted ++ new ∧ t.delivered = s.delivered ∧
      ProducerStep crc32 (s.retold acc del) (t.retold (acc ++ new) del) := by
  have hsilent : t.accepted = s.accepted → t.delivered = s.delivered →
      ProducerStep crc32 (s.retold acc del) (t.retold acc del) →
      ∃ new, t.accepted = s.accepted ++ new ∧ t.delivered = s.delivered ∧
        ProducerStep crc32 (s.retold acc del) (t.retold (acc ++ new) del) := fun hacc hdel h =>
    ⟨[], by rw [hacc, List.append_nil], hdel, by rw [List.append_nil]; exact h⟩
  cases hstep with
  | call entry hidle hlen => exact hsilent rfl rfl (.call entry hidle hlen)
  | loadIndex hpc => exact hsilent rfl rfl (.loadIndex hpc)
  | check k v hpc hk hv => exact hsilent rfl rfl (.check k v hpc hk hv)
  | again hpc => exact hsilent rfl rfl (.again hpc)
  | refused hpc => exact hsilent rfl rfl (.refused hpc)
  | loadSeq hpc => exact hsilent rfl rfl (.loadSeq hpc)
  | storeSeq hpc => exact hsilent rfl rfl (.storeSeq hpc)
  | copyByte j hpc hj => exact hsilent rfl rfl (.copyByte j hpc hj)
  | flush hpc => exact hsilent rfl rfl (.flush hpc)
  | storeIndex hpc => exact hsilent rfl rfl (.storeIndex hpc)
  | putGood hpc => exact ⟨_, rfl, rfl, .putGood hpc⟩

theorem ConsumerStep.retold
    (hsame : ∀ s b line acc del, stale s b line → stale (s.retold acc del) b line)
    (hstep : ConsumerStep crc32 stale s t) (acc del : List (List UInt8)) :
    ∃ new, t.delivered = s.delivered ++ new ∧ t.accepted = s.accepted ∧
      ConsumerStep crc32 stale (s.retold acc del) (t.retold acc (del ++ new)) := by
  have hsilent : t.delivered = s.delivered → t.accepted = s.accepted →
      ConsumerStep crc32 stale (s.retold acc del) (t.retold acc del) →
      ∃ new, t.delivered = s.delivered ++ new ∧ t.accepted = s.accepted ∧
        ConsumerStep crc32 stale (s.retold acc del) (t.retold acc (del ++ new)) := fun hdel hacc h =>
    ⟨[], by rw [hdel, List.append_nil], hacc, by rw [List.append_nil]; exact h⟩
  have hviews : ∀ {s : PcqState} {b : ℕ} {view : BucketView}, Views stale s b view →
      Views stale (s.retold acc del) b view := by
    intro s b view hview
    cases hview with
    | memory => exact .memory
    | cache hinv hline => exact .cache hinv (hsame _ _ _ _ _ hline)
  cases hstep with
  | call hidle => exact hsilent rfl rfl (.call hidle)
  | loadIndex hpc => exact hsilent rfl rfl (.loadIndex hpc)
  | check hpc => exact hsilent rfl rfl (.check hpc)
  | again hpc => exact hsilent rfl rfl (.again hpc)
  | refused hpc => exact hsilent rfl rfl (.refused hpc)
  | loadSeq hpc => exact hsilent rfl rfl (.loadSeq hpc)
  | storeSeq hpc hview => exact hsilent rfl rfl (.storeSeq hpc (hviews hview))
  | copyByte j hpc hj =>
    refine hsilent rfl rfl ?_
    have hcopy : ConsumerStep crc32 stale (s.retold acc del) _ := .copyByte j hpc hj
    have hload : ∀ b view, (s.retold acc del).loadByte b j view = s.loadByte b j view := by
      intro b view
      cases view <;> rfl
    rw [hload] at hcopy
    exact hcopy
  | retry hpc hcrc hview => exact hsilent rfl rfl (.retry hpc hcrc (hviews hview))
  | badCrc hpc hcrc => exact hsilent rfl rfl (.badCrc hpc hcrc)
  | verdict hpc hcrc => exact hsilent rfl rfl (.verdict hpc hcrc)
  | reloadIndex hpc => exact hsilent rfl rfl (.reloadIndex hpc)
  | storeIndex hpc => exact hsilent rfl rfl (.storeIndex hpc)
  | getGood hpc => exact ⟨_, rfl, rfl, .getGood hpc⟩

theorem consumer_run_retold (hrun : ReflTransGen (ConsumerStep crc32 coherent) s t) (acc del : List (List UInt8)) :
    ∃ new, t.delivered = s.delivered ++ new ∧
      ReflTransGen (ConsumerStep crc32 coherent) (s.retold acc del) (t.retold acc (del ++ new)) := by
  induction hrun with
  | refl => exact ⟨[], by rw [List.append_nil], by rw [List.append_nil]⟩
  | tail _ hstep ih =>
    obtain ⟨old, hold, hrun⟩ := ih
    obtain ⟨new, hnew, -, hlast⟩ := hstep.retold (fun _ _ _ _ _ h => h) acc (del ++ old)
    refine ⟨old ++ new, by rw [hnew, hold, List.append_assoc], ?_⟩
    rw [← List.append_assoc]
    exact hrun.tail hlast

end

section

variable {crc32 : Crc32} {n size : ℕ} {s t : PcqState}

/-- The queue is in order, if a call that was cut after its last store is counted as one
that came back. -/
structure Restartable (crc32 : Crc32) (n size : ℕ) (s : PcqState) : Prop where
  told : ∃ acc del, PcqOk crc32 n size (s.retold acc del) ∧ s.accepted.Sublist acc ∧ s.delivered.Sublist del
  putSeq : ∀ e i seq, s.put = .storeSeq e i seq → s.pcq.nextSeq = seq
  getSeq : ∀ i seq, s.get = .storeSeq i seq → s.pcqc.nextSeq = seq

theorem PcqOk.accepted_published (hok : PcqOk crc32 n size s) : s.accepted.Sublist s.published := by
  rw [← hok.puts, PcqState.puts]
  split
  · exact List.sublist_append_left _ _
  · exact List.Sublist.refl _

theorem PcqOk.delivered_taken (hok : PcqOk crc32 n size s) : s.delivered.Sublist s.taken := by
  rw [← hok.gets]
  exact (delivered_prefix_gets s).sublist

theorem Restartable.put_seq (h : Restartable crc32 n size s) (hmid : s.put.midway = false) :
    s.pcq.nextSeq = u64 s.published.length := by
  obtain ⟨acc, del, hok, -, -⟩ := h.told
  have hput : PutOk crc32 n size s.published acc s.seen s.pcq.nextSeq s.bucket s.put := hok.put
  have hstore := h.putSeq
  generalize s.put = pc at hput hmid hstore
  cases hput with
  | idle hseq _ | loadIndex _ hseq _ | check _ hseq _ | full _ hseq _ | loadSeq _ hseq _ _ | putGood hseq _ => exact hseq
  | storeSeq => exact hstore _ _ _ rfl
  | copy | storeIndex => cases hmid

theorem Restartable.get_seq (h : Restartable crc32 n size s) (hmid : s.get.midway = false) :
    s.pcqc.nextSeq = u64 s.taken.length := by
  obtain ⟨acc, del, hok, -, -⟩ := h.told
  have hget : GetOk crc32 n size s.published s.taken del s.pcqc.nextSeq s.get := hok.get
  have hstore := h.getSeq
  generalize s.get = pc at hget hmid hstore
  cases hget with
  | idle hseq _ | loadIndex hseq _ | check hseq _ | empty hseq _ | loadSeq _ hseq _ | getGood hseq _ => exact hseq
  | storeSeq => exact hstore _ _ rfl
  | memory | cache | reloadIndex | storeIndex => cases hmid

theorem u64_mod {k : ℕ} (h : k < 2 ^ 64 ∨ n ∣ 2 ^ 64) : u64 k % n = k % n := by
  rcases h with hk | hdvd
  · rw [u64_of_lt hk]
  · exact Nat.mod_mod_of_dvd k hdvd

theorem Restartable.put_agrees_iff (h : Restartable crc32 n size s)
    (hwrap : s.published.length + 1 < 2 ^ 64 ∨ n ∣ 2 ^ 64) :
    s.pcq.producerIndex = s.pcq.nextSeq % n ↔ s.put.midway = false := by
  have hwrap' : s.published.length < 2 ^ 64 ∨ n ∣ 2 ^ 64 := hwrap.imp_left fun h => by omega
  obtain ⟨acc, del, hok, -, -⟩ := h.told
  have hindex : s.pcq.producerIndex = s.published.length % n := hok.producerIndex
  constructor
  · intro heq
    have hput : PutOk crc32 n size s.published acc s.seen s.pcq.nextSeq s.bucket s.put := hok.put
    have hseen : s.seen ≤ s.published.length := hok.seen.trans hok.le
    generalize s.put = pc at hput
    cases hput with
    | idle | loadIndex | check | full | loadSeq | storeSeq | putGood => rfl
    | copy _ hseq _ hroom _ | storeIndex _ hseq _ hroom _ =>
      rw [hindex, hseq, u64_mod hwrap] at heq
      exact absurd heq (Ring.succ_mod_ne (by omega))
  · intro hmid
    rw [hindex, h.put_seq hmid, u64_mod hwrap']

theorem Restartable.get_agrees_iff (h : Restartable crc32 n size s)
    (hwrap : s.taken.length + 1 < 2 ^ 64 ∨ n ∣ 2 ^ 64) :
    s.pcqc.consumerIndex = s.pcqc.nextSeq % n ↔ s.get.midway = false := by
  have hwrap' : s.taken.length < 2 ^ 64 ∨ n ∣ 2 ^ 64 := hwrap.imp_left fun h => by omega
  obtain ⟨acc, del, hok, -, -⟩ := h.told
  have hindex : s.pcqc.consumerIndex = s.taken.length % n := hok.consumerIndex
  constructor
  · intro heq
    have hget : GetOk crc32 n size s.published s.taken del s.pcqc.nextSeq s.get := hok.get
    have hroom : s.published.length ≤ s.taken.length + (n - 1) := hok.room.trans (Nat.add_le_add_right hok.seen _)
    generalize s.get = pc at hget
    cases hget with
    | idle | loadIndex | check | empty | loadSeq | storeSeq | getGood => rfl
    | memory hm hseq _ _ | cache hm hseq _ _ _ | reloadIndex hm hseq _ | storeIndex hm hseq _ =>
      have hwaits := (List.getElem?_eq_some_iff.1 hm).1
      rw [hindex, hseq, u64_mod hwrap] at heq
      exact absurd heq (Ring.succ_mod_ne (by omega))
  · intro hmid
    rw [hindex, h.get_seq hmid, u64_mod hwrap']

theorem Restartable.stopProducer (h : Restartable crc32 n size s) (hmid : s.put.midway = false) :
    Restartable crc32 n size { s with put := .idle } := by
  have hseq := h.put_seq hmid
  obtain ⟨acc, del, hok, hacc, hdel⟩ := h.told
  refine ⟨⟨s.published, del, ?_, hacc.trans hok.accepted_published, hdel⟩, fun e i seq hpc => (by cases hpc), h.getSeq⟩
  exact hok.withProducer (.idle hseq rfl)

theorem Restartable.stopConsumer (h : Restartable crc32 n size s) (hmid : s.get.midway = false) :
    Restartable crc32 n size { s with get := .idle } := by
  have hseq := h.get_seq hmid
  obtain ⟨acc, del, hok, hacc, hdel⟩ := h.told
  refine ⟨⟨acc, s.taken, ?_, hacc, hdel.trans hok.delivered_taken⟩, h.putSeq, fun i seq hpc => (by cases hpc)⟩
  exact hok.withConsumer (.idle hseq rfl)

section

variable (hn : 1 ≤ n) (hn64 : n < 2 ^ 64) (h16 : 16 ≤ size)

include hn hn64 h16

theorem Restartable.producer (h : Restartable crc32 n size s) (hstep : ProducerStep crc32 s t) :
    Restartable crc32 n size t := by
  obtain ⟨acc, del, hok, hacc, hdel⟩ := h.told
  obtain ⟨new, hnew, hsame, hretold⟩ := hstep.retold acc del
  refine ⟨⟨acc ++ new, del, pcqOk_producer hn hn64 h16 hok hretold, ?_, ?_⟩, ?_, ?_⟩
  · rw [hnew]
    exact List.Sublist.append hacc (List.Sublist.refl new)
  · rw [hsame]
    exact hdel
  · intro e i seq hpc
    cases hstep with
    | loadSeq => cases hpc; rfl
    | call | check =>
      dsimp only at hpc
      split_ifs at hpc
    | _ => cases hpc
  · have hget : t.get = s.get ∧ t.pcqc = s.pcqc := by cases hstep <;> exact ⟨rfl, rfl⟩
    rw [hget.1, hget.2]
    exact h.getSeq

theorem Restartable.consumer (h : Restartable crc32 n size s) (hstep : ConsumerStep crc32 (AnyRejected crc32) s t) :
    Restartable crc32 n size t := by
  obtain ⟨acc, del, hok, hacc, hdel⟩ := h.told
  obtain ⟨new, hnew, hsame, hretold⟩ := hstep.retold (fun _ _ _ _ _ h => h) acc del
  refine ⟨⟨acc, del ++ new, pcqOk_consumer hn hn64 h16 (fun _ _ _ h => h) hok hretold, ?_, ?_⟩, ?_, ?_⟩
  · rw [hsame]
    exact hacc
  · rw [hnew]
    exact List.Sublist.append hdel (List.Sublist.refl new)
  · have hput : t.put = s.put ∧ t.pcq = s.pcq := by cases hstep <;> exact ⟨rfl, rfl⟩
    rw [hput.1, hput.2]
    exact h.putSeq
  · intro i seq hpc
    cases hstep with
    | loadSeq => cases hpc; rfl
    | call | check | verdict =>
      dsimp only at hpc
      split_ifs at hpc
    | _ => cases hpc

theorem Restartable.step {stale : Stale} {p q : PcqPair}
    (hstale : ∀ s b line, stale s b line →
      pcqCrcGood crc32 s.pcq.bucketSize (entryBytes s.pcq.bucketSize line) = false)
    (h : Restartable crc32 n size p.queue) (hstep : CleanStep crc32 stale p q) : Restartable crc32 n size q.queue := by
  have hproducer := hstep.producer
  have hconsumer := hstep.consumer
  cases hstep.step with
  | producer _ hput => exact h.producer hn hn64 h16 hput
  | consumer _ hget => exact h.consumer hn hn64 h16 (hget.mono hstale)
  | stopProducer hup => exact h.stopProducer (hproducer hup rfl)
  | stopConsumer hup => exact h.stopConsumer (hconsumer hup rfl)
  | openProducer | openConsumer => exact h

theorem Restartable.delivers {stale : Stale} (h : Restartable crc32 n size s) (hidle : s.get = .idle)
    (hwaits : s.taken.length < s.published.length) :
    ∃ t m, ReflTransGen (ConsumerStep crc32 stale) s t ∧ t.get = .idle ∧ s.published[s.taken.length]? = some m ∧
      t.delivered = s.delivered ++ [m] := by
  obtain ⟨acc, del, hok, -, -⟩ := h.told
  have hcall : ConsumerStep crc32 coherent (s.retold acc del) _ := .call hidle
  rw [if_pos hok.magic] at hcall
  have hnone : ∀ s b line, coherent s b line →
      pcqCrcGood crc32 s.pcq.bucketSize (entryBytes s.pcq.bucketSize line) = false := fun _ _ _ hline => hline.elim
  have hok1 := pcqOk_consumer hn hn64 h16 hnone hok hcall
  obtain ⟨t, u, hrun, hsame, hlast, hdone, m, hm, hdel⟩ :=
    get_delivers hn hn64 h16 hnone hok1 (.loadIndex rfl hwaits)
  have hstart : del = s.taken := hok.delivered_idle hidle
  obtain ⟨new, hnew, hback⟩ := consumer_run_retold (ReflTransGen.tail (.head hcall hrun) hlast) s.accepted s.delivered
  have hnewm : new = [m] := by
    have heq : del ++ new = del ++ [m] := by
      rw [← show u.delivered = del ++ new from hnew, hdel, hsame]
      rfl
    exact List.append_cancel_left heq
  refine ⟨u.retold s.accepted (s.delivered ++ new), m, ?_, hdone, ?_, by rw [hnewm]; rfl⟩
  · exact ReflTransGen.mono (fun _ _ h => h.mono fun _ _ _ hline => hline.elim) _ _ hback
  · have hpub : t.published = s.published := (consumer_run_frame hrun).2
    have hplace : t.delivered = s.taken := hsame.trans hstart
    rw [← hpub, ← hplace]
    exact hm

end

end

section

variable {crc32 : Crc32} {n size : ℕ} {stale : Stale} {p p0 : PcqPair}

theorem restartable_run (hn : 1 ≤ n) (hn64 : n < 2 ^ 64) (h16 : 16 ≤ size)
    (hstale : ∀ s b line, stale s b line →
      pcqCrcGood crc32 s.pcq.bucketSize (entryBytes s.pcq.bucketSize line) = false)
    (hinit : PcqInit n size p0.queue) (hrun : ReflTransGen (CleanStep crc32 stale) p0 p) :
    Restartable crc32 n size p.queue := by
  refine Runs.invariant (P := fun p : PcqPair => Restartable crc32 n size p.queue)
    (fun a b h hstep => h.step hn hn64 h16 hstale hstep) hrun ?_
  refine ⟨⟨_, _, pcqOk_init hinit, List.Sublist.refl _, List.Sublist.refl _⟩, fun e i seq hpc => ?_, fun i seq hpc => ?_⟩
  · rw [hinit.put] at hpc
    cases hpc
  · rw [hinit.get] at hpc
    cases hpc

theorem queue_survives_restarts (hn : 1 ≤ n) (hn64 : n < 2 ^ 64) (h16 : 16 ≤ size)
    (hstale : ∀ s b line, stale s b line →
      pcqCrcGood crc32 s.pcq.bucketSize (entryBytes s.pcq.bucketSize line) = false)
    (hinit : PcqInit n size p0.queue) (hrun : ReflTransGen (CleanStep crc32 stale) p0 p) :
    p.queue.get ≠ .badMsg ∧ p.queue.taken <+: p.queue.published ∧
      p.queue.accepted.Sublist p.queue.published ∧ p.queue.delivered.Sublist p.queue.taken ∧
      (p.queue.get = .idle → p.queue.taken.length < p.queue.published.length →
        ∃ t m, ReflTransGen (ConsumerStep crc32 stale) p.queue t ∧ t.get = .idle ∧
          p.queue.published[p.queue.taken.length]? = some m ∧ t.delivered = p.queue.delivered ++ [m]) ∧
      (p.queue.published.length + 1 < 2 ^ 64 ∨ n ∣ 2 ^ 64 →
        (p.queue.pcq.producerIndex = p.queue.pcq.nextSeq % n ↔ p.queue.put.midway = false)) ∧
      (p.queue.taken.length + 1 < 2 ^ 64 ∨ n ∣ 2 ^ 64 →
        (p.queue.pcqc.consumerIndex = p.queue.pcqc.nextSeq % n ↔ p.queue.get.midway = false)) := by
  have h : Restartable crc32 n size p.queue := restartable_run hn hn64 h16 hstale hinit hrun
  obtain ⟨acc, del, hok, hacc, hdel⟩ := h.told
  refine ⟨hok.get_ne_badMsg, hok.taken, hacc.trans hok.accepted_published, hdel.trans hok.delivered_taken,
    fun hidle hwaits => h.delivers hn hn64 h16 hidle hwaits, h.put_agrees_iff, h.get_agrees_iff⟩

/-- The producer is stopped after its first load, and started again. -/
theorem queue_survives_restarts_put :
    ∃ p, ReflTransGen (CleanStep Crc32.update coherent) ⟨smallQueue, true, true⟩ p ∧ p.producer = true ∧
      p.queue.put = .idle ∧ p.queue.get ≠ .badMsg ∧ p.queue.pcq.producerIndex = p.queue.pcq.nextSeq % 2 := by
  have hcall : ProducerStep Crc32.update smallQueue { smallQueue with put := .loadIndex (List.replicate 32 7) } :=
    .call (List.replicate 32 7) rfl List.length_replicate
  have hbegin : CleanStep Crc32.update coherent ⟨smallQueue, true, true⟩
      ⟨{ smallQueue with put := .loadIndex (List.replicate 32 7) }, true, true⟩ :=
    ⟨.producer rfl hcall, fun _ => Bool.noConfusion, fun _ => Bool.noConfusion⟩
  have hstop : CleanStep Crc32.update coherent
      ⟨{ smallQueue with put := .loadIndex (List.replicate 32 7) }, true, true⟩ ⟨smallQueue, false, true⟩ :=
    ⟨.stopProducer rfl, fun _ _ => rfl, fun _ => Bool.noConfusion⟩
  have hopen : CleanStep Crc32.update coherent ⟨smallQueue, false, true⟩ ⟨smallQueue, true, true⟩ :=
    ⟨.openProducer rfl, Bool.noConfusion, fun _ => Bool.noConfusion⟩
  have hrun := ((ReflTransGen.single hbegin).tail hstop).tail hopen
  obtain ⟨hgood, -, -, -, -, hindex, -⟩ :=
    queue_survives_restarts (by norm_num) (by norm_num) (by norm_num) (fun _ _ _ h => h.elim) smallQueue_init hrun
  exact ⟨_, hrun, rfl, rfl, hgood, (hindex (Or.inl (by norm_num [smallQueue]))).2 rfl⟩

theorem producer_pair_run {s t : PcqState} (hrun : ReflTransGen (ProducerStep crc32) s t) (consumer : Bool) :
    ReflTransGen (PairStep crc32 stale) ⟨s, true, consumer⟩ ⟨t, true, consumer⟩ := by
  induction hrun with
  | refl => exact .refl
  | tail _ hstep ih => exact ih.tail (.producer rfl hstep)

theorem consumer_pair_run {s t : PcqState} (hrun : ReflTransGen (ConsumerStep crc32 stale) s t) (producer : Bool) :
    ReflTransGen (PairStep crc32 stale) ⟨s, producer, true⟩ ⟨t, producer, true⟩ := by
  induction hrun with
  | refl => exact .refl
  | tail _ hstep ih => exact ih.tail (.consumer rfl hstep)

theorem cut_get {s : PcqState} (hmagic : s.magicGood = true) (hidle : s.get = .idle)
    (hwaits : s.pcqc.consumerIndex ≠ s.pcq.producerIndex) (producer : Bool) :
    ReflTransGen (PairStep crc32 stale) ⟨s, producer, true⟩
      ⟨{ s with pcqc := { s.pcqc with nextSeq := u64 (s.pcqc.nextSeq + 1) }, get := .idle }, producer, false⟩ := by
  have hcall : ConsumerStep crc32 stale s _ := .call hidle
  rw [if_pos hmagic] at hcall
  have hcheck : ConsumerStep crc32 stale { s with get := .check s.pcqc.consumerIndex } _ := .check rfl
  rw [if_pos hwaits] at hcheck
  have hgets : ReflTransGen (ConsumerStep crc32 stale) s _ :=
    (((ReflTransGen.single hcall).tail (.loadIndex rfl)).tail hcheck).tail (.loadSeq rfl)
      |>.tail (.storeSeq rfl .memory)
  exact (consumer_pair_run hgets producer).tail (.stopConsumer rfl)

/-- A consumer that is stopped right after its store of `next_seq` finds the message it was
at, intact and with the wrong number. -/
theorem cut_get_fatal :
    PcqInit 2 32 smallQueue ∧ ∃ p q,
      ReflTransGen (PairStep Crc32.update coherent) ⟨smallQueue, true, true⟩ p ∧ p.queue.accepted.length = 1 ∧
      p.queue.get = .idle ∧ p.queue.pcqc.consumerIndex ≠ p.queue.pcqc.nextSeq % 2 ∧
      pcqCrcGood Crc32.update 32 (entryBytes 32 (p.queue.bucket p.queue.pcqc.consumerIndex)) = true ∧
      ReflTransGen (PairStep Crc32.update coherent) p q ∧ q.queue.get = .badMsg ∧ q.queue.delivered = [] := by
  have hok0 : PcqOk Crc32.update 2 32 smallQueue := pcqOk_init smallQueue_init
  obtain ⟨s, hputs, hput, hpub, -⟩ := put_returns (by norm_num) (by norm_num) (by norm_num) hok0 rfl
    (List.length_replicate (n := 32) (a := 7)) (by decide)
  obtain ⟨hget, htaken⟩ := producer_run_frame hputs
  have hidle : s.get = .idle := hget.trans rfl
  have hok := pcqOk_coherent (by norm_num) (by norm_num) (by norm_num) hok0
    (ReflTransGen.mono (fun _ _ h => .producer h) _ _ hputs)
  have hone : s.published.length = 1 := by rw [hpub]; rfl
  have hnone : s.taken = [] := htaken.trans rfl
  have hindex : s.pcqc.consumerIndex = 0 := by rw [hok.consumerIndex, hnone]; rfl
  have hwaits : s.pcqc.consumerIndex ≠ s.pcq.producerIndex := by
    rw [hindex, hok.producerIndex, hone]
    decide
  have hseq : s.pcqc.nextSeq = 0 := by
    have hget := hok.get
    rw [hidle] at hget
    cases hget with
    | idle hseq hdel => rw [hseq, hnone]; rfl
  obtain ⟨m, hm⟩ : ∃ m, s.published[0]? = some m := ⟨_, List.getElem?_eq_getElem (by omega)⟩
  have hlen : pcqPayloadSize 32 ≤ m.length := (hok.payload m (List.mem_of_getElem? hm)).ge
  have hholds : HoldsEntry 32 (s.bucket 0) (pcqStamp Crc32.update 32 0 m) :=
    hok.bucket 0 m hm (by rw [hnone]; exact Nat.zero_le _)
  have hcut : ReflTransGen (PairStep Crc32.update coherent) ⟨s, true, true⟩ _ := cut_get hok.magic hidle hwaits true
  rw [hseq] at hcut
  obtain ⟨t, hfatal, hbad, hdel⟩ :=
    @wrong_seq_fatal Crc32.update 32 { s with pcqc := { s.pcqc with nextSeq := 1 }, get := .idle } coherent
      (by norm_num) hok.bucketSize hok.magic rfl hwaits .memory (fun _ => .memory) 0 m hlen (by norm_num)
      (by rw [hindex]; exact hholds) (by norm_num)
  refine ⟨smallQueue_init, _, ⟨t, true, true⟩, (producer_pair_run hputs true).trans hcut, ?_, rfl, ?_, ?_,
    .head (.openConsumer rfl) (consumer_pair_run hfatal true), hbad, ?_⟩
  · rw [← hone, ← hok.accepted_idle hput]
  · show s.pcqc.consumerIndex ≠ 1 % 2
    rw [hindex]
    decide
  · show pcqCrcGood Crc32.update 32 (entryBytes 32 (s.bucket s.pcqc.consumerIndex)) = true
    rw [hindex, hholds.bytes (pcqStamp_length _ _ hlen (by norm_num))]
    exact pcqCrcGood_stamp _ _ hlen (by norm_num)
  · rw [hdel]
    exact (hok.delivered_idle hidle).trans hnone

end

end Famfs

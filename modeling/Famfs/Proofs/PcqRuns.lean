import Famfs.Lib.Crc32
import Famfs.Sanity.PcqCalls

/-! The queue over all interleavings: what was taken out is a prefix of what was put in,
with coherent memory and with a cache whose old content the checksum rejects. -/

namespace Famfs

open Machine Relation

/-- What the producer has put in: the calls that came back with `PCQ_PUT_GOOD`, and one
that has only its return left. -/
def PcqState.puts (s : PcqState) : List (List UInt8) :=
  match s.put with
  | .putGood entry => s.accepted ++ [entry.take (pcqPayloadSize s.pcq.bucketSize)]
  | _ => s.accepted

/-- What the consumer has got out: the calls that came back with `PCQ_GET_GOOD`, and one
that has only its return left. -/
def PcqState.gets (s : PcqState) : List (List UInt8) :=
  match s.get with
  | .getGood entryOut => s.delivered ++ [entryOut.take (pcqPayloadSize s.pcq.bucketSize)]
  | _ => s.delivered

section

variable {crc32 : Crc32} {n size : ℕ} {s t : PcqState}

theorem pcqOk_init (hinit : PcqInit n size s) : PcqOk crc32 n size s := by
  have hcreated := hinit.created
  simp only [pcqCreate] at hcreated
  split_ifs at hcreated
  simp only [Option.some.injEq, Prod.mk.injEq] at hcreated
  obtain ⟨hpcq, hpcqc⟩ := hcreated
  have hpub := hinit.published
  have htaken := hinit.taken
  refine ⟨by rw [← hpcq], by rw [← hpcq], ?_, ?_, ?_, ?_, ?_, ?_, ?_, ?_, ?_, ?_, ?_⟩
  · simp only [PcqState.magicGood, ← hpcq, ← hpcqc, and_self, decide_true]
  · rw [hpub, ← hpcq, List.length_nil, Nat.zero_mod]
  · rw [htaken, ← hpcqc, List.length_nil, Nat.zero_mod]
  · rw [hinit.indexes, htaken, ← hpcqc]
    simp
  · rw [hinit.seen]
    exact Nat.zero_le _
  · rw [hpub]
    exact Nat.zero_le _
  · rw [htaken]
    exact List.nil_prefix
  · simp [hpub]
  · simp [hpub]
  · rw [hinit.put]
    exact .idle (by rw [hpub, ← hpcq]; rfl) (by rw [hpub, hinit.accepted])
  · rw [hinit.get]
    exact .idle (by rw [htaken, ← hpcqc]; rfl) (by rw [htaken, hinit.delivered])

theorem PcqOk.puts (hok : PcqOk crc32 n size s) : s.puts = s.published := by
  have hput := hok.put
  simp only [PcqState.puts, hok.bucketSize]
  generalize s.put = pc at hput
  cases hput with
  | putGood hseq hacc => exact hacc.symm
  | idle _ hacc | loadIndex _ _ hacc | check _ _ hacc | full _ _ hacc | loadSeq _ _ hacc _ | storeSeq _ hacc _
  | copy _ _ hacc _ _ | storeIndex _ _ hacc _ _ => exact hacc

theorem PcqOk.gets (hok : PcqOk crc32 n size s) : s.gets = s.taken := by
  have hget := hok.get
  simp only [PcqState.gets, hok.bucketSize]
  generalize s.get = pc at hget
  cases hget with
  | getGood _ hdel => exact hdel.symm
  | idle _ hdel | loadIndex _ hdel | check _ hdel | empty _ hdel | loadSeq _ _ hdel | storeSeq _ hdel
  | memory _ _ hdel _ | cache _ _ hdel _ _ | reloadIndex _ _ hdel | storeIndex _ _ hdel => exact hdel

theorem PcqOk.accepted_idle (hok : PcqOk crc32 n size s) (hidle : s.put = .idle) : s.accepted = s.published := by
  rw [← hok.puts, PcqState.puts, hidle]

theorem PcqOk.delivered_idle (hok : PcqOk crc32 n size s) (hidle : s.get = .idle) : s.delivered = s.taken := by
  rw [← hok.gets, PcqState.gets, hidle]

theorem delivered_prefix_gets (s : PcqState) : s.delivered <+: s.gets := by
  simp only [PcqState.gets]
  split
  · exact List.prefix_append _ _
  · exact List.prefix_rfl

theorem PcqOk.nmessages (hn : 1 ≤ n) (hn64 : n < 2 ^ 64) (hok : PcqOk crc32 n size s) :
    pcqNmessages s.pcq s.pcqc = s.published.length - s.taken.length := by
  have hle := hok.le
  have hseen := hok.seen
  have hroom := hok.room
  have hlap : s.published.length < s.taken.length + n := by omega
  have hdist := Ring.distance hn hle hlap
  have hp := Nat.mod_lt s.published.length hn
  have hc := Nat.mod_lt s.taken.length hn
  simp only [pcqNmessages, hok.producerIndex, hok.consumerIndex, hok.nbuckets]
  split_ifs with heq hwrap
  · rw [(Ring.mod_eq_iff hle hlap).1 heq, Nat.sub_self]
  · rw [if_pos hwrap] at hdist
    rw [← hdist]
    simp only [sub64, u64]
    omega
  · rw [if_neg hwrap] at hdist
    rw [← hdist, sub64_of_le (by omega) (by omega)]

theorem PcqOk.delivered_prefix (hok : PcqOk crc32 n size s) : s.delivered <+: s.published :=
  (delivered_prefix_gets s).trans (hok.gets ▸ hok.taken)

theorem PcqOk.get_ne_badMsg (hok : PcqOk crc32 n size s) : s.get ≠ .badMsg := by
  intro hbad
  have hget := hok.get
  rw [hbad] at hget
  cases hget

theorem PcqOk.copy_free (hok : PcqOk crc32 n size s) {entry : List UInt8} {i k : ℕ} {todo : Finset ℕ}
    (hpc : s.put = .copy entry i todo) (hk : s.taken.length ≤ k) (hkp : k < s.published.length) : k % n ≠ i := by
  have hput := hok.put
  rw [hpc] at hput
  cases hput with
  | copy hlen hseq hacc hroom hcopied => exact hok.next_free hroom hk hkp

theorem ConsumerStep.mono {stale stale' : Stale} (h : ∀ s b line, stale s b line → stale' s b line)
    (hstep : ConsumerStep crc32 stale s t) : ConsumerStep crc32 stale' s t := by
  have hviews : ∀ {s : PcqState} {b : ℕ} {view : BucketView}, Views stale s b view → Views stale' s b view := by
    intro s b view hview
    cases hview with
    | memory => exact .memory
    | cache hinv hline => exact .cache hinv (h _ _ _ hline)
  cases hstep with
  | call hidle => exact .call hidle
  | loadIndex hpc => exact .loadIndex hpc
  | check hpc => exact .check hpc
  | again hpc => exact .again hpc
  | refused hpc => exact .refused hpc
  | loadSeq hpc => exact .loadSeq hpc
  | storeSeq hpc hview => exact .storeSeq hpc (hviews hview)
  | copyByte j hpc hj => exact .copyByte j hpc hj
  | retry hpc hcrc hview => exact .retry hpc hcrc (hviews hview)
  | badCrc hpc hcrc => exact .badCrc hpc hcrc
  | verdict hpc hcrc => exact .verdict hpc hcrc
  | reloadIndex hpc => exact .reloadIndex hpc
  | storeIndex hpc => exact .storeIndex hpc
  | getGood hpc => exact .getGood hpc

theorem coherent_run {stale : Stale} (hrun : ReflTransGen (PcqStep crc32 coherent) s t) :
    ReflTransGen (PcqStep crc32 stale) s t := by
  refine ReflTransGen.mono (fun a b hstep => ?_) _ _ hrun
  cases hstep with
  | producer hstep => exact .producer hstep
  | consumer hstep => exact .consumer (hstep.mono fun _ _ _ hline => hline.elim)

end

section

variable {crc32 : Crc32} {n size : ℕ} {s0 s : PcqState}

theorem pcqOk_run {stale : Stale} (hn : 1 ≤ n) (hn64 : n < 2 ^ 64) (h16 : 16 ≤ size)
    (hstale : ∀ s b line, stale s b line →
      pcqCrcGood crc32 s.pcq.bucketSize (entryBytes s.pcq.bucketSize line) = false)
    (hok : PcqOk crc32 n size s0) (hrun : ReflTransGen (PcqStep crc32 stale) s0 s) : PcqOk crc32 n size s := by
  refine Runs.invariant (P := PcqOk crc32 n size) (fun a b hok hstep => ?_) hrun hok
  cases hstep with
  | producer hstep => exact pcqOk_producer hn hn64 h16 hok hstep
  | consumer hstep => exact pcqOk_consumer hn hn64 h16 hstale hok hstep

theorem pcqOk_coherent (hn : 1 ≤ n) (hn64 : n < 2 ^ 64) (h16 : 16 ≤ size) (hok : PcqOk crc32 n size s0)
    (hrun : ReflTransGen (PcqStep crc32 coherent) s0 s) : PcqOk crc32 n size s :=
  pcqOk_run hn hn64 h16 (fun _ _ _ hline => hline.elim) hok hrun

theorem exchange (hn : 2 ≤ n) (hn64 : n < 2 ^ 64) (h16 : 16 ≤ size) (hok : PcqOk crc32 n size s)
    (hput : s.put = .idle) (hget : s.get = .idle) (hempty : s.published.length = s.taken.length) {e : List UInt8}
    (hlen : e.length = size) :
    ∃ t, ReflTransGen (PcqStep crc32 coherent) s t ∧ PcqOk crc32 n size t ∧ t.put = .idle ∧ t.get = .idle ∧
      t.published = s.published ++ [e.take (pcqPayloadSize size)] ∧ t.published.length = t.taken.length := by
  obtain ⟨t, hputs, hidle, hpub, -⟩ := put_returns (by omega) hn64 h16 hok hput hlen (by omega)
  obtain ⟨hgett, htakent⟩ := producer_run_frame hputs
  have hrun : ReflTransGen (PcqStep crc32 coherent) s t := ReflTransGen.mono (fun _ _ h => .producer h) _ _ hputs
  have hokt := pcqOk_coherent (by omega) hn64 h16 hok hrun
  have hmore : t.published.length = t.taken.length + 1 := by
    rw [hpub, htakent, List.length_append, List.length_singleton, hempty]
  obtain ⟨u, hgets, hidle', hlast⟩ : ∃ u, ReflTransGen (ConsumerStep crc32 coherent) t u ∧ u.get = .idle ∧
      u.delivered.length = t.delivered.length + 1 :=
    get_returns (by omega) hn64 h16 (fun _ _ _ h => h.elim) hokt (hgett.trans hget) (by omega)
  obtain ⟨hputu, hpubu⟩ := consumer_run_frame hgets
  have hrun' : ReflTransGen (PcqStep crc32 coherent) s u :=
    hrun.trans (ReflTransGen.mono (fun _ _ h => .consumer h) _ _ hgets)
  have hoku := pcqOk_coherent (by omega) hn64 h16 hok hrun'
  refine ⟨u, hrun', hoku, hputu.trans hidle, hidle', hpubu.trans hpub, ?_⟩
  rw [← hoku.delivered_idle hidle', hlast, hokt.delivered_idle (hgett.trans hget), ← hmore, hpubu]

theorem queue_fifo (hn : 1 ≤ n) (hn64 : n < 2 ^ 64) (h16 : 16 ≤ size) (hinit : PcqInit n size s0)
    (hrun : ReflTransGen (PcqStep crc32 coherent) s0 s) :
    s.delivered <+: s.puts ∧
      (∀ entry i todo, s.put = .copy entry i todo → ∀ k, s.gets.length ≤ k → k < s.puts.length → k % n ≠ i) ∧
      s.get ≠ .badMsg ∧
      (s.put = .idle → s.get = .idle →
        s.delivered <+: s.accepted ∧ pcqNmessages s.pcq s.pcqc = s.accepted.length - s.delivered.length ∧
          s.accepted.length - s.delivered.length ≤ n - 1) := by
  have hok : PcqOk crc32 n size s := pcqOk_coherent hn hn64 h16 (pcqOk_init hinit) hrun
  rw [hok.puts, hok.gets]
  refine ⟨hok.delivered_prefix, fun entry i todo hpc k hk hkp => hok.copy_free hpc hk hkp, hok.get_ne_badMsg,
    fun hput hget => ?_⟩
  have hseen := hok.seen
  have hroom := hok.room
  rw [hok.accepted_idle hput, hok.delivered_idle hget]
  exact ⟨hok.taken, hok.nmessages hn hn64, by omega⟩

def smallQueue : PcqState :=
  ⟨⟨PCQ_MAGIC, 2, 32, 2 * 1024 * 1024, 0, 0⟩, ⟨PCQ_CONSUMER_MAGIC, 0, 0⟩, fun _ _ => 0, fun _ => false, .idle, .idle,
    [0], 0, [], [], [], []⟩

theorem smallQueue_init : PcqInit 2 32 smallQueue :=
  ⟨rfl, fun _ => rfl, rfl, rfl, rfl, rfl, rfl, rfl, rfl, rfl⟩

theorem queue_fifo_exchange :
    ∃ s, PcqInit 2 32 smallQueue ∧ ReflTransGen (PcqStep Crc32.update coherent) smallQueue s ∧ s.accepted.length = 1 ∧
      s.delivered <+: s.accepted ∧ s.delivered.length = 1 ∧ pcqNmessages s.pcq s.pcqc = 0 := by
  have hok : PcqOk Crc32.update 2 32 smallQueue := pcqOk_init smallQueue_init
  obtain ⟨s, hrun, hoks, hput, hget, hpub, hempty⟩ :=
    exchange (by norm_num) (by norm_num) (by norm_num) hok rfl rfl rfl (List.length_replicate (n := 32) (a := 7))
  obtain ⟨-, -, -, hidle⟩ := queue_fifo (by norm_num) (by norm_num) (by norm_num) smallQueue_init hrun
  obtain ⟨hfifo, hcount, -⟩ := hidle hput hget
  have hone : s.published.length = 1 := by rw [hpub]; rfl
  have hacc := hoks.accepted_idle hput
  have hdel := hoks.delivered_idle hget
  refine ⟨s, smallQueue_init, hrun, by rw [hacc, hone], hfifo, by rw [hdel, ← hempty, hone], ?_⟩
  rw [hcount, hacc, hdel, hempty, Nat.sub_self]

end

end Famfs

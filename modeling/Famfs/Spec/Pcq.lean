import Famfs.Lib.Records
import Famfs.Spec.Log

/-! The producer/consumer queue of `pcq_lib.c`: a ring of buckets in shared memory. A
step below is one load or store of a shared word, one byte of a bucket, or one cache
operation, of one of the two parties. A load of `consumer_index` by the producer may be
old, and the consumer may find a bucket in its cache. `published`, `taken`, `accepted`
and `delivered` are not in memory: they record the payloads at the stores of the two
indices and at the returns of the two calls. -/

namespace Famfs

open Machine Records

def PCQ_MAGIC : ℕ := 0xBEEBEE3
def PCQ_CONSUMER_MAGIC : ℕ := 0xBEEBEE4
def CONSUMER_NRETRIES : ℕ := 2

structure Pcq where
  pcqMagic : ℕ
  nbuckets : ℕ
  bucketSize : ℕ
  bucketArrayOffset : ℕ
  producerIndex : ℕ
  nextSeq : ℕ
deriving DecidableEq

structure PcqConsumer where
  pcqConsumerMagic : ℕ
  consumerIndex : ℕ
  nextSeq : ℕ
deriving DecidableEq

/-- What a creation whose two files are new writes into them. -/
def pcqCreate (nbuckets bucketSize : ℕ) : Option (Pcq × PcqConsumer) :=
  if bucketSize &&& sub64 bucketSize 1 ≠ 0 then none
  else some (⟨PCQ_MAGIC, nbuckets, bucketSize, 2 * 1024 * 1024, 0, 0⟩, ⟨PCQ_CONSUMER_MAGIC, 0, 0⟩)

def pcqNmessages (pcq : Pcq) (pcqc : PcqConsumer) : ℕ :=
  let pidx := pcq.producerIndex
  let cidx := pcqc.consumerIndex
  if pidx = cidx then 0
  else sub64 (if pidx < cidx then u64 (pidx + pcq.nbuckets) else pidx) cidx

/-! Entries. The last 16 bytes of a bucket are the sequence number and the checksum. -/

def pcqCrcOffset (bucketSize : ℕ) : ℕ := bucketSize - 8

def pcqSeqOffset (bucketSize : ℕ) : ℕ := pcqCrcOffset bucketSize - 8

def pcqPayloadSize (bucketSize : ℕ) : ℕ := bucketSize - 8 - 8

section

variable (crc32 : Crc32)

/-- The entry with its sequence number and checksum set. -/
def pcqStamp (bucketSize seq : ℕ) (entry : List UInt8) : List UInt8 :=
  let sealed := entry.take (pcqPayloadSize bucketSize) ++ leBytes 8 seq
  sealed ++ leBytes 8 (crc32 0 sealed)

def pcqCrcGood (bucketSize : ℕ) (entry : List UInt8) : Bool :=
  u64 (crc32 0 (entry.take (pcqCrcOffset bucketSize))) = leNat (cut entry (pcqCrcOffset bucketSize) 8)

def pcqSeq (bucketSize : ℕ) (entry : List UInt8) : ℕ := leNat (cut entry (pcqSeqOffset bucketSize) 8)

end

/-- Where the producer is in `pcq_producer_put`. `todo` are the bytes that `memcpy` has
not stored yet. -/
inductive PutPc where
  | idle
  | loadIndex (entry : List UInt8)
  | check (entry : List UInt8) (putIndex : ℕ)
  | full (entry : List UInt8)
  | loadSeq (entry : List UInt8) (putIndex : ℕ)
  | storeSeq (entry : List UInt8) (putIndex seq : ℕ)
  | copy (entry : List UInt8) (putIndex : ℕ) (todo : Finset ℕ)
  | storeIndex (entry : List UInt8) (putIndex : ℕ)
  | putGood (entry : List UInt8)
  | aborted

/-- Where the bytes of a bucket come from. -/
inductive BucketView where
  | memory
  | cache (line : ℕ → UInt8)

/-- Where the consumer is in `pcq_consumer_get`. `entryOut` is a function while `memcpy`
fills it. -/
inductive GetPc where
  | idle
  | loadIndex
  | check (getIndex : ℕ)
  | empty
  | loadSeq (getIndex : ℕ)
  | storeSeq (getIndex seqExpect : ℕ)
  | copy (getIndex seqExpect retries : ℕ) (view : BucketView) (todo : Finset ℕ) (entryOut : ℕ → UInt8)
  | reloadIndex (entryOut : List UInt8)
  | storeIndex (entryOut : List UInt8) (index : ℕ)
  | getGood (entryOut : List UInt8)
  | badMsg
  | aborted

structure PcqState where
  pcq : Pcq
  pcqc : PcqConsumer
  bucket : ℕ → ℕ → UInt8
  /-- Buckets that the consumer invalidated after the producer flushed them last. -/
  invalidated : ℕ → Bool
  put : PutPc
  get : GetPc
  /-- All values of `consumer_index` so far, and which of them the producer saw last. -/
  indexes : List ℕ
  seen : ℕ
  published : List (List UInt8)
  accepted : List (List UInt8)
  taken : List (List UInt8)
  delivered : List (List UInt8)

def PcqState.magicGood (s : PcqState) : Bool :=
  s.pcq.pcqMagic = PCQ_MAGIC ∧ s.pcqc.pcqConsumerMagic = PCQ_CONSUMER_MAGIC

/-- Buckets hold anything at first. -/
structure PcqInit (nbuckets bucketSize : ℕ) (s : PcqState) : Prop where
  created : pcqCreate nbuckets bucketSize = some (s.pcq, s.pcqc)
  invalidated : ∀ b, s.invalidated b = false
  put : s.put = .idle
  get : s.get = .idle
  indexes : s.indexes = [s.pcqc.consumerIndex]
  seen : s.seen = 0
  published : s.published = []
  accepted : s.accepted = []
  taken : s.taken = []
  delivered : s.delivered = []

/-- A queue that looks full is looked at again, or the call ends with `PCQ_PUT_STOPPED`
or `PCQ_PUT_FULL_NOWAIT`; which of these is up to the flags of the caller. The load of
`consumer_index` sees the value it saw last or a later one. -/
inductive ProducerStep (crc32 : Crc32) (s : PcqState) : PcqState → Prop
  | call (entry : List UInt8) (hidle : s.put = .idle) (hlen : entry.length = s.pcq.bucketSize) :
      ProducerStep crc32 s { s with put := if s.magicGood then .loadIndex entry else .aborted }
  | loadIndex {entry : List UInt8} (hpc : s.put = .loadIndex entry) :
      ProducerStep crc32 s { s with put := .check entry s.pcq.producerIndex }
  | check {entry : List UInt8} {i : ℕ} (k v : ℕ) (hpc : s.put = .check entry i) (hk : s.seen ≤ k)
      (hv : s.indexes[k]? = some v) :
      ProducerStep crc32 s
        { s with seen := k
                 put := if u64 (i + 1) % s.pcq.nbuckets ≠ v then .loadSeq entry i else .full entry }
  | again {entry : List UInt8} (hpc : s.put = .full entry) :
      ProducerStep crc32 s { s with put := .loadIndex entry }
  | refused {entry : List UInt8} (hpc : s.put = .full entry) : ProducerStep crc32 s { s with put := .idle }
  | loadSeq {entry : List UInt8} {i : ℕ} (hpc : s.put = .loadSeq entry i) :
      ProducerStep crc32 s { s with put := .storeSeq entry i s.pcq.nextSeq }
  | storeSeq {entry : List UInt8} {i seq : ℕ} (hpc : s.put = .storeSeq entry i seq) :
      ProducerStep crc32 s
        { s with pcq := { s.pcq with nextSeq := u64 (seq + 1) }
                 put := .copy (pcqStamp crc32 s.pcq.bucketSize seq entry) i (Finset.range s.pcq.bucketSize) }
  | copyByte {entry : List UInt8} {i : ℕ} {todo : Finset ℕ} (j : ℕ) (hpc : s.put = .copy entry i todo)
      (hj : j ∈ todo) :
      ProducerStep crc32 s
        { s with bucket := Function.update s.bucket i (Function.update (s.bucket i) j (entry.getD j 0))
                 put := .copy entry i (todo.erase j) }
  | flush {entry : List UInt8} {i : ℕ} (hpc : s.put = .copy entry i ∅) :
      ProducerStep crc32 s
        { s with invalidated := Function.update s.invalidated i false, put := .storeIndex entry i }
  | storeIndex {entry : List UInt8} {i : ℕ} (hpc : s.put = .storeIndex entry i) :
      ProducerStep crc32 s
        { s with pcq := { s.pcq with producerIndex := u64 (i + 1) % s.pcq.nbuckets }
                 published := s.published ++ [entry.take (pcqPayloadSize s.pcq.bucketSize)]
                 put := .putGood entry }
  | putGood {entry : List UInt8} (hpc : s.put = .putGood entry) :
      ProducerStep crc32 s
        { s with accepted := s.accepted ++ [entry.take (pcqPayloadSize s.pcq.bucketSize)], put := .idle }

/-- What the consumer can find in its cache for a bucket. -/
abbrev Stale := PcqState → ℕ → (ℕ → UInt8) → Prop

/-- A bucket that was invalidated is read from memory. -/
inductive Views (stale : Stale) (s : PcqState) (b : ℕ) : BucketView → Prop
  | memory : Views stale s b .memory
  | cache {line : ℕ → UInt8} (hinv : s.invalidated b = false) (hstale : stale s b line) :
      Views stale s b (.cache line)

def PcqState.loadByte (s : PcqState) (b j : ℕ) : BucketView → UInt8
  | .memory => s.bucket b j
  | .cache line => line j

/-- The whole buffer, once `memcpy` is done. -/
def entryBytes (bucketSize : ℕ) (entryOut : ℕ → UInt8) : List UInt8 := (List.range bucketSize).map entryOut

/-- A queue that looks empty is looked at again, or the call ends with `PCQ_GET_STOPPED`
or `PCQ_GET_EMPTY`. -/
inductive ConsumerStep (crc32 : Crc32) (stale : Stale) (s : PcqState) : PcqState → Prop
  | call (hidle : s.get = .idle) :
      ConsumerStep crc32 stale s { s with get := if s.magicGood then .loadIndex else .aborted }
  | loadIndex (hpc : s.get = .loadIndex) :
      ConsumerStep crc32 stale s { s with get := .check s.pcqc.consumerIndex }
  | check {i : ℕ} (hpc : s.get = .check i) :
      ConsumerStep crc32 stale s { s with get := if i ≠ s.pcq.producerIndex then .loadSeq i else .empty }
  | again (hpc : s.get = .empty) : ConsumerStep crc32 stale s { s with get := .loadIndex }
  | refused (hpc : s.get = .empty) : ConsumerStep crc32 stale s { s with get := .idle }
  | loadSeq {i : ℕ} (hpc : s.get = .loadSeq i) :
      ConsumerStep crc32 stale s { s with get := .storeSeq i s.pcqc.nextSeq }
  | storeSeq {i seq : ℕ} {view : BucketView} (hpc : s.get = .storeSeq i seq) (hview : Views stale s i view) :
      ConsumerStep crc32 stale s
        { s with pcqc := { s.pcqc with nextSeq := u64 (seq + 1) }
                 get := .copy i seq CONSUMER_NRETRIES view (Finset.range s.pcq.bucketSize) fun _ => 0 }
  | copyByte {i seq retries : ℕ} {view : BucketView} {todo : Finset ℕ} {out : ℕ → UInt8} (j : ℕ)
      (hpc : s.get = .copy i seq retries view todo out) (hj : j ∈ todo) :
      ConsumerStep crc32 stale s
        { s with get := .copy i seq retries view (todo.erase j) (Function.update out j (s.loadByte i j view)) }
  | retry {i seq retries : ℕ} {view next : BucketView} {out : ℕ → UInt8}
      (hpc : s.get = .copy i seq (retries + 1) view ∅ out)
      (hcrc : pcqCrcGood crc32 s.pcq.bucketSize (entryBytes s.pcq.bucketSize out) = false)
      (hview : Views stale { s with invalidated := Function.update s.invalidated i true } i next) :
      ConsumerStep crc32 stale s
        { s with invalidated := Function.update s.invalidated i true
                 get := .copy i seq retries next (Finset.range s.pcq.bucketSize) out }
  | badCrc {i seq : ℕ} {view : BucketView} {out : ℕ → UInt8} (hpc : s.get = .copy i seq 0 view ∅ out)
      (hcrc : pcqCrcGood crc32 s.pcq.bucketSize (entryBytes s.pcq.bucketSize out) = false) :
      ConsumerStep crc32 stale s { s with get := .badMsg }
  | verdict {i seq retries : ℕ} {view : BucketView} {out : ℕ → UInt8}
      (hpc : s.get = .copy i seq retries view ∅ out)
      (hcrc : pcqCrcGood crc32 s.pcq.bucketSize (entryBytes s.pcq.bucketSize out) = true) :
      ConsumerStep crc32 stale s
        { s with get := if pcqSeq s.pcq.bucketSize (entryBytes s.pcq.bucketSize out) ≠ seq then .badMsg
                        else .reloadIndex (entryBytes s.pcq.bucketSize out) }
  | reloadIndex {out : List UInt8} (hpc : s.get = .reloadIndex out) :
      ConsumerStep crc32 stale s { s with get := .storeIndex out s.pcqc.consumerIndex }
  | storeIndex {out : List UInt8} {i : ℕ} (hpc : s.get = .storeIndex out i) :
      ConsumerStep crc32 stale s
        { s with pcqc := { s.pcqc with consumerIndex := u64 (i + 1) % s.pcq.nbuckets }
                 indexes := s.indexes ++ [u64 (i + 1) % s.pcq.nbuckets]
                 taken := s.taken ++ [out.take (pcqPayloadSize s.pcq.bucketSize)]
                 get := .getGood out }
  | getGood {out : List UInt8} (hpc : s.get = .getGood out) :
      ConsumerStep crc32 stale s
        { s with delivered := s.delivered ++ [out.take (pcqPayloadSize s.pcq.bucketSize)], get := .idle }

inductive PcqStep (crc32 : Crc32) (stale : Stale) (s t : PcqState) : Prop
  | producer (h : ProducerStep crc32 s t)
  | consumer (h : ConsumerStep crc32 stale s t)

/-- Coherent memory. -/
def coherent : Stale := fun _ _ _ => False

/-- Anything a bucket held before: zeroes, the message of an earlier lap, or a mixture
that the checksum does not accept. -/
inductive EarlierContent (crc32 : Crc32) (s : PcqState) (b : ℕ) (line : ℕ → UInt8) : Prop
  | zeroes (h : ∀ j < s.pcq.bucketSize, line j = 0)
  | message {k : ℕ} {m : List UInt8} (hk : k < s.taken.length) (hb : k % s.pcq.nbuckets = b)
      (hm : s.published[k]? = some m)
      (h : ∀ j < s.pcq.bucketSize, line j = (pcqStamp crc32 s.pcq.bucketSize (u64 k) m).getD j 0)
  | mixture (h : pcqCrcGood crc32 s.pcq.bucketSize (entryBytes s.pcq.bucketSize line) = false)

/-- The queue and its two processes. -/
structure PcqPair where
  queue : PcqState
  /-- Whether the process of the producer runs, and that of the consumer. -/
  producer : Bool
  consumer : Bool

/-- A process can stop anywhere in its call, and what it has stored stays; the exit after a
bad message is such a stop. `pcq_open` maps the two files and stores nothing. -/
inductive PairStep (crc32 : Crc32) (stale : Stale) (p : PcqPair) : PcqPair → Prop
  | producer {t : PcqState} (hup : p.producer = true) (h : ProducerStep crc32 p.queue t) :
      PairStep crc32 stale p { p with queue := t }
  | consumer {t : PcqState} (hup : p.consumer = true) (h : ConsumerStep crc32 stale p.queue t) :
      PairStep crc32 stale p { p with queue := t }
  | stopProducer (hup : p.producer = true) :
      PairStep crc32 stale p { p with queue := { p.queue with put := .idle }, producer := false }
  | stopConsumer (hup : p.consumer = true) :
      PairStep crc32 stale p { p with queue := { p.queue with get := .idle }, consumer := false }
  | openProducer (hdown : p.producer = false) : PairStep crc32 stale p { p with producer := true }
  | openConsumer (hdown : p.consumer = false) : PairStep crc32 stale p { p with consumer := true }

end Famfs

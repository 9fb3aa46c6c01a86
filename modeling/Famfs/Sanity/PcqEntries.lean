import Famfs.Lib.Machine
import Famfs.Lib.Runs
import Famfs.Sanity.SlotBytes
import Famfs.Spec.Pcq

/-! A stamped entry passes the checks of the consumer, and a buffer that holds its bytes
is the entry. -/

namespace Famfs

open Machine Records

section

variable (crc32 : Crc32) {size : ℕ} (seq : ℕ) (entry : List UInt8)

theorem pcqStamp_take : pcqStamp crc32 size seq (entry.take (pcqPayloadSize size)) = pcqStamp crc32 size seq entry := by
  simp only [pcqStamp, List.take_take, min_self]

variable {entry} (hlen : pcqPayloadSize size ≤ entry.length)

include hlen

theorem payload_length : (entry.take (pcqPayloadSize size)).length = pcqPayloadSize size :=
  List.length_take_of_le hlen

theorem pcqStamp_payload : (pcqStamp crc32 size seq entry).take (pcqPayloadSize size) = entry.take (pcqPayloadSize size) := by
  simp only [pcqStamp, List.append_assoc]
  rw [List.take_append_of_le_length (by rw [payload_length hlen]), List.take_take, min_self]

theorem pcqSeq_stamp (hseq : seq < 2 ^ 64) : pcqSeq size (pcqStamp crc32 size seq entry) = seq := by
  have hoff : pcqSeqOffset size = (entry.take (pcqPayloadSize size)).length := by
    rw [payload_length hlen]
    rfl
  simp only [pcqSeq, pcqStamp, List.append_assoc]
  rw [hoff, cut_skip le_rfl, Nat.sub_self, cut_here (leBytes_length 8 seq), leNat_u64 hseq]

variable (h16 : 16 ≤ size)

include h16

theorem sealed_length : (entry.take (pcqPayloadSize size) ++ leBytes 8 seq).length = pcqCrcOffset size := by
  rw [List.length_append, payload_length hlen, leBytes_length]
  simp only [pcqPayloadSize, pcqCrcOffset]
  omega

theorem pcqStamp_length : (pcqStamp crc32 size seq entry).length = size := by
  simp only [pcqStamp]
  rw [List.length_append, sealed_length seq hlen h16, leBytes_length]
  simp only [pcqCrcOffset]
  omega

theorem pcqCrcGood_stamp : pcqCrcGood crc32 size (pcqStamp crc32 size seq entry) = true := by
  have hsealed := sealed_length seq hlen h16
  have hcrc : ∀ n, leNat (leBytes 8 n) = u64 n := fun n => by rw [leBytes, leNat_digits]; rfl
  rw [pcqCrcGood, decide_eq_true_eq]
  simp only [pcqStamp]
  rw [List.take_left' hsealed, cut_skip (le_of_eq hsealed), hsealed, Nat.sub_self, cut_all (leBytes_length 8 _), hcrc]

end

def HoldsEntry (size : ℕ) (mem : ℕ → UInt8) (entry : List UInt8) : Prop := ∀ j < size, mem j = entry.getD j 0

theorem HoldsEntry.bytes {size : ℕ} {mem : ℕ → UInt8} {entry : List UInt8} (h : HoldsEntry size mem entry)
    (hlen : entry.length = size) : entryBytes size mem = entry := by
  apply List.ext_getElem
  · rw [entryBytes, List.length_map, List.length_range, hlen]
  · intro j h1 h2
    have hj : j < size := by omega
    simp only [entryBytes, List.getElem_map, List.getElem_range]
    rw [h j hj, List.getD_eq_getElem?_getD, List.getElem?_eq_getElem h2, Option.getD_some]

theorem entryBytes_congr {size : ℕ} {f g : ℕ → UInt8} (h : ∀ j < size, f j = g j) :
    entryBytes size f = entryBytes size g :=
  List.map_congr_left fun j hj => h j (List.mem_range.1 hj)

end Famfs

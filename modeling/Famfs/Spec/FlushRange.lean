import Famfs.Lib.Machine
import Famfs.Spec.Meta

/-! Flushing and invalidating a range of memory: `fcc-x86_64.c`. What a call does is the sequence of
its cache instructions and fences. The loop over the lines takes fuel, one unit a line, and is `none`
without: an end in the last line of the address space is never reached. -/

namespace Famfs

open Machine

def CACHELINE_SIZE : ℕ := 64

/-- The instructions that work on one line. `CLWB` leaves it in the cache. -/
inductive LineFunc where
  | clflush
  | clflushopt
  | clwb
deriving DecidableEq, Repr

inductive CacheOp where
  | line (fccFunc : LineFunc) (addr : ℕ)
  | fence
deriving DecidableEq, Repr

/-- What `cpuid` says. -/
structure CpuFeatures where
  clflushopt : Bool
  clwb : Bool
  clflush : Bool
deriving DecidableEq, Repr

/-- The two pointers, null before they are set. -/
structure FlushFuncs where
  flushCachelineFunc : Option LineFunc
  invalidateCachelineFunc : Option LineFunc
deriving DecidableEq, Repr

def x86InitFlushFunctions (cpu : CpuFeatures) : Except Trap FlushFuncs :=
  if cpu.clwb then
    if cpu.clflush = false then .error .assertion
    else if cpu.clflushopt then .ok ⟨some .clwb, some .clflushopt⟩
    else .ok ⟨some .clwb, some .clflush⟩
  else if cpu.clflushopt then .ok ⟨some .clflushopt, some .clflushopt⟩
  else if cpu.clflush then .ok ⟨some .clflush, some .clflush⟩
  else .ok ⟨none, none⟩

def callLine (fccFunc : Option LineFunc) (addr : ℕ) : Except Trap CacheOp :=
  match fccFunc with
  | some f => .ok (.line f addr)
  | none => .error .nullPointer

def flushLoop (fccFunc : Option LineFunc) (stop : ℕ) : ℕ → ℕ → Except Trap (Option (List CacheOp))
  | 0, _ => .ok none
  | fuel + 1, ptr =>
    if ptr < stop then do
      let op ← callLine fccFunc ptr
      let rest ← flushLoop fccFunc stop fuel (u64 (ptr + CACHELINE_SIZE))
      return rest.map (op :: ·)
    else .ok (some [])

def x86FlushRange (fuel start len : ℕ) (fccFunc : Option LineFunc) : Except Trap (Option (List CacheOp)) :=
  if len = 0 then .ok (some [])
  else flushLoop fccFunc (u64 (start + len)) fuel (start &&& not64 (CACHELINE_SIZE - 1))

def flushProcessorCache (cpu : CpuFeatures) (fuel addr len : ℕ) : Except Trap (Option (List CacheOp)) := do
  let fns ← x86InitFlushFunctions cpu
  let ops ← x86FlushRange fuel addr len fns.flushCachelineFunc
  return ops.map (· ++ [.fence])

def invalidateProcessorCache (cpu : CpuFeatures) (fuel addr len : ℕ) : Except Trap (Option (List CacheOp)) := do
  let fns ← x86InitFlushFunctions cpu
  let ops ← x86FlushRange fuel addr len fns.invalidateCachelineFunc
  return ops.map (· ++ [.fence])

def hardFlushProcessorCache (cpu : CpuFeatures) (fuel addr len : ℕ) : Except Trap (Option (List CacheOp)) := do
  let fns ← x86InitFlushFunctions cpu
  let ops ← x86FlushRange fuel addr len fns.invalidateCachelineFunc
  return ops.map (.fence :: · ++ [.fence])

end Famfs

import Famfs.Lib.Literals
import Famfs.Spec.Yaml

/-! Sizes that are given as texts: options of `famfs creat`, `famfs cp` and `mkfs.famfs`,
and `chunk_size` in the yaml of the allocation config. A text is the bytes of a C string,
and an end pointer is the text that is left there. -/

namespace Famfs

open Machine Numerals

/-- A negative result stands for an error. -/
def getMultiplier (endptr : Option CStr) : ℤ :=
  match endptr with
  | none => 1
  | some [] => 1
  | some (c :: rest) =>
    let multiplier : ℤ :=
      if c = 107 ∨ c = 75 then 1024
      else if c = 109 ∨ c = 77 then 1024 * 1024
      else if c = 103 ∨ c = 71 then 1024 * 1024 * 1024
      else 1
    if rest ≠ [] then -1 else multiplier

/-- What the callers do with a text: the value of the variable they leave. -/
def sizeFromText (text : CStr) : ℕ :=
  let size := strtoull text
  let mult := getMultiplier (some (strtoullEnd text))
  if mult > 0 then u64 (size * mult.toNat) else size

/-- The options and keys that take a size. -/
inductive SizeArg where
  | creatSize
  | creatChunkSize
  | creatMulti
  | cpChunkSize
  | mkfsLoglen
  | configChunkSize
deriving DecidableEq, Repr

/-- `char tmpstr[256]` and the 255 bytes that `strncpy` copies into it at most. -/
def TMPSTR_COPY : ℕ := 255

/-- `none` would be an error return; no caller has one. A value of 255 bytes or more leaves
the last byte of `tmpstr` as it was on the stack: to read that byte is the trap. It is
read if the blanks and the sign, or the number and at most one more byte, fill the copy. -/
def SizeArg.read : SizeArg → CStr → Except Trap (Option ℕ)
  | .creatSize, optarg => .ok (some (sizeFromText optarg))
  | .creatChunkSize, optarg => .ok (some (sizeFromText optarg))
  | .creatMulti, token => .ok (some (sizeFromText token))
  | .cpChunkSize, optarg => .ok (some (sizeFromText optarg))
  | .mkfsLoglen, optarg => .ok (some (sizeFromText optarg))
  | .configChunkSize, value =>
    let tmpstr := value.take TMPSTR_COPY
    if TMPSTR_COPY ≤ value.length ∧ (unsignedPart tmpstr = [] ∨ (strtoullEnd tmpstr).length ≤ 1) then .error .overread
    else .ok (some (sizeFromText tmpstr))

end Famfs

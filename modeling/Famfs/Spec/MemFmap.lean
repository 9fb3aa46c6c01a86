import Famfs.Lib.Machine
import Famfs.Lib.Runs
import Famfs.Spec.Meta

/-! Maps in memory: `struct fmap_mem_header` of `famfs_fmap.h`, its allocation and its validation in
`famfs_fmap.c`. A pointer to an array is the array, or nothing when it is null. What the messages
print is read as the code reads it, whether or not they are on. -/

namespace Famfs

open Machine

def LOG_HEADER_TAG : ℕ := 0xf00d
def LOG_SIMPLE_EXT_TAG : ℕ := 0xbeef
def LOG_IEXT_TAG : ℕ := 0xcafe

structure FmapSimpleExt where
  structTag : ℕ
  seDevindex : ℕ
deriving DecidableEq, Repr

/-- A `fmap_log_iext` and the pointer to its strips. -/
structure FmapMemIext where
  structTag : ℕ
  ieNstrips : ℕ
  se : Option (ℕ → FmapSimpleExt)

/-- The union of the header, as `fmap_ext_type` says to read it. -/
inductive FmapExtents where
  | simple (se : Option (ℕ → FmapSimpleExt))
  | interleaved (ie : Option (ℕ → FmapMemIext))
  | other (fmapExtType : ℕ)

/-- `next` is also `niext`. -/
structure FmapMemHeader where
  structTag : ℕ
  next : ℕ
  extents : FmapExtents

def loadElem {α : Type} (array : Option (ℕ → α)) (i : ℕ) : Except Trap α :=
  match array with
  | some a => .ok (a i)
  | none => .error .nullPointer

/-- A turn prints element `i` and then looks at `se->struct_tag` and `se->se_devindex`, which are those
of element 0. -/
def simpleExtTurn (se : Option (ℕ → FmapSimpleExt)) (enforce : Bool) (i : ℕ) : Except Trap ℤ := do
  let _ ← loadElem se i
  let e ← loadElem se 0
  if enforce ∧ e.structTag ≠ LOG_SIMPLE_EXT_TAG then return -1
  else if enforce ∧ e.seDevindex ≠ 0 then return -1
  else return 0

def validateSimpleExtlist (se : Option (ℕ → FmapSimpleExt)) (next : ℕ) (enforce : Bool) : Except Trap ℤ :=
  Runs.firstNonzero (simpleExtTurn se enforce) (List.range next)

def interleavedExtTurn (ie : Option (ℕ → FmapMemIext)) (enforce : Bool) (i : ℕ) : Except Trap ℤ := do
  let e ← loadElem ie i
  if enforce ∧ e.structTag ≠ LOG_IEXT_TAG then return -1
  else validateSimpleExtlist e.se e.ieNstrips enforce

def validateInterleavedExtlist (ie : Option (ℕ → FmapMemIext)) (next : ℕ) (enforce : Bool) : Except Trap ℤ :=
  Runs.firstNonzero (interleavedExtTurn ie enforce) (List.range next)

/-- Each turn of the outer loop goes through the whole list again. -/
def validateMemFmap (fm : Option FmapMemHeader) (enforce : Bool) : Except Trap ℤ :=
  match fm with
  | none => .ok (-1)
  | some fm =>
    if fm.structTag ≠ LOG_HEADER_TAG then .ok (-1)
    else match fm.extents with
      | .simple se => if se.isNone then .ok (-1) else validateSimpleExtlist se fm.next enforce
      | .interleaved ie =>
        Runs.firstNonzero
          (fun _ => if ie.isNone then .ok (-1) else validateInterleavedExtlist ie fm.next enforce) (List.range fm.next)
      | .other _ => .ok 0

/-! Allocation. `calloc` can fail, and does for a negative number of elements. -/

/-- Which of the `calloc`s succeed: the one for the header, the one for the list and those for the
strips of each extent. -/
structure FmapMem where
  header : Bool
  list : Bool
  strips : ℕ → Bool

end Famfs

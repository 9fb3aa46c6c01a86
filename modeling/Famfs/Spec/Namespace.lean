import Famfs.Lib.Paths
import Famfs.Spec.Meta

/-! The files and directories of one node and the system calls the library makes on
them. In standalone mode a famfs file is an object of the mount; in FUSE mode it is a
shadow file below the shadow root, and the mount shows what the shadow files describe.
A call whose `Sys` field is false fails although the namespace would let it succeed. -/

namespace Famfs

open Paths

structure IocInterleavedExt where
  ieNstrips : ℕ
  ieChunkSize : ℕ
  ieNbytes : ℕ
  ieStrips : List FamfsSimpleExtent
deriving DecidableEq

/-- A map as `FAMFSIOC_MAP_CREATE` or `FAMFSIOC_MAP_CREATE_V2` hands it to the kernel. -/
inductive IocMap where
  | v1 (extList : List (ℕ × ℕ))
  | v2Simple (kse : List FamfsSimpleExtent)
  | v2Interleaved (kie : List IocInterleavedExt)
deriving DecidableEq

structure Attr where
  mode : ℕ
  uid : ℕ
  gid : ℕ
deriving DecidableEq

/-- What a regular file holds. The yaml text of a shadow file is the structure it
describes, or none while it does not describe one. -/
inductive FileData where
  | plain (size : ℕ)
  | mapped (size : ℕ) (map : IocMap)
  | shadow (yaml : Option FamfsLogFileMeta)
deriving DecidableEq

inductive Node where
  | dir (attr : Attr)
  | reg (attr : Attr) (data : FileData)
  | special (attr : Attr)
deriving DecidableEq

def FileData.size : FileData → ℕ
  | .plain n => n
  | .mapped n _ => n
  | .shadow (some fm) => fm.fmSize
  | .shadow none => 0

def Node.isDir : Node → Bool
  | .dir _ => true
  | _ => false

def Node.isReg : Node → Bool
  | .reg _ _ => true
  | _ => false

def Node.isRegOfSize (size : ℕ) : Node → Bool
  | .reg _ d => d.size = size
  | _ => false

/-- How the FUSE daemon shows an object of the shadow tree. -/
def Node.present : Node → Option Node
  | .reg _ (.shadow (some fm)) => some (.reg ⟨fm.fmMode, fm.fmUid, fm.fmGid⟩ (.shadow (some fm)))
  | .reg _ _ => none
  | n => some n

def Node.chown (uid gid : ℕ) : Node → Node
  | .dir a => .dir { a with uid := uid, gid := gid }
  | .reg a d => .reg { a with uid := uid, gid := gid } d
  | .special a => .special { a with uid := uid, gid := gid }

def Node.write (data : FileData) : Node → Node
  | .reg a _ => .reg a data
  | n => n

/-- The mount point and the shadow tree behind it lie apart. -/
structure FuseDirs where
  mpt : Path
  root : Path
  apart : ¬ mpt <+: root ∧ ¬ root <+: mpt

inductive Mount where
  | v1 (mpt : Path)
  | fuse (dirs : FuseDirs)

structure Host where
  tree : Path → Option Node
  cwd : Path
  mount : Mount

def Host.look (h : Host) (p : Path) : Option Node :=
  match h.mount with
  | .v1 _ => h.tree p
  | .fuse d => if d.mpt <+: p then (h.tree (d.root ++ p.drop d.mpt.length)).bind Node.present
      else h.tree p

/-- Objects are made here by local calls; the FUSE daemon makes none. -/
def Host.isLocal (h : Host) (p : Path) : Bool :=
  match h.mount with
  | .v1 _ => true
  | .fuse d => ¬ d.mpt <+: p

def Host.isFamfsV1 (h : Host) (p : Path) : Bool :=
  match h.mount with
  | .v1 mpt => mpt <+: p
  | .fuse _ => false

def Host.set (h : Host) (p : Path) (n : Option Node) : Host :=
  { h with tree := Function.update h.tree p n }

/-- A trailing slash asks for a directory. -/
def Host.resolve (h : Host) (path : CStr) : Walk :=
  if path = [] then .notDir
  else walk Node.isDir h.look (if path.head? = some slash then [] else h.cwd)
    (components path ++ if path.getLast? = some slash then [dot] else [])

def Host.stat (h : Host) (path : CStr) : Option Node :=
  match h.resolve path with
  | .found p => h.look p
  | _ => none

/-- The result of `realpath` and what it leaves in the buffer: when a component does
not exist, the path up to it. -/
def Host.realpath (h : Host) (path : CStr) : Option CStr × Option CStr :=
  match h.resolve path with
  | .found p => (some (render p), some (render p))
  | .missing p _ => (none, some (render p))
  | .notDir => (none, none)

/-- Effective ids and file mode creation mask of a process. -/
structure Cred where
  euid : ℕ
  egid : ℕ
  umask : ℕ
deriving DecidableEq

def Cred.attr (c : Cred) (mode : ℕ) : Attr := ⟨(mode &&& 0o7777).ldiff c.umask, c.euid, c.egid⟩

/-- `open(path, O_RDWR)`: the object opened. -/
def Host.openRdwr (h : Host) (path : CStr) : Option Path :=
  match h.resolve path with
  | .found p => if (h.look p).any Node.isReg then some p else none
  | _ => none

/-- `open(path, O_RDWR | O_CREAT, mode)`. -/
def Host.openCreat (h : Host) (cred : Cred) (path : CStr) (mode : ℕ) (data : FileData) :
    Option (Path × Host) :=
  match h.resolve path with
  | .found p => if (h.look p).any Node.isReg then some (p, h) else none
  | .missing p [] =>
      if h.isLocal p then some (p, h.set p (some (.reg (cred.attr mode) data))) else none
  | _ => none

def Host.mkdir (h : Host) (cred : Cred) (path : CStr) (mode : ℕ) : Option (Path × Host) :=
  match h.resolve (stripSlashes path) with
  | .missing p [] => if h.isLocal p then some (p, h.set p (some (.dir (cred.attr mode)))) else none
  | _ => none

def Host.unlink (h : Host) (path : CStr) : Host :=
  match h.resolve path with
  | .found p => if (h.look p).any Node.isDir then h else h.set p none
  | _ => h

def Host.modify (h : Host) (p : Path) (f : Node → Node) : Host := h.set p ((h.tree p).map f)

/-- Which calls of one creation succeed as far as the namespace allows, the numbers that
`open` and the map ioctl return, and what a replay finds in memory behind the map of its
copy of an entry. -/
structure Sys where
  statTarget : Bool
  openExisting : Bool
  statParent : Bool
  statPlay : Bool
  stat : Bool
  openCreat : Bool
  fd : ℤ
  fdopen : Bool
  emitYaml : Bool
  ioctlNop : Bool
  fchown : Bool
  mapCreate : ℤ
  openFile : Bool
  realpath : Bool
  realParent : Bool
  mkdir : Bool
  chown : Bool
  past : ℕ → ℕ

/-- Every call succeeds that can. -/
def Sys.healthy : Sys :=
  ⟨true, true, true, true, true, true, 3, true, true, true, true, 0, true, true, true, true, true, fun _ => 0⟩

end Famfs

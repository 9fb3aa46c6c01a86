import Famfs.Spec.Meta

/-! Reading a directory through the FUSE daemon: `famfs_opendir` and `famfs_do_readdir`. The stream of
the C library is the list of entries that it still returns; the directory does not change while it is
open. -/

namespace Famfs

structure Dirent where
  name : CStr
  ino : ℕ
  type : ℕ
  /-- `d_off`: where the stream goes on after this entry. -/
  off : ℕ
deriving DecidableEq

/-- The entries of a directory, and the number of entries before the place that `seekdir` goes to. -/
structure Directory where
  entries : List Dirent
  seek : ℕ → ℕ

structure FamfsDirp where
  dp : List Dirent
  entry : Option Dirent
  offset : ℕ
deriving DecidableEq

def famfsOpendir (dir : Directory) : FamfsDirp := ⟨dir.entries, none, 0⟩

def isDotOrDotdot (name : CStr) : Bool :=
  name.getD 0 0 == 46 && (name.getD 1 0 == 0 || (name.getD 1 0 == 46 && name.getD 2 0 == 0))

/-- One request, and what the system and the lookups answer while it is served. -/
structure ReaddirCall where
  size : ℕ
  plus : Bool
  /-- Whether there is memory for the buffer. -/
  mem : Bool
  /-- What `readdir` fails with when so many entries are left. -/
  readErr : ℕ → Option ℤ
  /-- `famfs_do_lookup`: the nodeid of the entry, which is 0 where a lookup fails and returns 0. -/
  lookup : Dirent → Except ℤ ℕ

inductive ReaddirReply where
  | err (errno : ℤ)
  | buf (entries : List (Dirent × ℕ))
deriving DecidableEq

/-- What the loop stores, how it ends, and the nodeid of an entry that was looked up and did not fit. -/
structure ReaddirLoop where
  stored : List (Dirent × ℕ)
  stop : Except ℤ Unit
  dirp : FamfsDirp
  forgotten : ℕ

/-- The nodeid that is reported for an entry: none without attributes, and for `.` and `..`. -/
def ReaddirCall.nodeid (call : ReaddirCall) (e : Dirent) : Except ℤ ℕ :=
  if call.plus && !isDotOrDotdot e.name then call.lookup e else .ok 0

section

variable (entsize : Bool → CStr → ℕ) (call : ReaddirCall)

/-- The loop of `famfs_do_readdir` over `d->entry`, if it is `cached`, and what follows it in the
stream. -/
def readdirLoop (rem offset : ℕ) (cached : Bool) : List Dirent → ReaddirLoop
  | [] =>
    match call.readErr 0 with
    | some err => ⟨[], .error err, ⟨[], none, offset⟩, 0⟩
    | none => ⟨[], .ok (), ⟨[], none, offset⟩, 0⟩
  | e :: dp =>
    match if cached then none else call.readErr (dp.length + 1) with
    | some err => ⟨[], .error err, ⟨e :: dp, none, offset⟩, 0⟩
    | none =>
      match call.nodeid e with
      | .error err => ⟨[], .error err, ⟨dp, some e, offset⟩, 0⟩
      | .ok nodeid =>
        if rem < entsize call.plus e.name then
          -- it stays in `d->entry` for the next request
          ⟨[], .ok (), ⟨dp, some e, offset⟩, nodeid⟩
        else
          let out := readdirLoop (rem - entsize call.plus e.name) e.off false dp
          { out with stored := (e, nodeid) :: out.stored }

/-- The loop from where the stream is. -/
def readdirFrom (d : FamfsDirp) : ReaddirLoop :=
  match d.entry with
  | some e => readdirLoop entsize call call.size d.offset true (e :: d.dp)
  | none => readdirLoop entsize call call.size d.offset false d.dp

/-- An error is reported only when nothing has been stored. -/
def ReaddirLoop.reply (out : ReaddirLoop) : ReaddirReply :=
  match out.stop with
  | .error err => if (out.stored.map fun e => entsize call.plus e.1.name).sum = 0 then .err err else .buf out.stored
  | .ok () => .buf out.stored

/-- The reply, the nodeid that `famfs_forget_one` is called with, and the state of the stream. -/
def famfsDoReaddir (dir : Directory) (offset : ℕ) (d : FamfsDirp) : ReaddirReply × ℕ × FamfsDirp :=
  if call.mem then
    let d := if offset = d.offset then d else ⟨dir.entries.drop (dir.seek offset), none, offset⟩
    let out := readdirFrom entsize call d
    (out.reply entsize call, out.forgotten, out.dirp)
  else (.err ENOMEM, 0, d)

end

end Famfs

import Famfs.Spec.Log
import Famfs.Spec.Logplay

/-! Who may write: the role of a host, and `famfs_mkfs` with its two routes to a device. The
superblock names the system that made it, and only that system is the master. -/

namespace Famfs

def EPERM : ℤ := 1
def ENODEV : ℤ := 19

section

variable (crc32 : Crc32)

/-- `famfs_get_role`. `myUuid` is what `famfs_get_system_uuid` gives, if it can; a host that
cannot tell is taken for a client before the superblock is looked at. -/
def famfsGetRole (myUuid : Option (List UInt8)) (sb : FamfsSuperblock) : FamfsSystemRole :=
  match myUuid with
  | none => .client
  | some u =>
    if famfsCheckSuper crc32 sb ≠ 0 then .nosuper
    else if pad 16 u = pad 16 sb.tsSystemUuid then .master
    else .client

/-- `famfs_get_role_by_dev`; `none` is `FAMFS_NODEV`, when the superblock cannot be mapped. -/
def famfsGetRoleByDev (mapped : Bool) (myUuid : Option (List UInt8)) (sb : FamfsSuperblock) :
    Option FamfsSystemRole :=
  if mapped then some (famfsGetRole crc32 myUuid sb) else none

end

/-- Devices smaller than this are refused. -/
def mkfsMinDevsize : ℕ := 4 * 1024 * 1024 * 1024

/-- The size of the device when `mkfs` is allowed; `devsize` is `none` when it cannot be read. -/
def famfsMkfsAllowed (role : Option FamfsSystemRole) (force : Bool) (devsize : Option ℕ) : Option ℕ :=
  if role = some .client ∧ force = false then none
  else if role = none then none
  else match devsize with
    | none => none
    | some n => if n < mkfsMinDevsize then none else some n

/-- What `famfs_mkfs` is given by the system on its way. -/
structure MkfsSys where
  /-- `famfs_get_mpt_by_dev` finds a mount of the device. -/
  mounted : Bool
  /-- The first `famfs_get_device_size` of the dummy mount route, `famfs_check_or_set_daxmode`
  and the dummy mount itself. -/
  firstSize : ℤ
  daxmode : ℤ
  dummyMount : ℤ
  /-- Mapping the superblock to kill it, to read the role, to write it; mapping the log. -/
  mapKill : Bool
  mapRole : Bool
  mapSuper : Bool
  mapLog : Bool
  /-- The device takes what is stored to it. -/
  writable : Bool
  /-- The system uuid as the role check reads it. -/
  myUuid : Option (List UInt8)
  devsize : Option ℕ
  host : MkfsHost

structure MkfsArgs where
  logLen : ℕ
  kill : Bool
  noRawDax : Bool
  force : Bool

section

variable (crc32 : Crc32) (sys : MkfsSys) (logLen : ℕ) (kill force : Bool)

/-- Result code, superblock and log after the call. -/
def famfsMkfsRawdev (sb : FamfsSuperblock) (logp : FamfsLog) : ℤ × FamfsSuperblock × FamfsLog :=
  if sys.mounted then (-1, sb, logp)
  else if kill && force then
    if sys.mapKill then (0, famfsKillSuperblock sys.writable sb, logp) else (-1, sb, logp)
  else
    match famfsMkfsAllowed (famfsGetRoleByDev crc32 sys.mapRole sys.myUuid sb) force sys.devsize with
    | none => (-EPERM, sb, logp)
    | some devsize =>
      if sys.mapSuper && sys.mapLog then famfsMkfs crc32 sys.host sys.writable sb logp logLen devsize force kill
      else (-1, sb, logp)

def famfsMkfsViaDummyMount (sb : FamfsSuperblock) (logp : FamfsLog) : ℤ × FamfsSuperblock × FamfsLog :=
  if sys.firstSize ≠ 0 then (sys.firstSize, sb, logp)
  else if sys.daxmode ≠ 0 then (sys.daxmode, sb, logp)
  else if sys.dummyMount ≠ 0 then (sys.dummyMount, sb, logp)
  else if kill && force then
    if sys.mapKill then (0, famfsKillSuperblock sys.writable sb, logp) else (-1, sb, logp)
  else if sys.mapRole = false then (-1, sb, logp)
  else
    match famfsMkfsAllowed (some (famfsGetRole crc32 sys.myUuid sb)) force sys.devsize with
    | none => (-EPERM, sb, logp)
    | some devsize =>
      if sys.mapSuper = false then (-ENODEV, sb, logp)
      else if sys.mapLog = false then (-ENODEV, sb, logp)
      else famfsMkfs crc32 sys.host sys.writable sb logp logLen devsize force kill

end

/-- `famfs_mkfs`: the length of the log is checked here, for both routes. -/
def famfsMkfsRouted (crc32 : Crc32) (sys : MkfsSys) (a : MkfsArgs) (sb : FamfsSuperblock) (logp : FamfsLog) :
    ℤ × FamfsSuperblock × FamfsLog :=
  if ¬ mkfsLogLenValid a.logLen then (-EINVAL, sb, logp)
  else if a.noRawDax then famfsMkfsViaDummyMount crc32 sys a.logLen a.kill a.force sb logp
  else famfsMkfsRawdev crc32 sys a.logLen a.kill a.force sb logp

end Famfs

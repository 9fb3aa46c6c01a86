import Famfs.Proofs.AllocRuns
import Famfs.Proofs.LogBounds
import Famfs.Proofs.LogCounts
import Famfs.Sanity.SlotBytes

/-! The verdict of `famfs_fsck_scan`. It is the number of collisions in the bitmap, cut to an
`int`: entries that do not validate and types that are not known are printed and no more. -/

namespace Famfs

open Machine Intervals

section

variable {crc32 : Crc32} {sb : FamfsSuperblock} {logp : FamfsLog} {nbuckets : ℤ}

end

end Famfs

import AltFs.AllocatorRuns
import AltFs.AppendRuns
import AltFs.BlockScans
import AltFs.DirectoryRuns
import AltFs.CacheRuns
import AltFs.FileRelease
import AltFs.HeadInside
import AltFs.InodeRuns
import AltFs.SuperblockRuns
import AltFs.FileContents
import AltFs.OpenRuns
import AltFs.Overwrites
import AltFs.ReadRuns
import AltFs.ShortWrites
import AltFs.Creation
import AltFs.CreationRuns
import AltFs.Mounted
import AltFs.KeptPositions
import AltFs.TableLayout
import AltFs.StrayFrees
import AltFs.Listing
import AltFs.CacheRecency
import AltFs.PathWalks
import AltFs.Renames
import AltFs.PathChanges
import AltFs.LostBlocks
import AltFs.FileCalls
import AltFs.CacheKeys
import AltFs.FuseLayer
import AltFs.ReadBack
import AltFs.Lib.PathTree

import GitCore.Apply
import GitCore.Base85
import GitCore.Commit.StableQueue
import GitCore.CacheTree.Session
import GitCore.Index.Atomic
import GitCore.Index.OnDiskRoundTrip
import GitCore.Index.VerifyPath
import GitCore.Commit.Contains
import GitCore.Commit.GraphFile
import GitCore.Delta.RoundTrip
import GitCore.MergeSort
import GitCore.Reftable.StackSafety
import GitCore.Reftable.WriterOrder
import GitCore.Quote.CStyle
import GitCore.TreeWalk.ComparePath
import GitCore.TreeWalk.Join
import GitCore.TreeWalk.Decode
import GitCore.Wildmatch.Pathspec
import GitCore.Refs.RefnameFormat
import GitCore.Cbtree.Oidtree
import GitCore.Notes.Map
import GitCore.LineLog.MapAcross
import GitCore.Pack.Lookup
import GitCore.Pack.Geometry
import GitCore.Ewah.Xor
import GitCore.Varint
import GitCore.Reftable.CompactionSegment
import GitCore.Reftable.UpdateIndexRanges
import GitCore.Reftable.LogBlock

import Got.IndexPack.Passes
import Got.Endian
import Got.Lib.Records
import Got.Pack.PackidxFile
import Got.IndexPack.Write
import Got.DeltaEncode
import Got.Worktree.Applies
import Got.Lib.OrderedList
import Got.Lib.Runs
import Got.PathLen
import Got.FileIndex.Entry
import Got.FileIndex.Index
import Got.FileIndex.File
import Got.Worktree.Commit
import Got.Lib.MergeJoin
import Got.FileIndex.Walk
import Got.FileIndex.MergeWalk
import Got.FileIndex.DiffDir
import Got.Diff.Main
import Got.Diff.Context
import Got.Diff.Atomize
import Got.Diff.AtomLines
import Got.Diff.AtomizeFd
import Got.FileIndex.DiffLaw
import Got.FileIndex.DiffTree
import Got.Diff.MyersDivide
import Got.Diff.Patience
import Got.Diff.EdScript
import Got.Diff3.Readers
import Got.Diff3.EdScript
import Got.Worktree.PatchContent
import Got.Worktree.PatchSplit
import Got.CommitGraph.ReadPack
import Got.CommitGraph.Idset
import Got.CommitGraph.IterList
import Got.CommitGraph.Visited
import Got.CommitGraph.FirstParent
import Got.CommitGraph.YoungestCommonAncestor
import Got.Lib.LockStep
import Got.Blame.Correct
import Got.ObjectFile.Tree
import Got.ObjectFile.Commit
import Got.ObjectFile.Tag
import Got.Diff.Midpoint
import Got.CommitGraph.Batch
import Got.CommitGraph.PathWalk
import Got.FetchPack.Window
import Got.Histedit.Script
import Got.Histedit.RoundTrip
import Got.Diff.Tree
import Got.Diff.TreeChanges
import Got.Diff.TreeFaithful
import Got.CommitGraph.Collect
import Got.Lib.Action
import Got.Rebase.Refs
import Got.Rebase.Worktree
import Got.Rebase.ExactlyOnce
import Got.Rebase.Progress
import Got.Reference.Store
import Got.Reference.Resolve
import Got.Reference.Open
import Got.Reference.Packing
import Got.Reference.Delete
import Got.GitConfig.ByLine
import Got.GitConfig.Parse
import Got.GitConfig.File
import Got.Privsep.Imsg
import Got.Privsep.RecvTree
import Got.Privsep.Objects
import Got.Privsep.RoundTrip
import Got.Privsep.Transfer
import Got.FetchPack.Refs
import Got.FetchPack.Selected
import Got.Fetch.LocalRefs
import Got.Fetch.DeleteMissing
import Got.Reference.Write
import Got.Fetch.UpdateRefs
import Got.Pack.ObjectHeader
import Got.Pack.MapBounds
import Got.Pack.Capacity
import Got.Pack.PackidxSearch
import Got.Pack.IdPrefix
import Got.IndexPack.Insert
import Got.Lib.FileTree
import Got.Worktree.Disk
import Got.Worktree.EntryBits
import Got.Worktree.DeleteBlob
import Got.Worktree.Install
import Got.Worktree.Revert
import Got.Diff.AtomOrder
import Got.Diff.Identical
import Got.Diff3.Merge
import Got.Worktree.MergeBlob
import Got.Worktree.Stage
import Got.Worktree.Unstage
import Got.Lib.Selection
import Got.Log
import Got.Worktree.BadSymlink
import Got.Lib.ZStream
import Got.Deflate
import Got.Inflate.Read
import Got.Inflate.ToFile
import Got.Inflate.ToMem
import Got.Inflate.Truncated
import Got.Worktree.StatusBlocks
import Got.Lib.UniqueMatch
import Got.Repository.MatchIdPrefix
import Got.PathTrim
import Got.Worktree.Ignores
import Got.FileIndex.DiffTreeEntry
import Got.FileIndex.DiffTreeEntryLaw
import Got.Histedit.CheckScript
import Got.ObjectByPath
import Got.Lib.Slots
import Got.Repository.PackCache
import Got.Repository.PackidxCache
import Got.FileIndex.LongPaths
import Got.ObjectFile.TreeGrammar
import Got.ObjectFile.CommitGrammar
import Got.Lib.EditDistance
import Got.Diff.MyersMinimal
import Got.Lib.PatienceSort
import Got.Diff.PatienceUnique
import Got.Diff.DivideShortest
import Got.Lib.ChunkOrder
import Got.Diff.AtomStorage
import Got.FetchPack.Capabilities
import Got.FetchPack.RefLine
import Got.Fetch.ParseUri
import Got.Reference.ValidName
import Got.Reference.Gather
import Got.ObjectCache.DataIdset
import Got.ObjectCache.Cache
import Got.Blame.DumpBlocks
import Got.Lib.Recency
import Got.Pack.DeltaCache
import Got.Reference.Locking
import Got.Worktree.Branch
import Got.Rebase.Fileindex

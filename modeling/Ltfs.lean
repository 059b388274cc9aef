import Ltfs.Lib.Segment
import Ltfs.Error
import Ltfs.Extent
import Ltfs.XmlTape
import Ltfs.Sched.Request
import Ltfs.Sched.Write
import Ltfs.Sched.RequestSpec
import Ltfs.Sched.WriteSpec
import Ltfs.Sched.State
import Ltfs.Sched.Drain
import Ltfs.Sched.Lists
import Ltfs.Sched.WriteError
import Ltfs.Sched.Concurrent
import Ltfs.Sched.AppendOnly
import Ltfs.Lib.SegmentInsert
import Ltfs.Fs.XmlReader
import Ltfs.Fs.ParseFile
import Ltfs.Lib.Base64
import Ltfs.Fs.ParseXattr
import Ltfs.Fsraw.FileTree
import Ltfs.Fsraw.Cleanup
import Ltfs.Fsraw.Truncate
import Ltfs.Sched.AltExtents
import Ltfs.Sched.ExtQueue
import Ltfs.Sched.Tally
import Ltfs.Sched.Counters
import Ltfs.Sched.PendingErrors
import Ltfs.Sched.Shutdown
import Ltfs.Lib.Markup
import Ltfs.Fs.IndexXml
import Ltfs.Fs.IncIndex
import Ltfs.Tape
import Ltfs.Volume
import Ltfs.TapeSpec
import Ltfs.VolumeSpec
import Ltfs.IndexChain
import Ltfs.CrashSafety
import Ltfs.Revalidate
import Ltfs.RevalidateSpec
import Ltfs.Mounted
import Ltfs.Lib.Utf8
import Ltfs.NameCodec
import Ltfs.Fsraw.Read
import Ltfs.Fsraw.ReadSpec
import Ltfs.Lib.Forest
import Ltfs.Fs.Journal
import Ltfs.Fs.Dentry
import Ltfs.Fs.Xattr
import Ltfs.Fs.Fsops
import Ltfs.Fs.Tree
import Ltfs.Fs.Lookup
import Ltfs.Fs.Change
import Ltfs.Fs.XattrSpec
import Ltfs.Fs.CreateSpec
import Ltfs.Fs.UnlinkSpec
import Ltfs.Fs.RenameSpec
import Ltfs.Fs.Run
import Ltfs.Lib.Calendar
import Ltfs.Time
import Ltfs.TimeText
import Ltfs.Fs.JournalSpec
import Ltfs.Fs.IndexDirty
import Ltfs.Sched.Recode
import Ltfs.Sched.LargeWrite
import Ltfs.Sched.Chunks
import Ltfs.Lib.Glob
import Ltfs.NameCriteria
import Ltfs.Lib.Ledger
import Ltfs.Sched.Blocks
import Ltfs.Sched.BlockLedger
import Ltfs.Sched.WriteCalls
import Ltfs.WriteIndex
import Ltfs.IndexStream
import Ltfs.SeekIndex
import Ltfs.SeekIndexSpec
import Ltfs.CheckMedium
import Ltfs.Mount
import Ltfs.CheckMediumSpec
import Ltfs.RestorePlace
import Ltfs.RestoreSpec
import Ltfs.MountSpec
import Ltfs.Strtoull
import Ltfs.Fs.NumberFields
import Ltfs.CriteriaRule
import Ltfs.Lib.Split
import Ltfs.CriteriaRuleSpec
import Ltfs.Lib.SlashPath
import Ltfs.TargetPath
import Ltfs.Fs.DentryPath
import Ltfs.Fs.OpenCount
import Ltfs.Fs.HandleBalance
import Ltfs.Fs.HandleRefs
import Ltfs.Fs.RenameBalance
import Ltfs.Fs.Base64Decode
import Ltfs.KeyFormat
import Ltfs.Lib.LinkedList
import Ltfs.Fs.PathHelper
import Ltfs.Sched.CacheManager
import Ltfs.LoadTape
import Ltfs.TapeAttr
import Ltfs.MediaPool
import Ltfs.Fs.VirtualXattr
import Ltfs.Lib.Crc
import Ltfs.Crc32c
import Ltfs.Lib.MergeSort
import Ltfs.Fs.Uid
import Ltfs.Fs.XattrFlags
import Ltfs.Lib.RecordTape
import Ltfs.FileTape
import Ltfs.FileTapeSpec
import Ltfs.Fs.IncFailure
import Ltfs.Traverse
import Ltfs.TraverseSpec
import Ltfs.Lib.UpTo
import Ltfs.Rollback
import Ltfs.RollbackSpec
import Ltfs.Lib.Include
import Ltfs.ConfigFile
import Ltfs.ConfigFileSpec
import Ltfs.Fcfs
import Ltfs.FcfsSpec
import Ltfs.ConsistentMount
import Ltfs.IndexCommands

import OsCore.BitmapScan
import OsCore.Device.DiskScans
import OsCore.Device.Ide
import OsCore.Device.IdeCommands
import OsCore.Device.IoqueueBlocking
import OsCore.Device.Keyboard
import OsCore.Device.PartitionChain
import OsCore.Fs.Cwd
import OsCore.Fs.EmptyDir
import OsCore.Fs.EntryNames
import OsCore.Fs.FailedOpen
import OsCore.Fs.FailedWrite
import OsCore.Fs.FileContents
import OsCore.Fs.FilePositions
import OsCore.Fs.FileRelease
import OsCore.Fs.FileSlots
import OsCore.Fs.LostUpdates
import OsCore.Fs.OpenCounts
import OsCore.Fs.Ownership
import OsCore.Fs.PartitionFormat
import OsCore.Fs.PathDepth
import OsCore.Fs.PipeCounts
import OsCore.Fs.SyncBuffer
import OsCore.Fs.WriteLimits
import OsCore.Fs.WriteThrough
import OsCore.Kernel.PoolLayout
import OsCore.Kernel.SelfMap
import OsCore.ListSequence
import OsCore.Shell.CanonicalPath
import OsCore.Shell.MyShell
import OsCore.Shell.Pipe
import OsCore.Shell.ReadlineBuffer
import OsCore.StdioBuffer
import OsCore.Userprog.CopyBody
import OsCore.Userprog.Execv
import OsCore.Userprog.ForkHeaps
import OsCore.Userprog.Isolation
import OsCore.Userprog.Names
import OsCore.Userprog.PageNeutral
import OsCore.Userprog.SegmentPages
import OsCore.Userprog.Wakeup
import OsCore.Vectors.Contexts
import OsCore.Vectors.RoundRobin
import OsCore.Video.Console
import OsCore.Video.Prompt

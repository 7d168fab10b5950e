import OsKernel.Lib.Run
import OsKernel.Lib.Fifo
import OsKernel.Lib.SortedMap
import OsKernel.Lib.StateLoop
import OsKernel.Fat32.Bitmap
import OsKernel.Fs.FdTable
import OsKernel.Lib.Fallible
import OsKernel.Fs.DirectoryTree
import OsKernel.Mm.FrameAllocator
import OsKernel.Mm.PageTable
import OsKernel.Mm.MemorySet
import OsKernel.Mm.UserCalls
import OsKernel.Mm.Fork
import OsKernel.Task.Manager
import OsKernel.Task.Signal
import OsKernel.Task.Process
import OsKernel.Task.Wait
import OsKernel.Lib.Word
import OsKernel.Lib.Unicode
import OsKernel.Fs.Cache
import OsKernel.Fat32.Vfs
import OsKernel.Fat32.Content
import OsKernel.Fat32.Layout
import OsKernel.Fat32.DirIter
import OsKernel.Fat32.Dir
import OsKernel.Fat32.ShortName
import OsKernel.Fat32.Dirent
import OsKernel.Fat32.Metadata
import OsKernel.Fat32.OsInode
import OsKernel.Fs.Pipe
import OsKernel.Fs.Copy
import OsKernel.Fs.Fcntl
import OsKernel.Fs.FdCalls
import OsKernel.Mm.Elf
import OsKernel.Mm.Loader
import OsKernel.Task.Exec
import OsKernel.Lib.Overwrite
import OsKernel.Mm.UserBuffer
import OsKernel.Fs.Stdio
import OsKernel.Task.Timer
import OsKernel.Fs.Select
import OsKernel.Fs.BlockCache
import OsKernel.Mm.BufferSegments
import OsKernel.Mm.SegmentCopy
import OsKernel.Fs.PathWalk
import OsKernel.Fs.PathResolve
import OsKernel.Task.Id
import OsKernel.Task.Queues
import OsKernel.Fat32.DirRun

import Ekostd.Lib.Sts
import Ekostd.Lib.Count
import Ekostd.Lib.Monitor
import Ekostd.Lib.Wakeup
import Ekostd.Channel.Model
import Ekostd.Lib.Fifo
import Ekostd.Channel.Safety
import Ekostd.Channel.Wakeup
import Ekostd.Thread.Once
import Ekostd.Lib.WriteOnce
import Ekostd.Thread.OnceLock
import Ekostd.Lib.PosixRwLock
import Ekostd.Thread.RwLock
import Ekostd.Thread.Condvar
import Ekostd.Lib.Pieces
import Ekostd.Lib.PosixFs
import Ekostd.Lib.PosixErase
import Ekostd.File.Error
import Ekostd.Fs.RemoveDirAll
import Ekostd.Fs.Contained
import Ekostd.Command.Basic
import Ekostd.Command.Child
import Ekostd.Command.Output
import Ekostd.Path.Components
import Ekostd.Path.Strip
import Ekostd.Lib.Lines
import Ekostd.Lib.PosixRead
import Ekostd.Socket.Lines
import Ekostd.File.Stdin
import Ekostd.Lib.Utf8
import Ekostd.LineReaders
import Ekostd.Lib.Interleave
import Ekostd.Thread.Scope
import Ekostd.Thread.ScopedKey
import Ekostd.Daemonize.FormatPid
import Ekostd.Daemonize.PidFile
import Ekostd.Thread.ThreadLocal.Keys
import Ekostd.Thread.ThreadLocal.Values
import Ekostd.Daemonize.Model
import Ekostd.Daemonize.Descriptors
import Ekostd.Daemonize.Readiness
import Ekostd.Lib.Slices
import Ekostd.Path.Normalised
import Ekostd.Path.Walk
import Ekostd.Path.Ancestors
import Ekostd.Path.Extension
import Ekostd.Signal.Model
import Ekostd.Signal.Reports
import Ekostd.Signal.Routing
import Ekostd.Signal.Errno
import Ekostd.Lib.PosixName
import Ekostd.File.Open
import Ekostd.Socket.Address
import Ekostd.Command.Names
import Ekostd.Names
import Ekostd.Lib.Tagged
import Ekostd.Print.Model
import Ekostd.Print.Lines
import Ekostd.Command.Inherit
import Ekostd.Path.FileName
import Ekostd.Lib.PosixMkdir
import Ekostd.File.CreateDirAll
import Ekostd.Fs.CreateDirAll
import Ekostd.Fs.Directories
import Ekostd.Lib.PosixClear
import Ekostd.File.TempDir
import Ekostd.Env
import Ekostd.Command.Environment
import Ekostd.Command.Ready
import Ekostd.Command.Reaped
import Ekostd.Lib.PosixWrite
import Ekostd.Mmap
import Ekostd.Thread.Refused
import Ekostd.WriteLoops
import Ekostd.File.BufWriter
import Ekostd.File.Stream
import Ekostd.File.Copy
import Ekostd.Lib.Heap
import Ekostd.Thread.Start.Owner
import Ekostd.Lib.CHeap
import Ekostd.Malloc
import Ekostd.Lib.PosixMmap
import Ekostd.Mmap.Handles
import Ekostd.Channel.Accesses
import Ekostd.Channel.Pipeline
import Ekostd.Socket.Exchange
import Ekostd.Lib.Parts
import Ekostd.Lib.Heaplets
import Ekostd.Thread.Start.Join
import Ekostd.Lib.Tape
import Ekostd.Lib.PosixFile
import Ekostd.File.Handle
import Ekostd.Descriptors
import Ekostd.Lib.PosixPrune
import Ekostd.Fs.Removal
import Ekostd.Lib.PosixEnv
import Ekostd.Variables
import Ekostd.Thread.ThreadLocal.Exit
import Ekostd.Lib.PosixLimits
import Ekostd.Lib.PosixCwd
import Ekostd.File.Absolute
import Ekostd.Lib.Cpuid
import Ekostd.Cpu
import Ekostd.Fs.Anywhere

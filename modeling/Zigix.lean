import Zigix.Crypto.ChaChaPoly
import Zigix.Crypto.Ed25519
import Zigix.Crypto.Field25519
import Zigix.Crypto.Field25519Spec
import Zigix.Crypto.Fips180
import Zigix.Crypto.Poly1305
import Zigix.Crypto.Poly1305Spec
import Zigix.Crypto.Sha2
import Zigix.Crypto.X25519
import Zigix.Fs.AllocBlocks
import Zigix.Fs.BitmapSearch
import Zigix.Fs.BlockCache
import Zigix.Fs.CacheView
import Zigix.Fs.CachedFrames
import Zigix.Fs.Description
import Zigix.Fs.DescriptionCount
import Zigix.Fs.Directory
import Zigix.Fs.DirectoryMap
import Zigix.Fs.ExtentTree
import Zigix.Fs.Extents
import Zigix.Fs.Fallocate
import Zigix.Fs.Fifo
import Zigix.Fs.FileRead
import Zigix.Fs.FreeBlocks
import Zigix.Fs.FreeBlocksSpec
import Zigix.Fs.FreeExact
import Zigix.Fs.FreeInodes
import Zigix.Fs.FreeWalk
import Zigix.Fs.InodeChecksum
import Zigix.Fs.Journal
import Zigix.Fs.JournalCrash
import Zigix.Fs.JournalReplay
import Zigix.Fs.JournalRevoke
import Zigix.Fs.JournalRuns
import Zigix.Fs.JournalScan
import Zigix.Fs.Mballoc
import Zigix.Fs.Path
import Zigix.Fs.PathText
import Zigix.Fs.PathWalk
import Zigix.Fs.Pipe
import Zigix.Fs.PipeEnds
import Zigix.Fs.PipeWake
import Zigix.Fs.Recovery
import Zigix.Fs.RecoveryAnswers
import Zigix.Fs.RecoverySafe
import Zigix.Fs.Tmpfs
import Zigix.Fs.TmpfsContents
import Zigix.Fs.TmpfsFiles
import Zigix.Fs.TmpfsNames
import Zigix.Fs.TmpfsOpen
import Zigix.Fs.WriteAhead
import Zigix.Fs.Xattrs
import Zigix.Lib.Bisect
import Zigix.Lib.Bits
import Zigix.Lib.Blocks
import Zigix.Lib.Bytes
import Zigix.Lib.Chains
import Zigix.Lib.Crc
import Zigix.Lib.Holders
import Zigix.Lib.Linked
import Zigix.Lib.Loop
import Zigix.Lib.Parts
import Zigix.Lib.Pieces
import Zigix.Lib.Radix
import Zigix.Lib.RefCount
import Zigix.Lib.Ring
import Zigix.Lib.Serial
import Zigix.Lib.Slots
import Zigix.Lib.Turns
import Zigix.Lib.Walk
import Zigix.Mm.Agree
import Zigix.Mm.Backing
import Zigix.Mm.BootMap
import Zigix.Mm.Cow
import Zigix.Mm.CowSpec
import Zigix.Mm.Fault
import Zigix.Mm.FaultSpec
import Zigix.Mm.HugeMmap
import Zigix.Mm.HugePages
import Zigix.Mm.HugeUnmap
import Zigix.Mm.Machine
import Zigix.Mm.MapFixed
import Zigix.Mm.MapSpec
import Zigix.Mm.Mmap
import Zigix.Mm.MmapSpec
import Zigix.Mm.Mprotect
import Zigix.Mm.Mremap
import Zigix.Mm.PageCache
import Zigix.Mm.PageCacheLists
import Zigix.Mm.PageCacheTable
import Zigix.Mm.PageCacheView
import Zigix.Mm.PageMap
import Zigix.Mm.PageMove
import Zigix.Mm.PageSearch
import Zigix.Mm.PageSupply
import Zigix.Mm.Pmm
import Zigix.Mm.PmmInv
import Zigix.Mm.Pte
import Zigix.Mm.Slab
import Zigix.Mm.SlabCalls
import Zigix.Mm.SlabLists
import Zigix.Mm.SlabRuns
import Zigix.Mm.SlabSpec
import Zigix.Mm.SlabSteps
import Zigix.Mm.Space
import Zigix.Mm.SpaceOps
import Zigix.Mm.Swap
import Zigix.Mm.SwapSpec
import Zigix.Mm.TableFrames
import Zigix.Mm.View
import Zigix.Mm.Vma
import Zigix.Mm.VmaContents
import Zigix.Mm.VmaRoom
import Zigix.Mm.VmaSpec
import Zigix.Mm.VmaView
import Zigix.Mm.Vmm
import Zigix.Mm.WriteXorExecute
import Zigix.Net.AckRobust
import Zigix.Net.Datagrams
import Zigix.Net.EndOfStream
import Zigix.Net.EndToEnd
import Zigix.Net.GracefulClose
import Zigix.Net.Handshake
import Zigix.Net.InFlight
import Zigix.Net.LossRecovery
import Zigix.Net.PacketInput
import Zigix.Net.PacketOutput
import Zigix.Net.Receive
import Zigix.Net.RttEstimate
import Zigix.Net.Send
import Zigix.Net.Sender
import Zigix.Net.SharedRing
import Zigix.Net.SlotOwners
import Zigix.Net.Socket
import Zigix.Net.SocketRuns
import Zigix.Net.Tcp
import Zigix.Net.TcpInput
import Zigix.Proc.AddressSpaces
import Zigix.Proc.Clone
import Zigix.Proc.CloneSpec
import Zigix.Proc.CopyOut
import Zigix.Proc.Elf
import Zigix.Proc.ElfOrder
import Zigix.Proc.ElfSpec
import Zigix.Proc.ForkFailure
import Zigix.Proc.ForkIsolation
import Zigix.Proc.Futex
import Zigix.Proc.FutexQueue
import Zigix.Proc.FutexWait
import Zigix.Proc.Getdents
import Zigix.Proc.PrivateMapping
import Zigix.Proc.Process
import Zigix.Proc.ProtectedPaths
import Zigix.Proc.RunQueues
import Zigix.Proc.SharedProtect
import Zigix.Proc.Signal
import Zigix.Proc.SignalMask
import Zigix.Proc.System
import Zigix.Proc.Threads
import Zigix.Proc.TimerTick
import Zigix.Proc.Traps
import Zigix.Proc.UserPointers
import Zigix.Proc.VectoredIo
import Zigix.Proc.Wait4
import Zigix.Proc.WriteProtect
import Zigix.Ssh.Handlers
import Zigix.Ssh.InputSafety
import Zigix.Ssh.Packet

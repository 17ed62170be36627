import Dancy.Lib.Run
import Dancy.Lib.Chain
import Dancy.Lib.Radix
import Dancy.Lib.Slots
import Dancy.Lib.Ring
import Dancy.Lib.Segments
import Dancy.Lib.Bits
import Dancy.Lib.Memory
import Dancy.Lib.Prog
import Dancy.Lib.Sort
import Dancy.Lib.Pieces
import Dancy.Lib.Bytes
import Dancy.Lib.Codec
import Dancy.Lib.Tape
import Dancy.Lib.Descent
import Dancy.Lib.Layout
import Dancy.Lib.Numeral
import Dancy.Lib.Transfer
import Dancy.Mm.Alloc
import Dancy.Heap.Map
import Dancy.Heap.Alloc
import Dancy.Tasks.Lists
import Dancy.Tasks.Runs
import Dancy.Tasks.Wait
import Dancy.Tasks.Reap
import Dancy.Pg.Tables
import Dancy.Pg.Check
import Dancy.Pg.Spaces
import Dancy.Pg.Mapping
import Dancy.Pg.Conserve
import Dancy.Pg.Kernel
import Dancy.Pg.KernelRuns
import Dancy.Files.Table
import Dancy.Files.Ops
import Dancy.Files.Getdents
import Dancy.Files.Spawn
import Dancy.Files.SpawnRuns
import Dancy.Vfs.Pipe
import Dancy.Vfs.Pty
import Dancy.Vfs.FatIo
import Dancy.Vfs.FatIoRuns
import Dancy.Vfs.Path
import Dancy.Vfs.PathRuns
import Dancy.Vfs.PtyEdit
import Dancy.Vfs.PtyEof
import Dancy.Vfs.PtyTyping
import Dancy.Boot.Memory
import Dancy.Boot.MemoryRuns
import Dancy.Boot.Export
import Dancy.Boot.ExportSafe
import Dancy.Boot.DbSafe
import Dancy.Boot.DbRuns
import Dancy.Boot.Ld
import Dancy.Console.Screen
import Dancy.Console.Cells
import Dancy.Console.Runs
import Dancy.Archive.Deflate
import Dancy.Archive.Huffman
import Dancy.Archive.RoundTrip
import Dancy.Archive.Source
import Dancy.Archive.Split
import Dancy.Archive.InflateSafe
import Dancy.Disk.Partitions
import Dancy.Disk.Scan
import Dancy.Disk.Iso
import Dancy.Exec.Coff
import Dancy.Exec.Elf
import Dancy.Libc.Alloc
import Dancy.Libc.AllocRuns
import Dancy.Libc.Format
import Dancy.Libc.FormatStandard
import Dancy.Libc.FormatText
import Dancy.Libc.FormatParse
import Dancy.Libc.FormatNumbers
import Dancy.Libc.FormatAgrees
import Dancy.Libc.FormatExact
import Dancy.Libc.Mktime
import Dancy.Libc.Stream
import Dancy.Libc.ReadRuns
import Dancy.Libc.Realloc
import Dancy.Libc.Strtol
import Dancy.Libc.Scan
import Dancy.Libc.ScanNumber
import Dancy.Libc.Seek
import Dancy.Libc.Getdelim
import Dancy.Libc.GetdelimRuns
import Dancy.Libc.WriteRuns
import Dancy.Libc.Glob
import Dancy.Libc.Strtod
import Dancy.Libc.StrtodBody
import Dancy.Libc.StrtodSubject
import Dancy.Libc.Select
import Dancy.Libc.Qsort
import Dancy.Libc.Strtok
import Dancy.Libc.Strftime
import Dancy.Shell.Vars
import Dancy.Shell.Scope
import Dancy.Shell.Token
import Dancy.Shell.Prompt
import Dancy.Shell.PromptColumns
import Dancy.Shell.PromptRuns
import Dancy.Shell.Rm
import Dancy.Shell.Hexdump
import Dancy.Syscall.Arg
import Dancy.Fat.Name
import Dancy.Fat.Table
import Dancy.Fat.File
import Dancy.Fat.Kept
import Dancy.Fat.Areas
import Dancy.Fat.NameRuns
import Dancy.Common.Utf8
import Dancy.Common.Epoch
import Dancy.Common.Ttf
import Dancy.Common.Rtc
import Dancy.Kmsg.Write
import Dancy.Kmsg.Read
import Dancy.Kmsg.ReadEnds
import Dancy.Link.Section
import Dancy.Link.Library
import Dancy.Link.Validate
import Dancy.Link.Archive
import Dancy.Link.ArchiveRuns
import Dancy.Block.Units
import Dancy.Block.Floppy
import Dancy.Block.Ide
import Dancy.Block.Ahci
import Dancy.Usb.BulkOnly
import Dancy.Usb.Descriptors
import Dancy.Usb.DescriptorsStart
import Dancy.Usb.MscDir
import Dancy.Fb.Pages
import Dancy.Fb.User
import Dancy.Network.E1000

import Tcb.Core.Run
import Tcb.Core.CString
import Tcb.Core.Strtol
import Tcb.Core.ParentTable
import Tcb.Core.Preorder
import Tcb.Core.FirstWins
import Tcb.Core.Json
import Tcb.Core.Xml
import Tcb.Core.Numerals
import Tcb.Core.Scanning
import Tcb.Core.JsonText
import Tcb.Core.XmlText
import Tcb.Core.Literals
import Tcb.Core.Shell
import Tcb.Fs2Xml.Inodes
import Tcb.Fs2Xml.Split
import Tcb.Fs2Xml.MergeFile
import Tcb.Fs2Xml.TableShape
import Tcb.Fs2Xml.Members
import Tcb.Fs2Xml.TarHeader
import Tcb.Fs2Xml.UnionByPath
import Tcb.Fs2Xml.FirstHeaders
import Tcb.Fs2Xml.Paths
import Tcb.Fs2Xml.WalkDir
import Tcb.Fs2Xml.Manifest
import Tcb.Fs2Xml.Termination
import Tcb.Fs2Xml.Placement
import Tcb.Fs2Xml.Visits
import Tcb.Fs2Xml.Untar
import Tcb.Fs2Xml.Main
import Tcb.Fs2Xml.Forest
import Tcb.Fs2Xml.Agreement
import Tcb.Fs2Xml.Strings
import Tcb.Fs2Xml.Commands
import Tcb.Fs2Xml.OwnBytes
import Tcb.Fs2Xml.Progress
import Tcb.Fs2Xml.Spellings
import Tcb.Fs2Xml.WalkBounds
import Tcb.Fs2Xml.MemberTypes
import Tcb.Fs2Xml.NameFields
import Tcb.Fs2Xml.Capacity
import Tcb.Fs2Xml.Storage
import Tcb.Fs2Xml.Collisions
import Tcb.Fs2Xml.ManifestText
import Tcb.Fs2Xml.Hierarchy
import Tcb.Fs2Xml.Mount
import Tcb.Fs2Xml.Pipeline
import Tcb.Fs2Xml.Complete
import Tcb.Core.Logged
import Tcb.Mke2Img.SourceTree
import Tcb.Mke2Img.Ext2fs
import Tcb.Mke2Img.MemoryImage
import Tcb.Mke2Img.TrawlDir
import Tcb.Mke2Img.TreeCopy
import Tcb.Mke2Img.Attributes
import Tcb.Core.Traced
import Tcb.Mke2Img.Calls
import Tcb.Mke2Img.Answers
import Tcb.Mke2Img.Disk
import Tcb.Mke2Img.Handles
import Tcb.Mke2Img.Orphans
import Tcb.Mke2Img.Replay
import Tcb.Mke2Img.Buffers
import Tcb.Mke2Img.Itinerary
import Tcb.Mke2Img.Consistency
import Tcb.Mke2Img.Main
import Tcb.Core.LastWrite
import Tcb.Core.Masks
import Tcb.Qemu.HwFill
import Tcb.Qemu.PageWalk
import Tcb.Linux.Fault
import Tcb.Linux.TlbProbe
import Tcb.Linux.Ptrace
import Tcb.Core.Returning
import Tcb.Linux.Keyboard
import Tcb.Linux.SoundRuns

import Recovery.Lib.LittleEndian
import Recovery.Lib.Probing
import Recovery.Lib.Crash
import Recovery.Lib.Arrays
import Recovery.Lib.Abort
import Recovery.Lib.Shell
import Recovery.Lib.Slots
import Recovery.Lib.Pouring
import Recovery.Bytes
import Recovery.Text
import Recovery.Buffer
import Recovery.Scanf
import Recovery.Paths
import Recovery.Verifier
import Recovery.Vold.Command
import Recovery.Vold.Waiters
import Recovery.Vold.Dispatcher
import Recovery.Vold.Listing
import Recovery.Roots.Mounts
import Recovery.Vold.Monitor
import Recovery.Keys
import Recovery.Zip.Hash
import Recovery.Zip.Archive
import Recovery.Zip.Directory
import Recovery.Zip.Bounds
import Recovery.Zip.Extract
import Recovery.Zip.Contents
import Recovery.Zip.Selection
import Recovery.Zip.Extracted
import Recovery.Zip.SignedArchive
import Recovery.Patch.Retouch
import Recovery.Patch.Masking
import Recovery.Patch.Room
import Recovery.Patch.Source
import Recovery.Patch.System
import Recovery.Patch.Load
import Recovery.Patch.BsPatch
import Recovery.Patch.ImgPatch
import Recovery.Patch.FreeCache
import Recovery.Patch.Flash
import Recovery.Patch.Announced
import Recovery.Patch.ApplyPatch
import Recovery.Patch.Check
import Recovery.Patch.Decoding
import Recovery.Patch.Emit
import Recovery.Patch.Emmc
import Recovery.Patch.Frame
import Recovery.Patch.Install
import Recovery.Patch.Installed
import Recovery.Patch.Restart
import Recovery.Patch.PartitionWrite
import Recovery.Diff.SuffixSort
import Recovery.Diff.Groups
import Recovery.Diff.SuffixList
import Recovery.Diff.BsDiff
import Recovery.Diff.Encode
import Recovery.Diff.RoundTrip
import Recovery.Diff.ImgDiff
import Recovery.Diff.Layout
import Recovery.Diff.Chunks
import Recovery.Diff.ImgRoundTrip
import Recovery.Diff.Parallel
import Recovery.Diff.Merging
import Recovery.Diff.Splitting
import Recovery.Diff.ZipRoundTrip
import Recovery.Edify.Discipline
import Recovery.Edify.Expr
import Recovery.Edify.Lexer
import Recovery.Edify.Parser
import Recovery.Edify.Scripts
import Recovery.Edify.Semantics
import Recovery.Edify.Trees
import Recovery.Edify.Updater
import Recovery.Edify.Compare
import Recovery.Edify.Literals
import Recovery.Edify.Parents
import Recovery.Install.UpdateBinary
import Recovery.Boot.Message
import Recovery.Boot.Restart
import Recovery.Mtd.Utils
import Recovery.Mtd.Blocks
import Recovery.Mtd.Writer
import Recovery.Mtd.Reader
import Recovery.Mtd.Stream
import Recovery.Boot.Storage
import Recovery.Roots.Volumes
import Recovery.Roots.Sdcard
import Recovery.Dedupe.Integrity
import Recovery.Dedupe.Store
import Recovery.Roots.DataMedia
import Recovery.Roots.Format
import Recovery.Nandroid.Images
import Recovery.Nandroid.Wipe
import Recovery.Mmc.Table
import Recovery.Props.Map
import Recovery.Ui.Keys
import Recovery.Ui.Log
import Recovery.Ui.Menu
import Recovery.Ui.MenuText
import Recovery.Ui.Touch
import Recovery.Menus.Advanced
import Recovery.Menus.Files
import Recovery.Menus.Filtered
import Recovery.Adb.Sockets
import Recovery.Adb.Streams
import Recovery.Adb.Connection
import Recovery.Adb.Sideload

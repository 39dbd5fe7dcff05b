import QemuFormal.Lib.ChainedTable
import QemuFormal.Lib.Mealy
import QemuFormal.Lib.BitArith
import QemuFormal.QObject.Core
import QemuFormal.Util.Cutils
import QemuFormal.Util.Unicode
import QemuFormal.Util.Keyval
import QemuFormal.Util.KeyvalTheorems
import QemuFormal.Json.Lexer
import QemuFormal.Json.Parser
import QemuFormal.Json.Streamer
import QemuFormal.Json.Resync
import QemuFormal.Json.Writer
import QemuFormal.Util.UnicodeTheorems
import QemuFormal.Json.Tokens
import QemuFormal.Json.WriterTheorems
import QemuFormal.Json.LexerTheorems
import QemuFormal.Json.ParserTheorems
import QemuFormal.Json.StreamerTheorems
import QemuFormal.Json.RoundTrip
import QemuFormal.Lib.IntervalList
import QemuFormal.Memory.FlatView
import QemuFormal.Memory.AddressMap
import QemuFormal.Memory.RenderTheorems
import QemuFormal.Memory.SimplifyTheorems
import QemuFormal.Memory.Topology
import QemuFormal.Lib.Swar
import QemuFormal.Migration.Xbzrle
import QemuFormal.Migration.XbzrleTheorems
import QemuFormal.Migration.XbzrleDecodeTheorems
import QemuFormal.Migration.XbzrleAvx512
import QemuFormal.Migration.XbzrleAvx512Theorems
import QemuFormal.Lib.Word
import QemuFormal.Tcg.CarryOps
import QemuFormal.Tcg.CarryFold
import QemuFormal.Tcg.FoldAddSub
import QemuFormal.Tcg.CarryFoldTheorems
import QemuFormal.Lib.Lap
import QemuFormal.Virtio.Virtqueue
import QemuFormal.Virtio.VirtqueueTheorems
import QemuFormal.Lib.Bits
import QemuFormal.Util.Bitmap
import QemuFormal.Util.BitmapTheorems
import QemuFormal.Util.BitmapCopy
import QemuFormal.Util.HostUtils
import QemuFormal.Util.HostUtilsMul
import QemuFormal.Util.HostUtilsDiv
import QemuFormal.Util.Range
import QemuFormal.Util.RangeTheorems
import QemuFormal.Util.ReservedRegion
import QemuFormal.Lib.Scatter
import QemuFormal.Lib.Rank
import QemuFormal.Util.Iov
import QemuFormal.Util.IovTheorems
import QemuFormal.Util.Fifo8
import QemuFormal.Util.Fifo8Theorems
import QemuFormal.Net.Checksum
import QemuFormal.Net.ChecksumTheorems
import QemuFormal.Util.Int128
import QemuFormal.Util.Int128Theorems
import QemuFormal.Util.HostUtils256
import QemuFormal.QObject.BlockQdict
import QemuFormal.QObject.BlockQdictTheorems
import QemuFormal.Lib.ByteMem
import QemuFormal.Util.BufferIsZero
import QemuFormal.Util.BufferIsZeroTheorems
import QemuFormal.Lib.CarryLess
import QemuFormal.Crypto.Clmul
import QemuFormal.Crypto.ClmulTheorems
import QemuFormal.Block.Qcow2
import QemuFormal.Block.Qcow2Theorems
import QemuFormal.Virtio.InOrder
import QemuFormal.Virtio.InOrderTheorems
import QemuFormal.Virtio.Notify
import QemuFormal.Virtio.NotifyTheorems
import QemuFormal.Util.Hbitmap
import QemuFormal.Lib.Blocks
import QemuFormal.Util.HbitmapInv
import QemuFormal.Util.HbitmapTheorems
import QemuFormal.Util.HbitmapIter
import QemuFormal.Util.HbitmapSearch
import QemuFormal.Util.HbitmapUpdate
import QemuFormal.Lib.Simulation
import QemuFormal.Util.HbitmapRun
import QemuFormal.Util.HbitmapSerialize
import QemuFormal.Util.HbitmapMerge
import QemuFormal.Util.HbitmapTruncate
import QemuFormal.Migration.DirtyBitmap
import QemuFormal.Migration.DirtyBitmapTheorems

import LightRpc.ReadPath
import LightRpc.SlotSafety
import LightRpc.LargeTransfer
import LightRpc.Handshake
import LightRpc.PollSafety
import LightRpc.LargeSendSafety
import LightRpc.PendingSafety
import LightRpc.FlowProgress
import LightRpc.Framing
import LightRpc.Negotiation
import LightRpc.WriteErrors
import LightRpc.InputStream
import LightRpc.PostRecv
import LightRpc.EventDispatcher
import LightRpc.SendCutRetry
import LightRpc.SendCutNotify
import LightRpc.SendCutBytes
import LightRpc.LargeBlockSafety
import LightRpc.IOBufEquals
import LightRpc.ThreadKeys
import LightRpc.WorkStealing
import LightRpc.AbaFreeList
import LightRpc.BlockPoolStart
import LightRpc.ReaderWriterLock
import LightRpc.BthreadId
import LightRpc.TimerWakeups
import LightRpc.StreamBlocks
import LightRpc.IOBufRefines
import LightRpc.IOBufCounts
import LightRpc.IOBufChains
import LightRpc.IOBufKept
import LightRpc.Mutex

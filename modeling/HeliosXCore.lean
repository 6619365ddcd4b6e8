import HeliosXCore.DpCom.Earliest
import HeliosXCore.DpCom.Rename
import HeliosXCore.DpCom.Refusal
import HeliosXCore.DpCom.HandOff
import HeliosXCore.DpCom.Table
import HeliosXCore.Fetch.Order
import HeliosXCore.Rrf.Forward
import HeliosXCore.Ex.Branch
import HeliosXCore.Ex.Formats
import HeliosXCore.Rob.Low
import HeliosXCore.Sw.ExactlyOnce
import HeliosXCore.Sw.InOrder
import HeliosXCore.Sw.Pair
import HeliosXCore.Sw.Capture
import HeliosXCore.Mem.WriteBack
import HeliosXCore.Mem.Ring
import HeliosXCore.Mem.Path
import HeliosXCore.Mem.Top
import HeliosXCore.Core.LostWakeup
import HeliosXCore.Core.Wakeup
import HeliosXCore.Core.Refine
import HeliosXCore.Core.Schedule
import HeliosXCore.Core.Fair
import HeliosXCore.Core.FullSpeed
import HeliosXCore.Core.Rv32i
import HeliosXCore.Core.Memory
import HeliosXCore.Core.Values

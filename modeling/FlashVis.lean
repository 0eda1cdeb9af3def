import FlashVis.System.Epoch
import FlashVis.System.Race
import FlashVis.System.Rebase
import FlashVis.Churn.Ceiling
import FlashVis.System.Join
import FlashVis.System.Shipping
import FlashVis.System.Workload
import FlashVis.Fat.WearLevel
import FlashVis.Fat.BlockDevice
import FlashVis.Fat.WholeChip
import FlashVis.Player.Lined
import FlashVis.Player.Replay
import FlashVis.Player.Skew
import FlashVis.Player.Unwind
import FlashVis.Page.Sweep
import FlashVis.Model.RingRuns
import FlashVis.Churn.Shares
import FlashVis.Bindings.Lifecycle
import FlashVis.Page.Counts
import FlashVis.Player.Granularity
import FlashVis.Player.ChipHistory
import FlashVis.Player.Warmth
import FlashVis.Player.Headroom
import FlashVis.Bindings.Spi
import FlashVis.System.LastAck
import FlashVis.Fat.Wear
import FlashVis.Bindings.LfsMap
import FlashVis.Bindings.Own

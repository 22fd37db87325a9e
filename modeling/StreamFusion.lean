import StreamFusion.State.Restore
import StreamFusion.Aggregate.SelectDistinct
import StreamFusion.Aggregate.DecimalSum
import StreamFusion.Aggregate.MiniBatch.Run
import StreamFusion.Aggregate.MiniBatch.FlushOrder
import StreamFusion.State.TimerService.Correct
import StreamFusion.RegularJoin.Associations
import StreamFusion.RegularJoin.LegacyRestore
import StreamFusion.Window.SessionRuns
import StreamFusion.Exchange.Delivery
import StreamFusion.Exchange.BinaryRow.Keys
import StreamFusion.TopN.FastPaths
import StreamFusion.BatchCuts
import StreamFusion.TemporalJoin.Stored
import StreamFusion.Deduplicate.RowTime
import StreamFusion.Deduplicate.Replay
import StreamFusion.Window.Millis
import StreamFusion.UnaryStage

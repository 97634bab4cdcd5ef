import Procluster.Library.EventRuns
import Procluster.Library.KeyedFold
import Procluster.Library.DecimalText
import Procluster.Aggregate
import Procluster.TradeLedger
import Procluster.GapReports
import Procluster.RedisCache
import Procluster.BinStorage
import Procluster.Library.NewestFirst
import Procluster.QueryCandles
import Procluster.WsClient
import Procluster.Library.RWMutex
import Procluster.SubKey
import Procluster.Hub
import Procluster.HubLock
import Procluster.LiveIngest
import Procluster.CandleLabels
import Procluster.SavedTrades
import Procluster.LiveHashes
import Procluster.LiveUpdates
import Procluster.MergedCells
import Procluster.HubMessages
import Procluster.Validate
import Procluster.CandlesApi
import Procluster.ServedHistory
import Procluster.DeltaTotals
import Procluster.HashOrder
import Procluster.CandleSummary
import Procluster.MapCandle
import Procluster.Library.ReplacingMerge
import Procluster.Library.ScoredSet
import Procluster.TableMerges
import Procluster.ChartSeries
import Procluster.FinalCandles
import Procluster.GapFill
import Procluster.HubEffects
import Procluster.HubRegistry
import Procluster.ConnectedClients
import Procluster.Library.Interleaving
import Procluster.ServedSubs
import Procluster.ClientRequests
import Procluster.CloseDelivery
import Procluster.CandleEnds
import Procluster.TradeCells
import Procluster.MergeApprox
import Procluster.HistoryLoad
import Procluster.DailyLoads
import Procluster.DomStreams
import Procluster.PriceGrids
import Procluster.RoleHeader
import Procluster.MergedBins
import Procluster.Library.Neighbours
import Procluster.Imbalances
import Procluster.SparseBins
import Procluster.SpotGapFill
import Procluster.Library.LargestFirst
import Procluster.ValueArea
import Procluster.SubKeyBytes
import Procluster.Library.OrderedPaging
import Procluster.Library.Scales
import Procluster.Library.SlidingWindows
import Procluster.DomBins
import Procluster.NestedTimeframes
import Procluster.LastCandles
import Procluster.CompressionLevels
import Procluster.ClusterSearch
import Procluster.ClusterWindows
import Procluster.TradeCsv
import Procluster.TradeMessages
import Procluster.Library.CyclicWindow
import Procluster.LogBuffer
import Procluster.DigitRounding
import Procluster.Library.ReferenceCounts
import Procluster.ConnectionLimit
import Procluster.WsSession
import Procluster.SettledSession
import Procluster.LiveAndLoaded
import Procluster.LoadedCandles
import Procluster.CachedLoads
import Procluster.HealedFeed
import Procluster.DownloadCache
import Procluster.KeptFiles
import Procluster.HistoryJobs
import Procluster.WatchedJobs
import Procluster.Library.PendingDeletions
import Procluster.TickerTable
import Procluster.TickerRestarts
import Procluster.ChartViewport
import Procluster.ViewportRuns
import Procluster.ViewportDrags
import Procluster.ViewportFits

import PineForge.Machine.Arith
import PineForge.Machine.FloatOrder
import PineForge.Machine.Nearest
import PineForge.Machine.FloatRound
import PineForge.Machine.FloatArith
import PineForge.Machine.Binary64
import PineForge.Settlement.Basic
import PineForge.Settlement.Stage
import PineForge.Settlement.Commit
import PineForge.Settlement.OneLot
import PineForge.Settlement.Fused
import PineForge.Settlement.Sound
import PineForge.Settlement.Effects
import PineForge.Settlement.Projection
import PineForge.Settlement.Fifo
import PineForge.Settlement.Conservation
import PineForge.Settlement.Account
import PineForge.Path.Linear
import PineForge.Path.Best
import PineForge.Matching.Geometry
import PineForge.Matching.Path
import PineForge.Matching.Law
import PineForge.Matching.FirstReach
import PineForge.Matching.Birth
import PineForge.Machine.Command
import PineForge.Orders.Types
import PineForge.Orders.Rows
import PineForge.Machine.Segments
import PineForge.Machine.Assoc
import PineForge.Calc.Plan
import PineForge.Calc.Split
import PineForge.Calc.Keys
import PineForge.Calc.Tiling
import PineForge.Calendar.Civil
import PineForge.Calendar.Session
import PineForge.Calendar.Interval
import PineForge.Calendar.Cycle
import PineForge.Calendar.Tiling
import PineForge.Calendar.Spans
import PineForge.Calendar.Membership
import PineForge.Timeframe.Schedule
import PineForge.Timeframe.Windows
import PineForge.Timeframe.Clock
import PineForge.Timeframe.Periods
import PineForge.Timeframe.Zones
import PineForge.Timeframe.Nominal
import PineForge.Timeframe.Buckets
import PineForge.Timeframe.Native
import PineForge.Timeframe.Keyed
import PineForge.Timeframe.Aggregator
import PineForge.Timeframe.Reports
import PineForge.Runner.Json
import PineForge.Runner.ReportDelta
import PineForge.Runner.Document
import PineForge.Runner.JsonParser
import PineForge.Runner.ParseDump
import PineForge.Runner.Grammar
import PineForge.Runner.StringText
import PineForge.Runner.ValueText
import PineForge.Runner.Readable
import PineForge.Runner.Canonical
import PineForge.Runner.RatioCursor
import PineForge.Runner.Stale
import PineForge.Runner.Store
import PineForge.Runner.Checkpoints
import PineForge.Runner.LedgerRuns
import PineForge.Runner.Tables
import PineForge.Machine.Endian
import PineForge.Machine.Aligned
import PineForge.Book.Levels
import PineForge.Book.Spill
import PineForge.Book.Shelves
import PineForge.Book.Allowances
import PineForge.Book.Waking
import PineForge.Journal.Archive
import PineForge.Journal.Events
import PineForge.Machine.Bisect
import PineForge.Journal.TailLog
import PineForge.Journal.Store
import PineForge.Journal.Resident
import PineForge.Journal.Pages
import PineForge.Journal.Lookups
import PineForge.Journal.Transparent
import PineForge.Intraday.Cap
import PineForge.Intraday.Runs
import PineForge.Intraday.Bound
import PineForge.Intraday.Lending
import PineForge.ExitLegs.Lifecycle
import PineForge.ExitLegs.Performs
import PineForge.ExitLegs.Histories
import PineForge.ExitLegs.Linear
import PineForge.Ticks.Volume
import PineForge.Ticks.Exact
import PineForge.PositionTail.Certificate
import PineForge.PositionTail.Summary
import PineForge.PositionTail.Facts
import PineForge.PositionTail.Replay
import PineForge.Risk.Ledger
import PineForge.Risk.Measured
import PineForge.Risk.Run
import PineForge.SessionTime.UtcBars
import PineForge.SessionTime.LocalTime
import PineForge.SessionTime.Arguments
import PineForge.SessionTime.Readings
import PineForge.SessionTime.DayRing
import PineForge.Machine.Generator
import PineForge.MultiDay.Feeds
import PineForge.MultiDay.Merge
import PineForge.MultiDay.Opens
import PineForge.MultiDay.Lookups
import PineForge.MultiDay.Stamps
import PineForge.MultiDay.Window
import PineForge.MultiDay.Partition
import PineForge.Machine.ByteFile
import PineForge.Trades.Records
import PineForge.Trades.Storage
import PineForge.Trades.Ledger
import PineForge.Trades.Frames
import PineForge.Trades.Stored
import PineForge.Trades.Readings
import PineForge.Trades.Erasing
import PineForge.Trades.Atomic
import PineForge.Machine.Window
import PineForge.History.Owner
import PineForge.History.Records
import PineForge.History.Visits
import PineForge.History.Runs
import PineForge.Machine.Bitmap
import PineForge.Arena.Pool
import PineForge.Arena.Windows
import PineForge.Arena.Regions
import PineForge.Arena.Chunks
import PineForge.Arena.Growth
import PineForge.Arena.Extents
import PineForge.Arena.Calls
import PineForge.Arena.Runs
import PineForge.IdPair.ByteFold
import PineForge.Machine.Avl
import PineForge.DiskTable.Table
import PineForge.DiskTable.Shape
import PineForge.DiskTable.Rotations
import PineForge.DiskTable.Balance
import PineForge.DiskTable.Walks
import PineForge.DiskTable.Insertion
import PineForge.DiskTable.Runs
import PineForge.Resident.Table
import PineForge.Resident.Sound
import PineForge.Resident.Calls
import PineForge.Resident.Runs
import PineForge.Machine.Runs
import PineForge.PageCache.Cache
import PineForge.PageCache.Lines
import PineForge.PageCache.Moves
import PineForge.PageCache.Calls
import PineForge.PageCache.Runs
import PineForge.Indicators.ExtremeRing
import PineForge.Machine.MergeRuns
import PineForge.Scratch.Sequence
import PineForge.Scratch.Rows
import PineForge.Scratch.Sorting
import PineForge.Machine.Probing
import PineForge.IdPair.Store
import PineForge.IdPair.Index
import PineForge.IdPair.Runs
import PineForge.Series.Values
import PineForge.Series.Owners
import PineForge.Series.Objects
import PineForge.Series.Rings
import PineForge.Series.Runs
import PineForge.Machine.Boundaries
import PineForge.Text.Numbers
import PineForge.Text.Scans
import PineForge.Text.Exact
import PineForge.IdPair.SlabFold

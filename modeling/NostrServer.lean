import NostrServer.Lib.Probing
import NostrServer.Lib.Parking
import NostrServer.Lib.Storage
import NostrServer.Lib.Recordset
import NostrServer.Lib.KeyRange
import NostrServer.Lib.Lines
import NostrServer.Lib.Runs
import NostrServer.Lib.LatestMap
import NostrServer.Lib.SlidingWindow
import NostrServer.Lib.Positional
import NostrServer.Lib.Regrouping
import NostrServer.Lib.Words
import NostrServer.Binary
import NostrServer.Structured
import NostrServer.Event
import NostrServer.Filter
import NostrServer.Fulltext
import NostrServer.Indexes
import NostrServer.Search
import NostrServer.Karma
import NostrServer.Reference
import NostrServer.Parsing
import NostrServer.Codec
import NostrServer.TagTable
import NostrServer.TagSlots
import NostrServer.Selection
import NostrServer.KarmaLedger
import NostrServer.KarmaRuns
import NostrServer.App
import NostrServer.Peer
import NostrServer.Outcomes
import NostrServer.AppSteps
import NostrServer.Deletion
import NostrServer.Server
import NostrServer.ReferenceServer
import NostrServer.Effects
import NostrServer.AttachmentIndex
import NostrServer.AttachmentGc
import NostrServer.Steps
import NostrServer.AttachmentRuns
import NostrServer.Pow
import NostrServer.Admission
import NostrServer.Removal
import NostrServer.Acknowledge
import NostrServer.Counting
import NostrServer.Values
import NostrServer.Newest
import NostrServer.Lossless
import NostrServer.Replaceable
import NostrServer.Race
import NostrServer.Collecting
import NostrServer.Uploads
import NostrServer.Retrieval
import NostrServer.Connection
import NostrServer.Subscriptions
import NostrServer.Authentication
import NostrServer.Leaks
import NostrServer.Delivery
import NostrServer.Naming
import NostrServer.Spelling
import NostrServer.Prefixes
import NostrServer.RateLimiter
import NostrServer.Oversize
import NostrServer.Completion
import NostrServer.Bech32
import NostrServer.Keys
import NostrServer.Encryption
import NostrServer.DataParts
import NostrServer.Tokens
import NostrServer.Telemetry.DecimalText
import NostrServer.Telemetry.Lowering
import NostrServer.Telemetry.Numerals
import NostrServer.Telemetry.Labels
import NostrServer.Telemetry.Collector
import NostrServer.Telemetry.Exposition
import NostrServer.Telemetry.StateSets
import NostrServer.Telemetry.Families
import NostrServer.Telemetry.Reports
import NostrServer.Telemetry.Scavengers
import NostrServer.Telemetry.Metrics
import NostrServer.Orphans
import NostrServer.Replica
import NostrServer.Acceptance
import NostrServer.Replies
import NostrServer.Lib.Cutoff
import NostrServer.Lib.Scoring
import NostrServer.Lib.SortedTable
import NostrServer.Relevance
import NostrServer.Requests
import NostrServer.Pacing
import NostrServer.LiveStream
import NostrServer.Lib.Checking
import NostrServer.ErrorDetection
import NostrServer.HomeUsers
import NostrServer.Files
import NostrServer.Nip05
import NostrServer.Interruption
import NostrServer.Lib.AggregateBy
import NostrServer.Lib.Indexing
import NostrServer.Routing

import ProjectOS.Api.Supervisor
import ProjectOS.Agents.Questions
import ProjectOS.Agents.Taint
import ProjectOS.Sched.RoundRobin
import ProjectOS.Domain.Events
import ProjectOS.Sched.Supersession
import ProjectOS.Ingest.Dedup
import ProjectOS.Ingest.Shapes
import ProjectOS.Gateway.Egress
import ProjectOS.Gateway.Completions
import ProjectOS.Ingest.Resampler
import ProjectOS.Ingest.Intake
import ProjectOS.Ingest.Overlaps
import ProjectOS.Ingest.Windows
import ProjectOS.Ingest.Resumption
import ProjectOS.Api.IngestOps
import ProjectOS.Store.TempFiles
import ProjectOS.Api.Export
import ProjectOS.Api.Opening
import ProjectOS.Server.Viewers
import ProjectOS.Api.Follow
import ProjectOS.Agents.Isolation
import ProjectOS.Agents.Snapshots
import ProjectOS.Log.Digest
import ProjectOS.Log.Convergence
import ProjectOS.Sched.Firings
import ProjectOS.Ingest.Dispositions
import ProjectOS.Ingest.Headings
import ProjectOS.Ingest.Citations
import ProjectOS.Gateway.EventLines
import ProjectOS.Ingest.SegmentRecords
import ProjectOS.Gateway.Embeddings
import ProjectOS.Ingest.Sweeps
import ProjectOS.Ingest.TokenCounts
import ProjectOS.Ingest.Reuse
import ProjectOS.Server.Placement
import ProjectOS.Gateway.Bodies
import ProjectOS.Gateway.Pulls
import ProjectOS.Store.Sweep
import ProjectOS.Ingest.ChunkLimit
import ProjectOS.Api.Drain
import ProjectOS.Server.Cookies
import ProjectOS.Capabilities.Sync
import ProjectOS.Ingest.RawStream
import ProjectOS.Api.CostRollup
import ProjectOS.Ui.EchoRun
import ProjectOS.Ui.ApiStream
import ProjectOS.Gateway.Transcripts

import Quitsies.Service.AddWinner
import Quitsies.Service.DeleteRace
import Quitsies.Service.Refinement
import Quitsies.Tcp.Rejection
import Quitsies.Tcp.Residue
import Quitsies.Service.Decoding
import Quitsies.Service.Mutation
import Quitsies.Tcp.Asio
import Quitsies.Tcp.Invariant
import Quitsies.Tcp.Protocol
import Quitsies.Tcp.Server
import Quitsies.Tcp.Timeouts
import Quitsies.Service.Lifetime
import Quitsies.Stats.Aggregator
import Quitsies.Tcp.Shutdown
import Quitsies.Tcp.Provenance
import Quitsies.Tcp.StorageStream
import Quitsies.Tcp.Payload
import Quitsies.Tcp.ByteCount
import Quitsies.Tcp.Header
import Quitsies.Tcp.Terminator
import Quitsies.Service.Lookup
import Quitsies.Tcp.Ignored
import Quitsies.Tcp.ByteLimit
import Quitsies.Service.Failures
import Quitsies.Stats.Statsd
import Quitsies.Interaction.Throwing
import Quitsies.Stats.Background
import Quitsies.Stats.Server
import Quitsies.Cli.Handler
import Quitsies.Cli.Options
import Quitsies.Cli.Variables
import Quitsies.Db.Opening
import Quitsies.Service.StartUp
import Quitsies.Text.Json
import Quitsies.Service.BackupInfo
import Quitsies.Interaction.Linear
import Quitsies.Service.Linearization
import Quitsies.Service.Conversation
import Quitsies.Interaction.Relabel
import Quitsies.Service.Serving
import Quitsies.Service.Connections
import Quitsies.Interaction.Census
import Quitsies.Service.Counted
import Quitsies.Stats.Periods
import Quitsies.Tcp.Deadline
import Quitsies.Tcp.Bounded
import Quitsies.Cli.Meaning
import Quitsies.Interaction.Progress
import Quitsies.Service.Draining
import Quitsies.Service.Framing
import Quitsies.Service.Backup
import Quitsies.Service.Lives
import Quitsies.Service.Reported
import Quitsies.Tcp.Transcript
import Quitsies.Service.Hearing
import Quitsies.Service.Streams

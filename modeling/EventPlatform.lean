import EventPlatform.Segment
import EventPlatform.Keyed
import EventPlatform.BigRat
import EventPlatform.BigRat.Rounding
import EventPlatform.Json
import EventPlatform.Json.Encode
import EventPlatform.Json.Raw
import EventPlatform.Time.Civil
import EventPlatform.Time.Rfc3339
import EventPlatform.Events.Envelope
import EventPlatform.Events.Payload
import EventPlatform.PubSub
import EventPlatform.Notification.Consumer
import EventPlatform.Notification.Delivery
import EventPlatform.Net
import EventPlatform.Http.Header
import EventPlatform.Http.Url
import EventPlatform.Http.Mux
import EventPlatform.Http.Proxy
import EventPlatform.Http.Response
import EventPlatform.Http.Relay
import EventPlatform.Http.Escape
import EventPlatform.Auth
import EventPlatform.Httpx
import EventPlatform.Httpx.Middleware
import EventPlatform.Relational.Table
import EventPlatform.Interaction.Program
import EventPlatform.Interaction.Pool
import EventPlatform.Ethereum.Hex
import EventPlatform.Ethereum.Types
import EventPlatform.Ethereum.Word
import EventPlatform.ChainMonitor.Erc20
import EventPlatform.ChainMonitor.Store
import EventPlatform.ChainMonitor.MemStore
import EventPlatform.ChainMonitor.PostgresStore
import EventPlatform.ChainMonitor.Upsert
import EventPlatform.ChainMonitor.Monitor
import EventPlatform.ChainMonitor.TransferLog
import EventPlatform.ChainMonitor.World
import EventPlatform.ChainMonitor.Chain
import EventPlatform.ChainMonitor.Outline
import EventPlatform.ChainMonitor.Interchange
import EventPlatform.ChainMonitor.Tracking
import EventPlatform.ChainMonitor.WellFormed
import EventPlatform.ChainMonitor.Agreement
import EventPlatform.ChainMonitor.Reorg
import EventPlatform.ChainMonitor.StableChain
import EventPlatform.ChainMonitor.Provenance
import EventPlatform.ChainMonitor.Persistence
import EventPlatform.ChainMonitor.Replay
import EventPlatform.ChainMonitor.Finality
import EventPlatform.ChainMonitor.Confirmation
import EventPlatform.ChainMonitor.Incremental
import EventPlatform.ChainMonitor.Convergence
import EventPlatform.ChainMonitor.Frame
import EventPlatform.Gateway.RateLimit
import EventPlatform.Gateway.Denial
import EventPlatform.Gateway.RedisRateLimit
import EventPlatform.Gateway.SharedLimit
import EventPlatform.Users.Store
import EventPlatform.Users.Service
import EventPlatform.Users.Registration
import EventPlatform.Users.Mailbox
import EventPlatform.Users.Interchange
import EventPlatform.Users.Routes
import EventPlatform.Wallet.Routes
import EventPlatform.Wallet.Service
import EventPlatform.Wallet.Listing
import EventPlatform.Gateway.Handler
import EventPlatform.Gateway.Identity
import EventPlatform.Gateway.Relay
import EventPlatform.Gateway.Stripping
import EventPlatform.Gateway.ClientIP
import EventPlatform.Margin.Engine
import EventPlatform.Margin.Valuation
import EventPlatform.Margin.Status
import EventPlatform.Margin.Printed
import EventPlatform.Margin.Assets
import EventPlatform.Margin.Haircut
import EventPlatform.Margin.Service
import EventPlatform.Interaction.Simulation
import EventPlatform.Platform.Joint
import EventPlatform.Platform.Users
import EventPlatform.Platform.Wallets
import EventPlatform.Strconv
import EventPlatform.ChainMonitor.Boot
import EventPlatform.ChainMonitor.Restart
import EventPlatform.ChainMonitor.Recovery

import Fries.Batcher.Results
import Fries.Cache.Redis
import Fries.Canal.Interleaving
import Fries.Channels
import Fries.CloudEvents.Metadata
import Fries.Debounce.Results
import Fries.Debounce.Wakeups
import Fries.Embedding.Transparency
import Fries.Event.RegistryResults
import Fries.Event.Results
import Fries.Filesystem.Objects
import Fries.Filesystem.Pages
import Fries.Idempotency.Equivalence
import Fries.Idempotency.Replay
import Fries.Lifecycle.Results
import Fries.Locker.Exclusion
import Fries.Log.Parity
import Fries.Pagination.Paginator
import Fries.Parallel.CollectionResults
import Fries.Parallel.Futures
import Fries.Parallel.StreamResults
import Fries.Queue.InterruptResults
import Fries.Queue.Memory.Deliveries
import Fries.Queue.RabbitMQ.Delays
import Fries.Queue.Redis.Attempts
import Fries.Queue.Redis.NoLoss
import Fries.Queue.Redis.Promotion
import Fries.Queue.Redis.Workers
import Fries.Queue.RunResults
import Fries.Queue.SettlementResults
import Fries.RateLimit.Limiter
import Fries.RateLimit.Overflow
import Fries.RateLimit.Reports
import Fries.Retry.Backoff
import Fries.Retry.Results
import Fries.Signal.RouterResults
import Fries.Strings.Is
import Fries.Strings.SubstrCount
import Fries.Time.Gaps
import Fries.Webhook.RoundTrip

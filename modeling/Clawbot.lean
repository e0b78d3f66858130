import Clawbot.Python.Builtins
import Clawbot.Python.Dict
import Clawbot.Python.Value
import Clawbot.Python.Utf8
import Clawbot.Memory.FileStore
import Clawbot.Memory.Postgres.Vector
import Clawbot.Memory.Postgres.Store
import Clawbot.Memory.Postgres.Run
import Clawbot.Memory.Postgres.Sequential
import Clawbot.Memory.Postgres.Interleaving
import Clawbot.Memory.Postgres.Invariant
import Clawbot.Memory.Postgres.Versions
import Clawbot.Memory.Postgres.Grouping
import Clawbot.Memory.Postgres.Search
import Clawbot.Memory.Postgres.LongTermSearch
import Clawbot.Memory.Postgres.Context
import Clawbot.Memory.Postgres.Durability
import Clawbot.Memory.Postgres.Drain
import Clawbot.Memory.Postgres.Ingest
import Clawbot.Memory.Postgres.ReadOrder
import Clawbot.Memory.Postgres.CommitLog
import Clawbot.Memory.Postgres.Recent
import Clawbot.Memory.Backends
import Clawbot.Memory.Tools
import Clawbot.Channels.Pending
import Clawbot.Channels.Completions
import Clawbot.Channels.Stream

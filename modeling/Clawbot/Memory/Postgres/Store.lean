import Clawbot.Memory.Postgres.Vector
import Mathlib.Logic.Function.Basic

/-!
# The PostgreSQL memory backend: schema, statements and reads

`PostgresMemoryStore`, `ConversationIngestor.ingest` and `MemoryEmbeddingWorker._poll_once`
share one database. `Db` is its committed content: the tables `_ensure_schema` created, their
rows in commit order, the `memory_embedding` queue together with its archive (an archived
message stays, flagged), and the `BIGSERIAL` and `msg_id` sequences, which advance outside
transactions.

Every call runs in one `async with pool.connection()` block: a transaction that commits on a
normal exit and rolls back on an exception. A `Pc` is where a call stands between two
statements, with the locals it has bound; `exec` runs the next statement, reading the committed
state through the call's own uncommitted writes (`READ COMMITTED`), and adds its write to the
call's buffer. Timestamps (`created_at`, `updated_at`, the visibility timeout) are not
modelled; for `updated_at` only whether the column exists matters.
-/

namespace Clawbot.Memory.Postgres

open Clawbot.Python

/-- The three table families `_ensure_schema` creates for one dimension. -/
inductive Family
  | daily
  | longTerm
  | conversation
  deriving DecidableEq, Repr

/-- The columns each `CREATE TABLE` of `_ensure_schema` declares. -/
def Family.columns : Family → List String
  | .daily => ["id", "entry_date", "content", "embedding", "created_at", "updated_at"]
  | .longTerm => ["id", "content", "embedding", "version", "created_at"]
  | .conversation =>
    ["id", "session_key", "role", "content", "embedding", "created_at", "updated_at"]

/-- The table `memory_{family}_dim{dim}`, whose `embedding` column is a `vector(dim)`. -/
structure Table where
  family : Family
  dim : Nat
  deriving DecidableEq, Repr

/-- A `PostgresMemoryStore` by its `dimensions`, which names its tables. -/
structure Store where
  dimensions : Nat
  deriving DecidableEq, Repr

def Store.dailyTable (s : Store) : Table := ⟨.daily, s.dimensions⟩
def Store.longTermTable (s : Store) : Table := ⟨.longTerm, s.dimensions⟩
def Store.conversationTable (s : Store) : Table := ⟨.conversation, s.dimensions⟩

@[simp] theorem Store.dailyTable_inj {s s' : Store} : s.dailyTable = s'.dailyTable ↔ s = s' := by
  cases s; cases s'; simp [Store.dailyTable]

@[simp] theorem Store.longTermTable_inj {s s' : Store} :
    s.longTermTable = s'.longTermTable ↔ s = s' := by
  cases s; cases s'; simp [Store.longTermTable]

@[simp] theorem Store.conversationTable_inj {s s' : Store} :
    s.conversationTable = s'.conversationTable ↔ s = s' := by
  cases s; cases s'; simp [Store.conversationTable]

@[simp] theorem Store.dailyTable_ne_longTermTable (s s' : Store) :
    s.dailyTable ≠ s'.longTermTable := by simp [Store.dailyTable, Store.longTermTable]

@[simp] theorem Store.longTermTable_ne_dailyTable (s s' : Store) :
    s.longTermTable ≠ s'.dailyTable := by simp [Store.dailyTable, Store.longTermTable]

@[simp] theorem Store.conversationTable_ne_dailyTable (s s' : Store) :
    s.conversationTable ≠ s'.dailyTable := by simp [Store.dailyTable, Store.conversationTable]

@[simp] theorem Store.conversationTable_ne_longTermTable (s s' : Store) :
    s.conversationTable ≠ s'.longTermTable := by
  simp [Store.longTermTable, Store.conversationTable]

@[simp] theorem Store.dailyTable_ne_conversationTable (s s' : Store) :
    s.dailyTable ≠ s'.conversationTable := (Store.conversationTable_ne_dailyTable s' s).symm

@[simp] theorem Store.longTermTable_ne_conversationTable (s s' : Store) :
    s.longTermTable ≠ s'.conversationTable := (Store.conversationTable_ne_longTermTable s' s).symm

/-- A row. Each family fills the columns it has: `day` is a daily row's `entry_date` and a
conversation row's `created_at::DATE`, `version` a long-term row's. -/
structure Row where
  id : Nat
  content : String
  day : Date := 0
  sessionKey : String := ""
  role : String := ""
  version : Nat := 0
  embedding : Option (List Float4) := none

/-- The body of a `memory_embedding` message: `{table, id, content, dimensions}`. -/
structure Job where
  table : Table
  id : Nat
  content : String
  dimensions : Nat
  deriving DecidableEq, Repr

/-- A queue message; `archived` once `pgmq.archive` moved it to the archive. -/
structure Message where
  msgId : Nat
  job : Job
  archived : Bool
  deriving DecidableEq, Repr

/-- The committed database. -/
structure Db where
  schema : List Table
  rows : Table → List Row
  queue : List Message
  nextId : Table → Nat
  nextMsgId : Nat

/-- A database with the `memory_embedding` queue and nothing else. -/
def Db.empty : Db := ⟨[], fun _ => [], [], fun _ => 1, 1⟩

/-- `_ensure_schema()`: `CREATE TABLE IF NOT EXISTS` for the store's three tables. -/
def Db.ensureSchema (s : Store) (db : Db) : Db :=
  { db with schema := db.schema.insert s.dailyTable |>.insert s.longTermTable
      |>.insert s.conversationTable }

/-- One uncommitted write of a transaction. -/
inductive Write
  | insert (t : Table) (r : Row)
  | send (m : Message)
  | setEmbedding (t : Table) (id : Nat) (v : List Float4)
  | archive (msgId : Nat)

/-- `SET embedding = v WHERE id = id` on one row. -/
def Row.setEmbedding (id : Nat) (v : List Float4) (r : Row) : Row :=
  if r.id = id then { r with embedding := some v } else r

/-- `pgmq.archive` on one message. -/
def Message.archive (msgId : Nat) (m : Message) : Message :=
  if m.msgId = msgId then { m with archived := true } else m

def Db.apply (db : Db) : Write → Db
  | .insert t r => { db with rows := Function.update db.rows t (db.rows t ++ [r]) }
  | .send m => { db with queue := db.queue ++ [m] }
  | .setEmbedding t id v =>
    { db with rows := Function.update db.rows t ((db.rows t).map (Row.setEmbedding id v)) }
  | .archive msgId => { db with queue := db.queue.map (Message.archive msgId) }

/-- Commit: the buffer's writes, in order. -/
def Db.applyAll (db : Db) (ws : List Write) : Db := ws.foldl Db.apply db

/-- `nextval` of a table's id sequence. -/
def Db.drawId (db : Db) (t : Table) : Db :=
  { db with nextId := Function.update db.nextId t (db.nextId t + 1) }

/-- `nextval` of the queue's `msg_id` sequence. -/
def Db.drawMsgId (db : Db) : Db := { db with nextMsgId := db.nextMsgId + 1 }

/-- `COALESCE(MAX(version), 0)` -/
def maxVersion (rows : List Row) : Nat := rows.foldl (fun m r => max m r.version) 0

/-- `UPDATE {table} SET embedding = %s::vector, updated_at = now() WHERE id = %s`, once
`vector_in` has read the literal, runs when the table exists with both columns and the vector
has the column's dimension; otherwise PostgreSQL raises. -/
def UpdateOk (db : Db) (t : Table) (v : List Float4) : Prop :=
  t ∈ db.schema ∧ "embedding" ∈ t.family.columns ∧ "updated_at" ∈ t.family.columns ∧
    v.length = t.dim

instance (db : Db) (t : Table) (v : List Float4) : Decidable (UpdateOk db t v) :=
  inferInstanceAs (Decidable (_ ∧ _))

/-- Where a call stands, with the locals it has bound, by the statement it runs next:
`appendInsert` the `INSERT INTO {daily_table} ... RETURNING id` and `appendSend` its job's
`pgmq.send`; `versionSelect` the `SELECT COALESCE(MAX(version), 0) + 1`, `longTermInsert` the
`INSERT INTO {long_term_table}` and `longTermSend` its `pgmq.send`; `ingestNext` the loop over
the `(role, content)` pairs still to visit and `ingestSend` a conversation row's `pgmq.send`;
`pollRead`, `pollEmbed`, `pollUpdate` and `pollArchive` `pgmq.read`, `embed(content)`, the
`UPDATE` and `pgmq.archive`. `commit` is the end of the `async with` block, `done` a call that
returned or raised. -/
inductive Pc
  | appendInsert (s : Store) (day : Date) (content : String)
  | appendSend (s : Store) (content : String) (recordId : Nat)
  | versionSelect (s : Store) (content : String)
  | longTermInsert (s : Store) (content : String) (nextVersion : Nat)
  | longTermSend (s : Store) (content : String) (recordId : Nat)
  | ingestNext (s : Store) (day : Date) (sessionKey : String) (turns : List (String × String))
  | ingestSend (s : Store) (day : Date) (sessionKey role content : String) (recordId : Nat)
      (turns : List (String × String))
  | pollRead
  | pollEmbed (m : Message)
  | pollUpdate (m : Message) (embedding : List PyFloat)
  | pollArchive (m : Message)
  | commit
  | done

/-- The calls of the write paths and the worker. -/
inductive Call
  | appendToday (s : Store) (day : Date) (content : String)
  | writeLongTerm (s : Store) (content : String)
  | ingest (s : Store) (day : Date) (sessionKey userMsg assistantMsg : String)
  | pollOnce

def Call.entry : Call → Pc
  | .appendToday s day content => .appendInsert s day content
  | .writeLongTerm s content => .versionSelect s content
  | .ingest s day key userMsg assistantMsg =>
    .ingestNext s day key [("user", userMsg), ("assistant", assistantMsg)]
  | .pollOnce => .pollRead

/-- What the environment supplies to a statement: nothing more than to go on, the message
`pgmq.read` returns by `msg_id` (or none), or the vector `embed` returns. -/
inductive Input
  | next
  | read (msgId : Option Nat)
  | embedding (v : List PyFloat)

/-- The job `pgmq.send` enqueues for a row of `t`. -/
def sendJob (db : Db) (t : Table) (id : Nat) (content : String) (dims : Nat) : Write :=
  .send ⟨db.nextMsgId, ⟨t, id, content, dims⟩, false⟩

/-- One statement of a call: the new committed state (sequences advanced), the call's buffer
and where it goes next; `none` when the statement raises on its own. -/
def exec (db : Db) (buf : List Write) : Pc → Input → Option (Db × List Write × Pc)
  | .appendInsert s day content, .next =>
    if s.dailyTable ∈ db.schema then
      some (db.drawId s.dailyTable,
        buf ++ [.insert s.dailyTable { id := db.nextId s.dailyTable, content, day }],
        .appendSend s content (db.nextId s.dailyTable))
    else none
  | .appendSend s content recordId, .next =>
    some (db.drawMsgId, buf ++ [sendJob db s.dailyTable recordId content s.dimensions], .commit)
  | .versionSelect s content, .next =>
    if s.longTermTable ∈ db.schema then
      some (db, buf, .longTermInsert s content
        (maxVersion ((db.applyAll buf).rows s.longTermTable) + 1))
    else none
  | .longTermInsert s content nextVersion, .next =>
    some (db.drawId s.longTermTable,
      buf ++ [.insert s.longTermTable
        { id := db.nextId s.longTermTable, content, version := nextVersion }],
      .longTermSend s content (db.nextId s.longTermTable))
  | .longTermSend s content recordId, .next =>
    some (db.drawMsgId, buf ++ [sendJob db s.longTermTable recordId content s.dimensions],
      .commit)
  | .ingestNext _ _ _ [], .next => some (db, buf, .commit)
  | .ingestNext s day key ((role, content) :: turns), .next =>
    if content = "" then some (db, buf, .ingestNext s day key turns)
    else if s.conversationTable ∈ db.schema then
      some (db.drawId s.conversationTable,
        buf ++ [.insert s.conversationTable
          { id := db.nextId s.conversationTable, content, day, sessionKey := key, role }],
        .ingestSend s day key role content (db.nextId s.conversationTable) turns)
    else none
  | .ingestSend s day key role content recordId turns, .next =>
    some (db.drawMsgId,
      buf ++ [sendJob db s.conversationTable recordId (role ++ ": " ++ content) s.dimensions],
      .ingestNext s day key turns)
  | .pollRead, .read none => some (db, buf, .done)
  | .pollRead, .read (some msgId) =>
    match db.queue.find? fun m => m.msgId = msgId ∧ m.archived = false with
    | some m => some (db, buf, .pollEmbed m)
    | none => none
  | .pollEmbed m, .embedding v => some (db, buf, .pollUpdate m v)
  | .pollUpdate m v, .next =>
    match vectorIn v with
    | some w =>
      if UpdateOk db m.job.table w then
        some (db, buf ++ [.setEmbedding m.job.table m.job.id w], .pollArchive m)
      else none
    | none => none
  | .pollArchive m, .next => some (db, buf ++ [.archive m.msgId], .commit)
  | _, _ => none

/-! ## Reads -/

/-- `read_today()` on day `today`: `WHERE entry_date = CURRENT_DATE ORDER BY id`. -/
def readToday (db : Db) (s : Store) (today : Date) : String :=
  let results := (((db.rows s.dailyTable).filter (·.day = today)).mergeSort
    (fun a b => a.id ≤ b.id)).map Row.content
  if results = [] then "" else join "\n" results

/-- What `read_long_term()` may return: `ORDER BY version DESC LIMIT 1` returns one row of
greatest version, PostgreSQL choosing among equals; `""` when the table is empty. -/
def longTermCandidates (db : Db) (s : Store) : List String :=
  let rows := db.rows s.longTermTable
  if rows.isEmpty then [""] else (rows.filter (·.version = maxVersion rows)).map Row.content

/-- `by_date.setdefault(key, []).append(content)` on an insertion-ordered `dict`. -/
def setdefaultAppend : List (String × List String) → String → String → List (String × List String)
  | [], key, content => [(key, [content])]
  | (k, entries) :: rest, key, content =>
    if k = key then (k, entries ++ [content]) :: rest
    else (k, entries) :: setdefaultAppend rest key content

/-- The grouping loop of `get_recent_memories`. -/
def groupByDate (results : List (String × String)) : List (String × List String) :=
  results.foldl (fun byDate r => setdefaultAppend byDate r.1 r.2) []

/-- `get_recent_memories(days)` on day `today`: rows with `entry_date >= today - days`,
`ORDER BY entry_date DESC, id`, grouped under `# {date}` headers. `isoformat` is `str` of a
`date`. -/
def getRecentMemories (isoformat : Date → String) (db : Db) (s : Store) (today : Date)
    (days : Int) : String :=
  let cutoff := today - days
  let results := ((db.rows s.dailyTable).filter (cutoff ≤ ·.day)).mergeSort
    (fun a b => b.day < a.day ∨ (a.day = b.day ∧ a.id ≤ b.id))
  if results.isEmpty then ""
  else
    let byDate := groupByDate (results.map fun r => (isoformat r.day, r.content))
    join "\n\n---\n\n" (byDate.map fun e => "# " ++ e.1 ++ "\n\n" ++ join "\n" e.2)

end Clawbot.Memory.Postgres

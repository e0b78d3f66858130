import Clawbot.Memory.Postgres.Durability

/-!
# The worker drains the queue

`_poll_once` reads one unarchived message, embeds its content and, in one transaction, sets the
row's embedding and archives the message. From any state a run reaches, let the worker poll once
for each unarchived daily or conversation job, one poll after another, the embedding service
returning a vector of the job's table's dimension that pgvector accepts. Every such poll
commits, and afterwards every daily and conversation row has an embedding of its table's
dimension; the queue holds the messages it held, each archived unless its job is a long-term
one, and the rows are as they were up to their embeddings, long-term rows included, which no
poll can complete.

The `UPDATE` runs only on a table that exists. `JobTables` says that every job, committed or
waiting in a call's buffer, and the `pgmq.send` a call is about to run, name a table of the
schema: a write path checks its table when it inserts, and tables are never dropped.
-/

namespace Clawbot.Memory.Postgres

open Clawbot.Python

/-- The table of the `pgmq.send` a call is about to run, once its `INSERT` found the table. -/
def Pc.sendTable : Pc → Option Table
  | .appendSend s _ _ => some s.dailyTable
  | .longTermInsert s _ _ | .longTermSend s _ _ => some s.longTermTable
  | .ingestSend s _ _ _ _ _ _ => some s.conversationTable
  | _ => none

/-- Every job, committed, waiting in a buffer or about to be sent, names a table of the schema. -/
structure JobTables (sys : Sys) : Prop where
  queue : ∀ m ∈ sys.db.queue, m.job.table ∈ sys.db.schema
  send : ∀ th ∈ sys.threads, ∀ t, th.pc.sendTable = some t → t ∈ sys.db.schema
  buffer : ∀ th ∈ sys.threads, ∀ m ∈ th.buffer.flatMap Write.sends, m.job.table ∈ sys.db.schema

@[simp] theorem Write.sends_insert (t : Table) (r : Row) : (Write.insert t r).sends = [] := rfl
@[simp] theorem Write.sends_send (m : Message) : (Write.send m).sends = [m] := rfl
@[simp] theorem Write.sends_setEmbedding (t : Table) (id : Nat) (v : List Float4) :
    (Write.setEmbedding t id v).sends = [] := rfl
@[simp] theorem Write.sends_archive (id : Nat) : (Write.archive id).sends = [] := rfl

/-- A statement sends only to the table its call checked. -/
theorem Executes.jobTables {db db' : Db} {buf buf' : List Write} {pc pc' : Pc} {i : Input}
    (hx : Executes db buf pc i db' buf' pc') (hs : ∀ t, pc.sendTable = some t → t ∈ db.schema)
    (hb : ∀ m ∈ buf.flatMap Write.sends, m.job.table ∈ db.schema) :
    (∀ t, pc'.sendTable = some t → t ∈ db.schema) ∧
      ∀ m ∈ buf'.flatMap Write.sends, m.job.table ∈ db.schema := by
  have keep : ∀ w : Write, w.sends = [] →
      ∀ m ∈ (buf ++ [w]).flatMap Write.sends, m.job.table ∈ db.schema := fun w hw m hm => by
    simp only [List.flatMap_append, List.flatMap_singleton, hw, List.append_nil] at hm
    exact hb m hm
  have send : ∀ m₀ : Message, m₀.job.table ∈ db.schema →
      ∀ m ∈ (buf ++ [Write.send m₀]).flatMap Write.sends, m.job.table ∈ db.schema :=
      fun m₀ h₀ m hm => by
    simp only [List.flatMap_append, List.flatMap_singleton, Write.sends_send, List.mem_append,
      List.mem_singleton] at hm
    rcases hm with hm | rfl
    · exact hb m hm
    · exact h₀
  cases hx with
  | appendInsert _ _ _ h | ingestInsert _ _ _ _ _ _ _ h =>
    exact ⟨fun t ht => Option.some.inj ht ▸ h, keep _ (by rfl)⟩
  | versionSelect _ _ h => exact ⟨fun t ht => Option.some.inj ht ▸ h, hb⟩
  | longTermInsert => exact ⟨hs, keep _ (by rfl)⟩
  | appendSend | longTermSend | ingestSend =>
    exact ⟨fun _ ht => (nomatch ht), send _ (hs _ rfl)⟩
  | ingestDone | ingestSkip | pollNone | pollRead | pollEmbed =>
    exact ⟨fun _ ht => (nomatch ht), hb⟩
  | pollUpdate | pollArchive => exact ⟨fun _ ht => (nomatch ht), keep _ (by rfl)⟩

namespace JobTables

variable {sys sys' : Sys} {e : Event}

theorem init : JobTables Sys.init :=
  ⟨fun _ h => (nomatch h), fun _ h => (nomatch h), fun _ h => (nomatch h)⟩

theorem mono {db : Db} (h : JobTables sys) (ths : List Thread)
    (hs : ∀ t ∈ sys.db.schema, t ∈ db.schema) (hq : ∀ m ∈ db.queue, m.job.table ∈ sys.db.schema)
    (ht : ∀ th ∈ ths, th ∈ sys.threads ∨ (th.pc.sendTable = none ∧ th.buffer = [])) :
    JobTables ⟨db, ths⟩ where
  queue m hm := hs _ (hq m hm)
  send th hth t hp := by
    rcases ht th hth with hth | ⟨hn, -⟩
    · exact hs _ (h.send th hth t hp)
    · simp [hn] at hp
  buffer th hth m hm := by
    rcases ht th hth with hth | ⟨-, hb⟩
    · exact hs _ (h.buffer th hth m hm)
    · simp [hb] at hm

theorem transition (h : JobTables sys) (ht : Transition sys e sys') : JobTables sys' := by
  cases ht with
  | stay => exact h
  | ensureSchema s =>
    exact h.mono _ (fun _ ht =>
      List.mem_insert_of_mem (List.mem_insert_of_mem (List.mem_insert_of_mem ht))) h.queue
      fun th hth => .inl hth
  | start c =>
    refine h.mono _ (fun _ ht => ht) h.queue fun th hth => ?_
    rcases List.mem_append.mp hth with hth | hth
    · exact .inl hth
    · rw [List.mem_singleton.mp hth]; exact .inr ⟨by cases c <;> rfl, rfl⟩
  | @exec i th input db' buf' pc' hi hx =>
    have hf := hx.frame
    have hth := List.getElem?_mem hi
    obtain ⟨hs, hb⟩ := hx.jobTables (h.send th hth) (h.buffer th hth)
    refine ⟨fun m hm => hf.schema ▸ h.queue m (hf.queue ▸ hm), fun th' hth' => ?_,
      fun th' hth' => ?_⟩ <;> rcases List.mem_or_eq_of_mem_set hth' with hth' | rfl
    · exact fun t ht => hf.schema ▸ h.send th' hth' t ht
    · exact fun t ht => hf.schema ▸ hs t ht
    · exact fun m hm => hf.schema ▸ h.buffer th' hth' m hm
    · exact fun m hm => hf.schema ▸ hb m hm
  | @commit i buf hi =>
    refine h.mono _ (fun _ ht => by simpa using ht) (fun m hm => ?_) fun th hth => ?_
    · have hmem := List.mem_map_of_mem (fun m => m.job.table) hm
      rw [Db.applyAll_queue_map (fun m => m.job.table) (fun _ _ => by simp)] at hmem
      obtain ⟨m₀, hm₀, he⟩ := List.mem_map.mp hmem
      rw [show m.job.table = m₀.job.table from he.symm]
      rcases List.mem_append.mp hm₀ with hm₀ | hm₀
      · exact h.queue m₀ hm₀
      · exact h.buffer _ (List.getElem?_mem hi) m₀ hm₀
    · rcases List.mem_or_eq_of_mem_set hth with hth | rfl
      · exact .inl hth
      · exact .inr ⟨rfl, rfl⟩
  | raise hi =>
    refine h.mono _ (fun _ ht => ht) h.queue fun th hth => ?_
    rcases List.mem_or_eq_of_mem_set hth with hth | rfl
    · exact .inl hth
    · exact .inr ⟨rfl, rfl⟩

theorem foldl (h : JobTables sys) (es : List Event) : JobTables (es.foldl Sys.step sys) := by
  induction es generalizing sys with
  | nil => exact h
  | cons e es ih => exact ih (h.transition (Sys.transition_step sys e))

end JobTables

theorem Inv.foldl {sys : Sys} (h : Inv sys) (es : List Event) : Inv (es.foldl Sys.step sys) := by
  induction es generalizing sys with
  | nil => exact h
  | cons e es ih => exact ih (h.transition (Sys.transition_step sys e))

theorem jobTables_run (es : List Event) : JobTables (Sys.run es) :=
  JobTables.init.foldl es

/-! ## One poll -/

/-- The events of one `_poll_once` on connection `n`: it reads message `msgId`, the embedding
service returns `v`, the `UPDATE` and `pgmq.archive` run and the block commits. -/
def pollEvents (n msgId : Nat) (v : List PyFloat) : List Event :=
  [.start .pollOnce, .exec n (.read (some msgId)), .exec n (.embedding v), .exec n .next,
    .exec n .next, .commit n]

/-- Message ids being distinct, `pgmq.read` of an unarchived message's id returns it. -/
theorem find?_unarchived {q : List Message} (hn : (q.map Message.msgId).Nodup) {m : Message}
    (hm : m ∈ q) (ha : m.archived = false) :
    q.find? (fun m' => m'.msgId = m.msgId ∧ m'.archived = false) = some m := by
  obtain ⟨as, bs, rfl⟩ := List.append_of_mem hm
  have hd := (List.nodup_append.mp (hn.of_map _)).2.2
  refine List.find?_eq_some.mpr ⟨by simp [ha], as, bs, rfl, fun a ha' => ?_⟩
  have hne : a.msgId ≠ m.msgId := fun he =>
    have ham : a = m := List.inj_on_of_nodup_map hn (List.mem_append_left _ ha') hm he
    hd ha' (ham ▸ List.mem_cons_self m bs)
  simp [hne]

/-- A poll that reads an unarchived message and gets a vector PostgreSQL accepts for the job's
table commits: the row gets the vector and the message is archived. -/
theorem foldl_pollEvents {sys : Sys} {m : Message} {v : List PyFloat} {w : List Float4}
    (hf : sys.db.queue.find? (fun m' => m'.msgId = m.msgId ∧ m'.archived = false) = some m)
    (hv : vectorIn v = some w) (hu : UpdateOk sys.db m.job.table w) :
    (pollEvents sys.threads.length m.msgId v).foldl Sys.step sys =
      ⟨sys.db.applyAll [.setEmbedding m.job.table m.job.id w, .archive m.msgId],
        sys.threads ++ [⟨.done, []⟩]⟩ := by
  have hf' : sys.db.queue.find? (fun m' => decide (m'.msgId = m.msgId) && !m'.archived) =
      some m := by simpa using hf
  simp [pollEvents, Sys.step, Call.entry, exec, hf', hv, hu, List.getElem?_concat_length]

/-! ## The drain -/

/-- One poll after another on fresh connections `n, n + 1, ...`, each with its message's id and
the vector the embedding service returns. -/
def drainEvents (n : Nat) : List (Nat × List PyFloat) → List Event
  | [] => []
  | (msgId, v) :: rest => pollEvents n msgId v ++ drainEvents (n + 1) rest

def drainWrites (embed : Message → List PyFloat) (jobs : List Message) : List Write :=
  jobs.flatMap fun m => [.setEmbedding m.job.table m.job.id (stored (embed m)), .archive m.msgId]

theorem foldl_drainEvents (embed : Message → List PyFloat) :
    ∀ (jobs : List Message) (sys : Sys), Inv sys → JobTables sys →
      (jobs.map Message.msgId).Nodup →
      (∀ m ∈ jobs, m ∈ sys.db.queue ∧ m.archived = false ∧ m.job.table.family ≠ .longTerm ∧
        Accepted (embed m) ∧ (embed m).length = m.job.table.dim) →
      (drainEvents sys.threads.length (jobs.map fun m => (m.msgId, embed m))).foldl Sys.step sys =
        ⟨sys.db.applyAll (drainWrites embed jobs), sys.threads ++ jobs.map fun _ => ⟨.done, []⟩⟩
  | [], ⟨db, ths⟩, _, _, _, _ => by simp [drainEvents, drainWrites, Db.applyAll]
  | m :: rest, sys, hi, hj, hn, hm => by
    obtain ⟨hmq, ha, hfam, hacc, hv⟩ := hm m (List.mem_cons_self _ _)
    have hp := foldl_pollEvents (find?_unarchived hi.msgIds_nodup hmq ha)
      ((vectorIn_eq _).trans (if_pos hacc))
      (updateOk_of_family (hj.queue m hmq) hfam ((length_stored hacc.2.2).trans hv))
    have hi₁ := hp ▸ hi.foldl (pollEvents sys.threads.length m.msgId (embed m))
    have hj₁ := hp ▸ hj.foldl (pollEvents sys.threads.length m.msgId (embed m))
    have hn' := List.nodup_cons.mp hn
    -- the other jobs are still queued and unarchived
    have hrest : ∀ m' ∈ rest, m' ∈ (sys.db.applyAll
        [.setEmbedding m.job.table m.job.id (stored (embed m)), .archive m.msgId]).queue ∧
        m'.archived = false ∧ m'.job.table.family ≠ .longTerm ∧ Accepted (embed m') ∧
        (embed m').length = m'.job.table.dim := fun m' hm' => by
      obtain ⟨hq', ha', hf', hacc', hv'⟩ := hm m' (List.mem_cons_of_mem _ hm')
      have hne : m'.msgId ≠ m.msgId := fun he => hn'.1 (he ▸ List.mem_map_of_mem _ hm')
      refine ⟨?_, ha', hf', hacc', hv'⟩
      rw [Db.applyAll_worker]
      simpa [Message.archive, hne] using List.mem_map_of_mem (Message.archive m.msgId) hq'
    have ih := foldl_drainEvents embed rest _ hi₁ hj₁ hn'.2 hrest
    simp only [List.length_append, List.length_singleton] at ih
    simp only [List.map_cons, drainEvents, List.foldl_append, hp, ih, drainWrites,
      List.flatMap_cons, Db.applyAll_append, List.append_assoc, List.singleton_append]

/-- In a queue of distinct ids, a message's id is among those of the messages a filter keeps
exactly when the filter keeps it. -/
theorem msgId_mem_filter_iff {q : List Message} (hn : (q.map Message.msgId).Nodup)
    (p : Message → Bool) {m : Message} (hm : m ∈ q) :
    m.msgId ∈ (q.filter p).map Message.msgId ↔ p m := by
  refine ⟨fun h => ?_, fun h => List.mem_map_of_mem _ (List.mem_filter.mpr ⟨hm, h⟩)⟩
  obtain ⟨m', hm', he⟩ := List.mem_map.mp h
  obtain ⟨hq', hp'⟩ := List.mem_filter.mp hm'
  exact List.inj_on_of_nodup_map hn hq' hm he ▸ hp'

/-- A drain archives exactly its messages. -/
theorem queue_applyAll_drainWrites (db : Db) (embed : Message → List PyFloat)
    (jobs : List Message) :
    (db.applyAll (drainWrites embed jobs)).queue =
      db.queue.map fun m =>
        if m.msgId ∈ jobs.map Message.msgId then { m with archived := true } else m := by
  induction jobs generalizing db with
  | nil => simp [drainWrites, Db.applyAll]
  | cons j rest ih =>
    rw [drainWrites, List.flatMap_cons, Db.applyAll_append, ← drainWrites, ih,
      Db.applyAll_worker, List.map_map]
    refine List.map_congr_left fun m _ => ?_
    by_cases h₁ : m.msgId = j.msgId <;> simp [Message.archive, h₁]

/-- Draining a queue of distinct ids of its unarchived jobs but the long-term ones leaves every
message archived unless its job is a long-term one. -/
theorem queue_drain_unarchived {db : Db} (hn : (db.queue.map Message.msgId).Nodup)
    (embed : Message → List PyFloat) :
    (db.applyAll (drainWrites embed (db.queue.filter fun m =>
      m.archived = false ∧ m.job.table.family ≠ .longTerm))).queue =
      db.queue.map fun m =>
        if m.job.table.family = .longTerm then m else { m with archived := true } := by
  rw [queue_applyAll_drainWrites]
  refine List.map_congr_left fun m hm => ?_
  have hid := msgId_mem_filter_iff hn
    (fun m => decide (m.archived = false ∧ m.job.table.family ≠ .longTerm)) hm
  split_ifs with hj hf hf
  · exact absurd hf (of_decide_eq_true (hid.mp hj)).2
  · rfl
  · rfl
  · -- a message the drain skips is long-term or already archived
    cases m with
    | mk msgId job archived =>
      cases archived
      · exact absurd (hid.mpr (decide_eq_true ⟨rfl, hf⟩)) hj
      · rfl

/-- A drain changes no row of a table it has no job for. -/
theorem rows_applyAll_drainWrites (db : Db) (embed : Message → List PyFloat) (jobs : List Message)
    (t : Table) (ht : ∀ m ∈ jobs, m.job.table ≠ t) :
    (db.applyAll (drainWrites embed jobs)).rows t = db.rows t := by
  induction jobs generalizing db with
  | nil => rfl
  | cons j rest ih =>
    rw [drainWrites, List.flatMap_cons, Db.applyAll_append, ← drainWrites,
      ih _ fun m hm => ht m (List.mem_cons_of_mem _ hm), Db.applyAll_worker]
    simp [Function.update_noteq (Ne.symm (ht j (List.mem_cons_self _ _)))]

/-- A drain changes no row's content. -/
theorem rows_erase_applyAll_drainWrites (db : Db) (embed : Message → List PyFloat)
    (jobs : List Message) (t : Table) :
    ((db.applyAll (drainWrites embed jobs)).rows t).map Row.erase = (db.rows t).map Row.erase := by
  rw [Db.applyAll_rows_erase, List.flatMap_eq_nil_iff.mpr, List.append_nil]
  intro w hw
  obtain ⟨m, -, hw⟩ := List.mem_flatMap.mp hw
  rcases List.mem_pair.mp hw with rfl | rfl <;> rfl

/-- In a reachable state whose daily and conversation jobs are all archived, every row of those
tables has an embedding of its table's dimension. -/
theorem Inv.embedded_of_archived {sys : Sys} (h : Inv sys)
    (ha : ∀ m ∈ sys.db.queue, m.job.table.family ≠ .longTerm → m.archived = true) (t : Table)
    (ht : t.family ≠ .longTerm) :
    ∀ r ∈ sys.db.rows t, ∃ v, r.embedding = some v ∧ v.length = t.dim := by
  intro r hr
  have hj : jobOf t r ∈ (sys.db.queue.map Message.job).filter (·.table = t) :=
    (h.committed.matched t).subset (List.mem_map_of_mem _ hr)
  obtain ⟨hjq, -⟩ := List.mem_filter.mp hj
  obtain ⟨m, hm, hmj⟩ := List.mem_map.mp hjq
  have hmt : m.job.table = t := by rw [hmj]; rfl
  obtain ⟨r', hr', hid, he⟩ :=
    h.committed.archived m hm (ha m hm (by rw [hmt]; exact ht))
  rw [hmt] at hr'
  have hrr : r' = r := List.inj_on_of_nodup_map (h.rowIds_nodup t) hr' hr
    (by rw [hid, hmj]; rfl)
  obtain ⟨v, hv⟩ := Option.isSome_iff_exists.mp (hrr ▸ he)
  exact ⟨v, hv, h.committed.dims t r hr v hv⟩

/-- From any state a run reaches, with any calls in flight, let the worker poll once for each
unarchived daily or conversation job, one poll after another, the embedding service returning
a vector of the job's table's dimension that `vector_in` accepts. Then every poll commits: the
queue holds the messages it held, each archived unless its job is a long-term one; no row's
content changes and long-term rows do not change at all; and every daily and conversation row
has an embedding of its table's dimension. -/
theorem worker_drains_daily_and_conversation_jobs (es : List Event)
    (embed : Message → List PyFloat)
    (hv : ∀ m ∈ (Sys.run es).db.queue, m.archived = false → m.job.table.family ≠ .longTerm →
      Accepted (embed m) ∧ (embed m).length = m.job.table.dim) :
    let sys := Sys.run es
    let jobs := sys.db.queue.filter fun m => m.archived = false ∧ m.job.table.family ≠ .longTerm
    let sys' :=
      Sys.run (es ++ drainEvents sys.threads.length (jobs.map fun m => (m.msgId, embed m)))
    sys'.db.queue = sys.db.queue.map (fun m =>
        if m.job.table.family = .longTerm then m else { m with archived := true }) ∧
      (∀ t, (sys'.db.rows t).map Row.erase = (sys.db.rows t).map Row.erase) ∧
      (∀ t, t.family = .longTerm → sys'.db.rows t = sys.db.rows t) ∧
      ∀ t, t.family ≠ .longTerm → ∀ r ∈ sys'.db.rows t,
        ∃ v, r.embedding = some v ∧ v.length = t.dim := by
  intro sys jobs sys'
  have hi := inv_run es
  have hn : (sys.db.queue.map Message.msgId).Nodup := hi.msgIds_nodup
  have hjobs : ∀ m ∈ jobs, m ∈ sys.db.queue ∧ m.archived = false ∧
      m.job.table.family ≠ .longTerm ∧ Accepted (embed m) ∧ (embed m).length = m.job.table.dim :=
      fun m hm => by
    obtain ⟨hq, hp⟩ := List.mem_filter.mp hm
    simp only [decide_eq_true_eq] at hp
    exact ⟨hq, hp.1, hp.2, hv m hq hp.1 hp.2⟩
  have hs : sys' = ⟨sys.db.applyAll (drainWrites embed jobs),
      sys.threads ++ jobs.map fun _ => ⟨.done, []⟩⟩ := by
    show (es ++ _).foldl Sys.step Sys.init = _
    rw [List.foldl_append]
    exact foldl_drainEvents embed jobs sys hi (jobTables_run es)
      (hn.sublist (List.filter_sublist _ |>.map _)) hjobs
  have hq : sys'.db.queue = sys.db.queue.map (fun m =>
      if m.job.table.family = .longTerm then m else { m with archived := true }) := by
    rw [hs, queue_drain_unarchived hn]
  have hi' : Inv sys' := inv_run _
  refine ⟨hq, fun t => by rw [hs]; exact rows_erase_applyAll_drainWrites _ _ _ t,
    fun t ht => by
      rw [hs]
      exact rows_applyAll_drainWrites _ _ _ t fun m hm he => (hjobs m hm).2.2.1 (he ▸ ht),
    fun t ht => hi'.embedded_of_archived (fun m hm hf => ?_) t ht⟩
  rw [hq] at hm
  obtain ⟨m₀, -, rfl⟩ := List.mem_map.mp hm
  have hf₀ : m₀.job.table.family ≠ .longTerm := by simpa [apply_ite] using hf
  simp [hf₀]

theorem worker_drains_daily_and_conversation_jobs_append :
    let es : List Event := [.ensureSchema ⟨3⟩, .start (.appendToday ⟨3⟩ 0 "x"), .exec 0 .next,
      .exec 0 .next, .commit 0]
    let v : List PyFloat := [0.1, 0.2, 0.3]
    (∀ m ∈ (Sys.run es).db.queue, m.archived = false → m.job.table.family ≠ .longTerm →
      Accepted ((fun _ => v) m) ∧ ((fun _ => v) m).length = m.job.table.dim) ∧
    ∀ t, t.family ≠ .longTerm → ∀ r ∈ (Sys.run (es ++ drainEvents (Sys.run es).threads.length
      (((Sys.run es).db.queue.filter fun m => m.archived = false ∧
        m.job.table.family ≠ .longTerm).map fun m => (m.msgId, v)))).db.rows t,
      ∃ w, r.embedding = some w ∧ w.length = t.dim := by
  intro es v
  have hv : ∀ m ∈ (Sys.run es).db.queue, m.archived = false → m.job.table.family ≠ .longTerm →
      Accepted ((fun _ => v) m) ∧ ((fun _ => v) m).length = m.job.table.dim := by decide!
  exact ⟨hv, (worker_drains_daily_and_conversation_jobs es (fun _ => v) hv).2.2.2⟩

end Clawbot.Memory.Postgres

import Clawbot.Memory.Postgres.Interleaving
import Mathlib.Data.List.Nodup

/-!
# What every interleaving keeps

The write paths insert a row and send its job in one transaction; the worker sets an embedding
and archives the job in one transaction, through an `UPDATE` PostgreSQL checks against the
column's `vector(N)` type. Whatever the interleaving and wherever calls raise, the committed
rows of every table and the jobs naming it correspond one to one, a job is archived only by the
commit that embeds its row, and every embedding has its table's dimension.

The proof is an invariant of the reachable states. Its per-call part, `ThreadInv`, says what a
call's uncommitted buffer holds at each position; its sequence part, `Drawn`, says that the row
ids and message ids handed out, committed or waiting in buffers, are pairwise distinct.
-/

namespace Clawbot.Memory.Postgres

open Clawbot.Python

/-! ## Rows and their jobs -/

/-- The job that announces a row of `t`: the table, the row's id, the text to embed (for a
conversation row `role: content`) and the table's dimension. -/
def jobOf (t : Table) (r : Row) : Job :=
  ⟨t, r.id, if t.family = .conversation then r.role ++ ": " ++ r.content else r.content, t.dim⟩

@[simp] theorem jobOf_table (t : Table) (r : Row) : (jobOf t r).table = t := rfl

@[simp] theorem jobOf_id (t : Table) (r : Row) : (jobOf t r).id = r.id := rfl

@[simp] theorem jobOf_erase (t : Table) (r : Row) : jobOf t r.erase = jobOf t r := rfl

def Write.sends : Write → List Message
  | .send m => [m]
  | _ => []

def Write.msgIds (w : Write) : List Nat := w.sends.map Message.msgId

def Write.rowIds (t : Table) (w : Write) : List Nat := (w.inserted t).map Row.id

@[simp] theorem Message.archive_msgId (id : Nat) (m : Message) :
    (m.archive id).msgId = m.msgId := by
  unfold Message.archive; split <;> rfl

@[simp] theorem Message.archive_job (id : Nat) (m : Message) : (m.archive id).job = m.job := by
  unfold Message.archive; split <;> rfl

theorem Db.applyAll_append (db : Db) (ws ws' : List Write) :
    db.applyAll (ws ++ ws') = (db.applyAll ws).applyAll ws' :=
  List.foldl_append _ _ _ _

/-- A commit appends the messages its buffer sends; archiving changes no id and no job. -/
theorem Db.applyAll_queue_map {α : Type} (f : Message → α) (hf : ∀ id m, f (m.archive id) = f m)
    (db : Db) (ws : List Write) :
    (db.applyAll ws).queue.map f = (db.queue ++ ws.flatMap Write.sends).map f := by
  induction ws generalizing db with
  | nil => simp [Db.applyAll]
  | cons w ws ih =>
    rw [Db.applyAll, List.foldl_cons, ← Db.applyAll, ih]
    cases w <;> simp [Db.apply, Write.sends, Function.comp_def, hf]

/-- A commit appends the row ids its buffer inserts. -/
theorem Db.applyAll_rowIds (db : Db) (ws : List Write) (t : Table) :
    ((db.applyAll ws).rows t).map Row.id =
      (db.rows t).map Row.id ++ ws.flatMap (Write.rowIds t) := by
  rw [map_eq_of_erase (db.applyAll_rows_erase ws t) Row.id fun _ => rfl, List.map_append,
    List.map_flatMap]
  rfl

/-! ## The buffers of the write paths -/

/-- A write path's buffer at a statement boundary: rows, each followed by the `pgmq.send` of its
job, sent unarchived. -/
inductive Paired : List Write → Prop
  | nil : Paired []
  | snoc {buf : List Write} (t : Table) (r : Row) (m : Message) (h : Paired buf)
      (hr : r.embedding = none) (hj : m.job = jobOf t r) (ha : m.archived = false) :
    Paired (buf ++ [.insert t r, .send m])

namespace Paired

variable {ws : List Write}

theorem applyAll_rows (h : Paired ws) (db : Db) (t : Table) :
    (db.applyAll ws).rows t = db.rows t ++ ws.flatMap (Write.inserted t) := by
  induction h with
  | nil => simp [Db.applyAll]
  | snoc t' r m _ _ _ _ ih =>
    rw [Db.applyAll_append, List.flatMap_append, ← List.append_assoc, ← ih]
    by_cases ht : t' = t
    · subst ht; simp [Db.applyAll, Db.apply, Write.inserted]
    · simp [Db.applyAll, Db.apply, Write.inserted, ht, Function.update_noteq (Ne.symm ht)]

theorem applyAll_queue (h : Paired ws) (db : Db) :
    (db.applyAll ws).queue = db.queue ++ ws.flatMap Write.sends := by
  induction h with
  | nil => simp [Db.applyAll]
  | snoc t' r m _ _ _ _ ih =>
    rw [Db.applyAll_append, List.flatMap_append, ← List.append_assoc, ← ih]
    simp [Db.applyAll, Db.apply, Write.sends]

/-- The rows a write path inserts into `t` and the jobs it sends for `t` match one to one. -/
theorem jobs (h : Paired ws) (t : Table) :
    (ws.flatMap (Write.inserted t)).map (jobOf t) =
      ((ws.flatMap Write.sends).map Message.job).filter (·.table = t) := by
  induction h with
  | nil => rfl
  | snoc t' r m _ _ hj _ ih =>
    by_cases ht : t' = t
    · subst ht; simp [Write.inserted, Write.sends, ih, hj]
    · simp [Write.inserted, Write.sends, ih, hj, ht]

theorem unembedded (h : Paired ws) (t : Table) :
    ∀ r ∈ ws.flatMap (Write.inserted t), r.embedding = none := by
  induction h with
  | nil => simp
  | snoc t' r m _ hr _ _ ih =>
    simp only [List.flatMap_append, List.mem_append]
    rintro r' (hr' | hr')
    · exact ih r' hr'
    · simp only [List.flatMap_cons, List.flatMap_nil, Write.inserted, List.append_nil] at hr'
      split_ifs at hr'
      · rw [List.mem_singleton.mp hr']; exact hr
      · cases hr'

theorem unarchived (h : Paired ws) : ∀ m ∈ ws.flatMap Write.sends, m.archived = false := by
  induction h with
  | nil => simp
  | snoc t' r m _ _ _ ha ih =>
    simp only [List.flatMap_append, List.mem_append]
    rintro m' (hm | hm)
    · exact ih m' hm
    · simp only [List.flatMap_cons, List.flatMap_nil, Write.sends, List.nil_append,
        List.append_nil, List.mem_singleton] at hm
      rw [hm]; exact ha

end Paired

/-! ## The calls in flight -/

/-- A message is on the queue, archived or not, with its id and its job. -/
def Queued (db : Db) (m : Message) : Prop :=
  ∃ m' ∈ db.queue, m'.msgId = m.msgId ∧ m'.job = m.job

theorem Queued.apply {db : Db} {m : Message} (h : Queued db m) (w : Write) :
    Queued (db.apply w) m := by
  obtain ⟨m', hm', hi, hj⟩ := h
  cases w with
  | send m'' => exact ⟨m', List.mem_append_left _ hm', hi, hj⟩
  | archive id => exact ⟨m'.archive id, List.mem_map_of_mem _ hm', by simp [hi], by simp [hj]⟩
  | insert _ _ | setEmbedding _ _ _ => exact ⟨m', hm', hi, hj⟩

theorem Queued.applyAll {db : Db} {m : Message} (h : Queued db m) (ws : List Write) :
    Queued (db.applyAll ws) m := by
  induction ws generalizing db with
  | nil => exact h
  | cons w ws ih => exact ih (h.apply w)

/-- What a call's buffer holds at each position. The worker holds the message it read, still on
the queue, and once its `UPDATE` ran, the vector PostgreSQL accepted for the job's table. -/
def ThreadInv (db : Db) : Pc → List Write → Prop
  | .appendSend s content recordId, buf =>
    ∃ day, buf = [.insert s.dailyTable { id := recordId, content, day }]
  | .longTermSend s content recordId, buf =>
    ∃ version, buf = [.insert s.longTermTable { id := recordId, content, version }]
  | .ingestNext _ _ _ _, buf => Paired buf
  | .ingestSend s day key role content recordId _, buf =>
    ∃ ps, Paired ps ∧
      buf = ps ++ [.insert s.conversationTable
        { id := recordId, content, day, sessionKey := key, role }]
  | .pollEmbed m, buf | .pollUpdate m _, buf => buf = [] ∧ Queued db m
  | .pollArchive m, buf =>
    ∃ v, buf = [.setEmbedding m.job.table m.job.id v] ∧ UpdateOk db m.job.table v ∧ Queued db m
  | .commit, buf =>
    Paired buf ∨ ∃ m v, buf = [.setEmbedding m.job.table m.job.id v, .archive m.msgId] ∧
      UpdateOk db m.job.table v ∧ Queued db m
  | _, buf => buf = []

theorem UpdateOk.mono {db db' : Db} {t : Table} {v : List Float4} (h : UpdateOk db t v)
    (hs : ∀ t ∈ db.schema, t ∈ db'.schema) : UpdateOk db' t v :=
  ⟨hs t h.1, h.2⟩

/-- A call's invariant survives what other calls do: tables are only created and queued
messages only archived. -/
theorem ThreadInv.mono {db db' : Db} {pc : Pc} {buf : List Write} (h : ThreadInv db pc buf)
    (hs : ∀ t ∈ db.schema, t ∈ db'.schema) (hq : ∀ m, Queued db m → Queued db' m) :
    ThreadInv db' pc buf := by
  cases pc with
  | pollEmbed m | pollUpdate m _ => exact ⟨h.1, hq m h.2⟩
  | pollArchive m =>
    obtain ⟨v, hb, hu, hm⟩ := h
    exact ⟨v, hb, hu.mono hs, hq m hm⟩
  | commit =>
    rcases h with h | ⟨m, v, hb, hu, hm⟩
    · exact .inl h
    · exact .inr ⟨m, v, hb, hu.mono hs, hq m hm⟩
  | _ => exact h

/-- Each statement moves its call to a position whose invariant holds. -/
theorem Executes.threadInv {db db' : Db} {buf buf' : List Write} {pc pc' : Pc} {i : Input}
    (hx : Executes db buf pc i db' buf' pc') (h : ThreadInv db pc buf) :
    ThreadInv db pc' buf' := by
  cases hx with
  | appendInsert s day content => exact ⟨day, by rw [show buf = [] from h]; rfl⟩
  | longTermInsert s content v => exact ⟨v, by rw [show buf = [] from h]; rfl⟩
  | appendSend s content recordId =>
    obtain ⟨day, rfl⟩ := h
    exact .inl (@Paired.snoc [] _ _ _ .nil rfl rfl rfl)
  | longTermSend s content recordId =>
    obtain ⟨v, rfl⟩ := h
    exact .inl (@Paired.snoc [] _ _ _ .nil rfl rfl rfl)
  | ingestDone => exact .inl h
  | ingestSkip => exact h
  | ingestInsert s day key role content turns => exact ⟨buf, h, rfl⟩
  | ingestSend s day key role content recordId turns =>
    obtain ⟨ps, hp, rfl⟩ := h
    rw [List.append_assoc]
    exact @Paired.snoc ps _ _ _ hp rfl rfl rfl
  | pollNone | versionSelect => exact h
  | pollRead msgId m hf => exact ⟨h, m, List.mem_of_find?_eq_some hf, rfl, rfl⟩
  | pollEmbed => exact h
  | pollUpdate m v w _ hu => exact ⟨w, by rw [h.1]; rfl, hu, h.2⟩
  | pollArchive m =>
    obtain ⟨v, rfl, hu, hm⟩ := h
    exact .inr ⟨m, v, rfl, hu, hm⟩

theorem threadInv_entry (db : Db) (c : Call) : ThreadInv db c.entry [] := by
  cases c <;> first | rfl | exact Paired.nil

/-! ## Sequences -/

/-- The values a sequence handed out, committed or waiting in the calls' buffers, are pairwise
distinct and below its next value. -/
def Drawn (committed pending : List Nat) (next : Nat) : Prop :=
  (committed ++ pending).Nodup ∧ ∀ x ∈ committed ++ pending, x < next

theorem Drawn.shrink {c p c' p' : List Nat} {n n' : Nat} (h : Drawn c p n) (k : List Nat)
    (hs : (c' ++ p' ++ k).Perm (c ++ p)) (hn : n ≤ n') : Drawn c' p' n' :=
  ⟨(hs.symm.nodup h.1).sublist (List.sublist_append_left _ _),
    fun x hx => (h.2 x (hs.subset (List.mem_append_left k hx))).trans_le hn⟩

theorem Drawn.draw {c p p' : List Nat} {n : Nat} (h : Drawn c p n) (hp : p'.Perm (p ++ [n])) :
    Drawn c p' (n + 1) := by
  have hperm : (c ++ p').Perm (c ++ p ++ [n]) := by
    rw [List.append_assoc]; exact hp.append_left c
  refine ⟨hperm.nodup_iff.mpr (List.pairwise_append.mpr ⟨h.1, List.pairwise_singleton _ _, ?_⟩),
    fun x hx => ?_⟩
  · intro x hx y hy
    rw [List.mem_singleton.mp hy]
    exact (h.2 x hx).ne
  · rcases List.mem_append.mp (hperm.subset hx) with hx | hx
    · exact (h.2 x hx).trans (Nat.lt_succ_self n)
    · rw [List.mem_singleton.mp hx]; exact Nat.lt_succ_self n

def pending (key : Write → List Nat) (ths : List Thread) : List Nat :=
  ths.flatMap fun th => th.buffer.flatMap key

theorem pending_set (key : Write → List Nat) :
    ∀ (ths : List Thread) (i : Nat) (th th' : Thread), ths[i]? = some th →
      (pending key (ths.set i th') ++ th.buffer.flatMap key).Perm
        (pending key ths ++ th'.buffer.flatMap key)
  | [], _, _, _, h => by simp at h
  | a :: ths, 0, th, th', h => by
    obtain rfl : a = th := by simpa using h
    simp only [pending, List.set_cons_zero, List.flatMap_cons, List.perm_iff_count,
      List.count_append]
    omega
  | a :: ths, i + 1, th, th', h => by
    simp only [pending, List.set_cons_succ, List.flatMap_cons, List.append_assoc] at h ⊢
    exact (pending_set key ths i th th' (by simpa using h)).append_left _

/-- How a sequence moves: a commit adds its buffer's values to the committed ones, and a statement
either draws nothing or draws the next value into its call's buffer. -/
structure SequenceLaws (committed : Db → List Nat) (next : Db → Nat) (key : Write → List Nat) :
    Prop where
  commit : ∀ db ws, committed (db.applyAll ws) = committed db ++ ws.flatMap key ∧
    next (db.applyAll ws) = next db
  ensureSchema : ∀ db s, committed (db.ensureSchema s) = committed db ∧
    next (db.ensureSchema s) = next db
  exec : ∀ {db buf pc i db' buf' pc'}, Executes db buf pc i db' buf' pc' →
    committed db' = committed db ∧
      (buf'.flatMap key = buf.flatMap key ∧ next db ≤ next db' ∨
        buf'.flatMap key = buf.flatMap key ++ [next db] ∧ next db' = next db + 1)

/-- A sequence that follows its laws keeps its values distinct along every event. -/
theorem SequenceLaws.drawn {committed : Db → List Nat} {next : Db → Nat} {key : Write → List Nat}
    (hl : SequenceLaws committed next key) {sys sys' : Sys} {e : Event}
    (ht : Transition sys e sys')
    (h : Drawn (committed sys.db) (pending key sys.threads) (next sys.db)) :
    Drawn (committed sys'.db) (pending key sys'.threads) (next sys'.db) := by
  cases ht with
  | stay => exact h
  | ensureSchema s =>
    obtain ⟨hc, hn⟩ := hl.ensureSchema sys.db s
    exact h.shrink [] (by simp [hc]) hn.ge
  | start c => exact h.shrink [] (by simp [pending]) le_rfl
  | @exec i th input db' buf' pc' hi hx =>
    have hp := pending_set key _ i th ⟨pc', buf'⟩ hi
    obtain ⟨hc, ⟨hk, hn⟩ | ⟨hk, hn⟩⟩ := hl.exec hx
    · rw [hk, List.perm_append_right_iff] at hp
      exact h.shrink [] (by rw [hc, List.append_nil]; exact hp.append_left _) hn
    · rw [hk, ← List.append_assoc] at hp
      refine hc ▸ hn ▸ h.draw ((List.perm_append_right_iff (th.buffer.flatMap key)).mp ?_)
      refine hp.trans ?_
      simp only [List.perm_iff_count, List.count_append]
      intro a; omega
  | commit hi =>
    have hp := pending_set key _ _ _ ⟨.done, []⟩ hi
    obtain ⟨hc, hn⟩ := hl.commit _ _
    refine h.shrink [] ?_ hn.ge
    rw [hc]
    simp only [List.flatMap_nil, List.append_nil, List.perm_iff_count, List.count_append] at hp ⊢
    intro a; have := hp a; omega
  | @raise i th hi =>
    have hp := pending_set key _ _ _ ⟨.done, []⟩ hi
    refine h.shrink (th.buffer.flatMap key) ?_ le_rfl
    simp only [List.flatMap_nil, List.append_nil] at hp
    rw [List.append_assoc]; exact hp.append_left _

@[simp] theorem Db.apply_nextMsgId (db : Db) (w : Write) :
    (db.apply w).nextMsgId = db.nextMsgId := by
  cases w <;> rfl

@[simp] theorem Db.applyAll_nextMsgId (db : Db) (ws : List Write) :
    (db.applyAll ws).nextMsgId = db.nextMsgId := by
  induction ws generalizing db <;> simp_all [Db.applyAll]

/-- Message ids: `pgmq.send` draws the next one. -/
theorem sequenceLaws_msgIds :
    SequenceLaws (fun db => db.queue.map Message.msgId) Db.nextMsgId Write.msgIds where
  commit db ws := ⟨by
    rw [Db.applyAll_queue_map _ Message.archive_msgId, List.map_append, List.map_flatMap]; rfl,
    db.applyAll_nextMsgId ws⟩
  ensureSchema _ _ := ⟨rfl, rfl⟩
  exec hx := by cases hx <;> simp [Write.msgIds, Write.sends, sendJob, Db.drawId, Db.drawMsgId]

/-- Row ids of `t`: an `INSERT` into `t` draws the next one. -/
theorem sequenceLaws_rowIds (t : Table) :
    SequenceLaws (fun db => (db.rows t).map Row.id) (fun db => db.nextId t) (Write.rowIds t) where
  commit db ws := ⟨db.applyAll_rowIds ws t, by simp⟩
  ensureSchema _ _ := ⟨rfl, rfl⟩
  exec hx := by
    cases hx <;> simp [Write.rowIds, Write.inserted, sendJob, Db.drawId, Db.drawMsgId]
    all_goals split_ifs with ht
    all_goals first | (subst ht; simp) | simp [ht, Function.update_noteq (Ne.symm ht)]

/-! ## The committed state -/

@[simp] theorem Row.setEmbedding_id (id : Nat) (v : List Float4) (r : Row) :
    (r.setEmbedding id v).id = r.id := by
  unfold Row.setEmbedding; split <;> rfl

theorem Row.setEmbedding_embedding (id : Nat) (v : List Float4) (r : Row) :
    (r.setEmbedding id v).embedding = if r.id = id then some v else r.embedding := by
  unfold Row.setEmbedding; split <;> simp_all

/-- The worker's commit: the rows of its job's table embedded by id, its message archived. -/
theorem Db.applyAll_worker (db : Db) (t : Table) (id msgId : Nat) (v : List Float4) :
    db.applyAll [.setEmbedding t id v, .archive msgId] =
      { db with rows := Function.update db.rows t ((db.rows t).map (Row.setEmbedding id v)),
                queue := db.queue.map (Message.archive msgId) } := rfl

/-- What the committed database keeps: the rows of each table and the jobs naming it correspond
one to one, every embedding has its table's dimension, and an archived job's row is embedded. -/
structure Committed (db : Db) : Prop where
  matched : ∀ t,
    ((db.rows t).map (jobOf t)).Perm ((db.queue.map Message.job).filter (·.table = t))
  dims : ∀ t, ∀ r ∈ db.rows t, ∀ v, r.embedding = some v → v.length = t.dim
  archived : ∀ m ∈ db.queue, m.archived = true →
    ∃ r ∈ db.rows m.job.table, r.id = m.job.id ∧ r.embedding.isSome

namespace Committed

variable {db : Db}

theorem of_eq {db' : Db} (h : Committed db) (hr : db'.rows = db.rows) (hq : db'.queue = db.queue) :
    Committed db' :=
  ⟨by rw [hr, hq]; exact h.matched, by rw [hr]; exact h.dims, by rw [hr, hq]; exact h.archived⟩

/-- A queued message names a committed row. -/
theorem row_of_queued (h : Committed db) {m : Message} (hm : Queued db m) :
    ∃ r ∈ db.rows m.job.table, r.id = m.job.id := by
  obtain ⟨m', hm', -, hj⟩ := hm
  have hf : m'.job ∈ (db.queue.map Message.job).filter (·.table = m.job.table) :=
    List.mem_filter.mpr ⟨List.mem_map_of_mem _ hm', by simp [hj]⟩
  obtain ⟨r, hr, hrj⟩ := List.mem_map.mp ((h.matched _).symm.subset hf)
  exact ⟨r, hr, by rw [← jobOf_id m.job.table r, hrj, hj]⟩

/-- Message ids being distinct, the queued message of an id is the one a worker read. -/
theorem job_eq_of_msgId (hn : (db.queue.map Message.msgId).Nodup) {m m₀ : Message}
    (hm : Queued db m) (hm₀ : m₀ ∈ db.queue) (hi : m₀.msgId = m.msgId) : m₀.job = m.job := by
  obtain ⟨m', hm', hi', hj⟩ := hm
  rw [List.inj_on_of_nodup_map hn hm₀ hm' (hi.trans hi'.symm), hj]

theorem matched_applyAll (h : Committed db) (ws : List Write)
    (hw : ∀ t, (ws.flatMap (Write.inserted t)).map (jobOf t) =
      ((ws.flatMap Write.sends).map Message.job).filter (·.table = t)) (t : Table) :
    (((db.applyAll ws).rows t).map (jobOf t)).Perm
      (((db.applyAll ws).queue.map Message.job).filter (·.table = t)) := by
  rw [map_eq_of_erase (db.applyAll_rows_erase ws t) (jobOf t) (jobOf_erase t),
    Db.applyAll_queue_map _ Message.archive_job, List.map_append, List.map_append,
    List.filter_append, hw t]
  exact (h.matched t).append_right _

/-- A write path's commit: new rows without embedding, their jobs unarchived. -/
theorem commit_paired (h : Committed db) {ws : List Write} (hp : Paired ws) :
    Committed (db.applyAll ws) where
  matched := h.matched_applyAll ws hp.jobs
  dims t r hr v hv := by
    rw [hp.applyAll_rows] at hr
    rcases List.mem_append.mp hr with hr | hr
    · exact h.dims t r hr v hv
    · simp [hp.unembedded t r hr] at hv
  archived m hm ha := by
    rw [hp.applyAll_queue] at hm
    rcases List.mem_append.mp hm with hm | hm
    · obtain ⟨r, hr, hi, he⟩ := h.archived m hm ha
      exact ⟨r, by rw [hp.applyAll_rows]; exact List.mem_append_left _ hr, hi, he⟩
    · simp [hp.unarchived m hm] at ha

theorem worker_embeds (h : Committed db) {m : Message} (hm : Queued db m) (v : List Float4) :
    ∃ r ∈ (db.applyAll [.setEmbedding m.job.table m.job.id v, .archive m.msgId]).rows m.job.table,
      r.id = m.job.id ∧ r.embedding = some v := by
  obtain ⟨r, hr, hi⟩ := h.row_of_queued hm
  refine ⟨r.setEmbedding m.job.id v, ?_, by simp [hi], by simp [Row.setEmbedding_embedding, hi]⟩
  rw [Db.applyAll_worker]
  simpa using List.mem_map_of_mem (Row.setEmbedding m.job.id v) hr

theorem worker_keeps (t t' : Table) (id msgId : Nat) (v : List Float4) {r : Row}
    (hr : r ∈ db.rows t') (he : r.embedding.isSome) :
    ∃ r' ∈ (db.applyAll [.setEmbedding t id v, .archive msgId]).rows t',
      r'.id = r.id ∧ r'.embedding.isSome := by
  rw [Db.applyAll_worker]
  by_cases ht : t' = t
  · subst ht
    refine ⟨r.setEmbedding id v, by simpa using List.mem_map_of_mem _ hr, by simp, ?_⟩
    rw [Row.setEmbedding_embedding]; split <;> simp [he]
  · exact ⟨r, by simpa [Function.update_noteq ht] using hr, rfl, he⟩

theorem commit_worker (h : Committed db) (hn : (db.queue.map Message.msgId).Nodup) {m : Message}
    {v : List Float4} (hu : UpdateOk db m.job.table v) (hm : Queued db m) :
    Committed (db.applyAll [.setEmbedding m.job.table m.job.id v, .archive m.msgId]) where
  matched := h.matched_applyAll _ fun t => by simp [Write.inserted, Write.sends]
  dims t r hr w hw := by
    simp only [Db.applyAll_worker, Function.update_apply] at hr
    split_ifs at hr with ht
    · subst ht
      obtain ⟨r₀, hr₀, rfl⟩ := List.mem_map.mp hr
      rw [Row.setEmbedding_embedding] at hw
      split_ifs at hw
      · cases hw; exact hu.2.2.2
      · exact h.dims _ r₀ hr₀ w hw
    · exact h.dims t r hr w hw
  archived m' hm' ha := by
    rw [Db.applyAll_worker] at hm'
    obtain ⟨m₀, hm₀, rfl⟩ := List.mem_map.mp hm'
    by_cases hi : m₀.msgId = m.msgId
    · obtain ⟨r, hr, hri, hre⟩ := h.worker_embeds hm v
      rw [Message.archive_job, job_eq_of_msgId hn hm hm₀ hi]
      exact ⟨r, hr, hri, by simp [hre]⟩
    · have ha₀ : m₀.archived = true := by simpa [Message.archive, hi] using ha
      obtain ⟨r, hr, hri, hre⟩ := h.archived m₀ hm₀ ha₀
      obtain ⟨r', hr', hri', hre'⟩ := worker_keeps m.job.table _ m.job.id m.msgId v hr hre
      exact ⟨r', by simpa using hr', by simp [hri', hri], hre'⟩

end Committed

/-! ## Reachable states -/

/-- The invariant of the reachable states. -/
structure Inv (sys : Sys) : Prop where
  committed : Committed sys.db
  msgIds :
    Drawn (sys.db.queue.map Message.msgId) (pending Write.msgIds sys.threads) sys.db.nextMsgId
  rowIds : ∀ t,
    Drawn ((sys.db.rows t).map Row.id) (pending (Write.rowIds t) sys.threads) (sys.db.nextId t)
  threads : ∀ th ∈ sys.threads, ThreadInv sys.db th.pc th.buffer

namespace Inv

variable {sys sys' : Sys} {e : Event}

theorem init : Inv Sys.init where
  committed := ⟨fun _ => .nil, fun _ _ h => (nomatch h), fun _ h => nomatch h⟩
  msgIds := ⟨List.nodup_nil, fun _ h => (nomatch h)⟩
  rowIds _ := ⟨List.nodup_nil, fun _ h => (nomatch h)⟩
  threads _ h := nomatch h

theorem msgIds_nodup (h : Inv sys) : (sys.db.queue.map Message.msgId).Nodup :=
  h.msgIds.1.sublist (List.sublist_append_left _ _)

theorem rowIds_nodup (h : Inv sys) (t : Table) : ((sys.db.rows t).map Row.id).Nodup :=
  (h.rowIds t).1.sublist (List.sublist_append_left _ _)

theorem committed_transition (h : Inv sys) (ht : Transition sys e sys') : Committed sys'.db := by
  cases ht with
  | stay | start | raise => exact h.committed
  | ensureSchema s => exact h.committed.of_eq rfl rfl
  | exec _ hx => exact h.committed.of_eq hx.frame.rows hx.frame.queue
  | commit hi =>
    rcases h.threads _ (List.getElem?_mem hi) with hp | ⟨m, v, rfl, hu, hm⟩
    · exact h.committed.commit_paired hp
    · exact h.committed.commit_worker h.msgIds_nodup hu hm

theorem threads_transition (h : Inv sys) (ht : Transition sys e sys') :
    ∀ th ∈ sys'.threads, ThreadInv sys'.db th.pc th.buffer := by
  cases ht with
  | stay => exact h.threads
  | ensureSchema s =>
    refine fun th hth => (h.threads th hth).mono (fun t ht => ?_) fun _ hm => hm
    simp only [Db.ensureSchema]
    exact List.mem_insert_of_mem (List.mem_insert_of_mem (List.mem_insert_of_mem ht))
  | start c =>
    intro th hth
    rcases List.mem_append.mp hth with hth | hth
    · exact h.threads th hth
    · rw [List.mem_singleton.mp hth]; exact threadInv_entry _ c
  | exec hi hx =>
    intro th hth
    have hf := hx.frame
    have hs : ∀ t ∈ sys.db.schema, t ∈ _ := fun t ht => hf.schema ▸ ht
    have hq : ∀ m, Queued sys.db m → Queued _ m := fun m hm => by rw [Queued, hf.queue]; exact hm
    rcases List.mem_or_eq_of_mem_set hth with hth | rfl
    · exact (h.threads th hth).mono hs hq
    · exact (hx.threadInv (h.threads _ (List.getElem?_mem hi))).mono hs hq
  | commit hi =>
    intro th hth
    rcases List.mem_or_eq_of_mem_set hth with hth | rfl
    · exact (h.threads th hth).mono (fun t ht => by simpa using ht) fun m hm => hm.applyAll _
    · rfl
  | raise hi =>
    intro th hth
    rcases List.mem_or_eq_of_mem_set hth with hth | rfl
    · exact h.threads th hth
    · rfl

theorem transition (h : Inv sys) (ht : Transition sys e sys') : Inv sys' :=
  ⟨h.committed_transition ht, sequenceLaws_msgIds.drawn ht h.msgIds,
    fun t => (sequenceLaws_rowIds t).drawn ht (h.rowIds t), h.threads_transition ht⟩

/-- A message becomes archived only through the commit of a worker that read it, and that
commit embeds the message's row. -/
theorem archived_by_commit (h : Inv sys) (ht : Transition sys e sys') {m : Message}
    (hm : m ∈ sys'.db.queue) (ha : m.archived = true)
    (hnew : ∀ m' ∈ sys.db.queue, m'.msgId = m.msgId → m'.archived = false) :
    ∃ i v, e = .commit i ∧
      sys.threads[i]? = some ⟨.commit, [.setEmbedding m.job.table m.job.id v, .archive m.msgId]⟩ ∧
      ∃ r ∈ sys'.db.rows m.job.table, r.id = m.job.id ∧ r.embedding = some v := by
  have old : m ∉ sys.db.queue := fun hm' => by simp [hnew m hm' rfl] at ha
  cases ht with
  | stay | ensureSchema | start | raise => exact absurd hm old
  | exec _ hx => exact absurd (hx.frame.queue ▸ hm) old
  | @commit i buf hi =>
    rcases h.threads _ (List.getElem?_mem hi) with hp | ⟨mw, v, rfl, hu, hq⟩
    · rw [hp.applyAll_queue] at hm
      rcases List.mem_append.mp hm with hm | hm
      · exact absurd hm old
      · simp [hp.unarchived m hm] at ha
    · rw [Db.applyAll_worker] at hm
      obtain ⟨m₀, hm₀, rfl⟩ := List.mem_map.mp hm
      by_cases hi₀ : m₀.msgId = mw.msgId
      · have hj := Committed.job_eq_of_msgId h.msgIds_nodup hq hm₀ hi₀
        refine ⟨i, v, rfl, by simp [hi, hj, hi₀], ?_⟩
        simpa [hj] using h.committed.worker_embeds hq v
      · have hkeep : m₀.archive mw.msgId = m₀ := by simp [Message.archive, hi₀]
        rw [hkeep] at ha old
        exact absurd hm₀ old

end Inv

theorem inv_run (es : List Event) : Inv (Sys.run es) := by
  induction es using List.reverseRecOn with
  | nil => exact Inv.init
  | append_singleton es e ih =>
    rw [Sys.run_append_single]
    exact ih.transition (Sys.transition_step _ e)

/-- Along every run, however the calls interleave and wherever they raise: (i) each table's
committed rows have distinct ids and match the jobs naming the table one to one; (ii) a job
becomes archived only in the commit of a worker holding it, and that commit sets its row's
embedding; (iii) every embedding has its table's dimension. -/
theorem interleaved_runs_keep_jobs (es : List Event) :
    let sys := Sys.run es
    (∀ t, ((sys.db.rows t).map Row.id).Nodup ∧
      ((sys.db.rows t).map (jobOf t)).Perm ((sys.db.queue.map Message.job).filter (·.table = t))) ∧
    (∀ e, ∀ m ∈ (sys.step e).db.queue, m.archived = true →
      (∀ m' ∈ sys.db.queue, m'.msgId = m.msgId → m'.archived = false) →
      ∃ i v, e = .commit i ∧
        sys.threads[i]? = some ⟨.commit, [.setEmbedding m.job.table m.job.id v, .archive m.msgId]⟩ ∧
        ∃ r ∈ (sys.step e).db.rows m.job.table, r.id = m.job.id ∧ r.embedding = some v) ∧
    (∀ t, ∀ r ∈ sys.db.rows t, ∀ v, r.embedding = some v → v.length = t.dim) :=
  ⟨fun t => ⟨(inv_run es).rowIds_nodup t, (inv_run es).committed.matched t⟩,
    fun e _ hm ha hnew => (inv_run es).archived_by_commit (Sys.transition_step _ e) hm ha hnew,
    (inv_run es).committed.dims⟩

end Clawbot.Memory.Postgres

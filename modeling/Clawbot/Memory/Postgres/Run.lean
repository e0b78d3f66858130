import Clawbot.Memory.Postgres.Store

/-!
# One call at a time

`runAlone` runs a single call against the committed state, one input per statement, with
nothing else running: the call either reaches the end of its block and commits, or raises
somewhere (a statement fails, or the environment makes it fail there) and rolls back, keeping
only the sequence values it drew. `seqRun` chains such calls: the sequential runs of the store,
the ingestor and the worker.
-/

namespace Clawbot.Memory.Postgres

open Clawbot.Python

/-- Runs one call alone, feeding one input to each statement. When the inputs run out the call
commits if it stands at the end of its block, and has raised otherwise. Returns the committed
state and whether the call committed (for `_poll_once`, whether it returned `True`). -/
def runAlone (db : Db) (pc : Pc) (buf : List Write) : List Input → Db × Bool
  | [] =>
    match pc with
    | .commit => (db.applyAll buf, true)
    | _ => (db, false)
  | i :: is =>
    match exec db buf pc i with
    | some (db', buf', pc') => runAlone db' pc' buf' is
    | none => (db, false)

/-- A sequential run: each call runs alone to its end before the next starts. Returns the
state and, in order, the calls that committed. -/
def seqRun (db : Db) (log : List Call) : List (Call × List Input) → Db × List Call
  | [] => (db, log)
  | (c, ins) :: rest =>
    let r := runAlone db c.entry [] ins
    seqRun r.1 (if r.2 then log ++ [c] else log) rest

theorem seqRun_cons (db : Db) (log : List Call) (op : Call × List Input)
    (rest : List (Call × List Input)) :
    seqRun db log (op :: rest) =
      seqRun (runAlone db op.1.entry [] op.2).1
        (if (runAlone db op.1.entry [] op.2).2 then log ++ [op.1] else log) rest :=
  rfl

/-! ## What a statement does -/

/-- The statements of `exec`, one constructor each, with the guard under which it runs. -/
inductive Executes (db : Db) (buf : List Write) : Pc → Input → Db → List Write → Pc → Prop
  | appendInsert (s : Store) (day : Date) (content : String) (h : s.dailyTable ∈ db.schema) :
    Executes db buf (.appendInsert s day content) .next (db.drawId s.dailyTable)
      (buf ++ [.insert s.dailyTable { id := db.nextId s.dailyTable, content, day }])
      (.appendSend s content (db.nextId s.dailyTable))
  | appendSend (s : Store) (content : String) (recordId : Nat) :
    Executes db buf (.appendSend s content recordId) .next db.drawMsgId
      (buf ++ [sendJob db s.dailyTable recordId content s.dimensions]) .commit
  | versionSelect (s : Store) (content : String) (h : s.longTermTable ∈ db.schema) :
    Executes db buf (.versionSelect s content) .next db buf
      (.longTermInsert s content (maxVersion ((db.applyAll buf).rows s.longTermTable) + 1))
  | longTermInsert (s : Store) (content : String) (nextVersion : Nat) :
    Executes db buf (.longTermInsert s content nextVersion) .next (db.drawId s.longTermTable)
      (buf ++ [.insert s.longTermTable
        { id := db.nextId s.longTermTable, content, version := nextVersion }])
      (.longTermSend s content (db.nextId s.longTermTable))
  | longTermSend (s : Store) (content : String) (recordId : Nat) :
    Executes db buf (.longTermSend s content recordId) .next db.drawMsgId
      (buf ++ [sendJob db s.longTermTable recordId content s.dimensions]) .commit
  | ingestDone (s : Store) (day : Date) (key : String) :
    Executes db buf (.ingestNext s day key []) .next db buf .commit
  | ingestSkip (s : Store) (day : Date) (key role : String) (turns : List (String × String)) :
    Executes db buf (.ingestNext s day key ((role, "") :: turns)) .next db buf
      (.ingestNext s day key turns)
  | ingestInsert (s : Store) (day : Date) (key role content : String)
      (turns : List (String × String)) (hc : content ≠ "")
      (h : s.conversationTable ∈ db.schema) :
    Executes db buf (.ingestNext s day key ((role, content) :: turns)) .next
      (db.drawId s.conversationTable)
      (buf ++ [.insert s.conversationTable
        { id := db.nextId s.conversationTable, content, day, sessionKey := key, role }])
      (.ingestSend s day key role content (db.nextId s.conversationTable) turns)
  | ingestSend (s : Store) (day : Date) (key role content : String) (recordId : Nat)
      (turns : List (String × String)) :
    Executes db buf (.ingestSend s day key role content recordId turns) .next db.drawMsgId
      (buf ++ [sendJob db s.conversationTable recordId (role ++ ": " ++ content) s.dimensions])
      (.ingestNext s day key turns)
  | pollNone : Executes db buf .pollRead (.read none) db buf .done
  | pollRead (msgId : Nat) (m : Message)
      (h : db.queue.find? (fun m => m.msgId = msgId ∧ m.archived = false) = some m) :
    Executes db buf .pollRead (.read (some msgId)) db buf (.pollEmbed m)
  | pollEmbed (m : Message) (v : List PyFloat) :
    Executes db buf (.pollEmbed m) (.embedding v) db buf (.pollUpdate m v)
  | pollUpdate (m : Message) (v : List PyFloat) (w : List Float4) (hv : vectorIn v = some w)
      (h : UpdateOk db m.job.table w) :
    Executes db buf (.pollUpdate m v) .next db (buf ++ [.setEmbedding m.job.table m.job.id w])
      (.pollArchive m)
  | pollArchive (m : Message) :
    Executes db buf (.pollArchive m) .next db (buf ++ [.archive m.msgId]) .commit

theorem executes_of_exec {db db' : Db} {buf buf' : List Write} {pc pc' : Pc} {i : Input}
    (h : exec db buf pc i = some (db', buf', pc')) : Executes db buf pc i db' buf' pc' := by
  unfold exec at h
  split at h
  all_goals (repeat' split at h) <;>
    simp only [Option.some.injEq, Prod.mk.injEq, reduceCtorEq] at h
  all_goals obtain ⟨rfl, rfl, rfl⟩ := h
  all_goals subst_vars
  all_goals constructor <;> assumption

/-! ## What a statement can change -/

/-- The committed tables and queue are as before; the sequences have not gone back. -/
structure Frame (db db' : Db) : Prop where
  rows : db'.rows = db.rows
  queue : db'.queue = db.queue
  schema : db'.schema = db.schema
  nextId : ∀ t, db.nextId t ≤ db'.nextId t
  nextMsgId : db.nextMsgId ≤ db'.nextMsgId

theorem Frame.refl (db : Db) : Frame db db := ⟨rfl, rfl, rfl, fun _ => le_rfl, le_rfl⟩

theorem Frame.trans {db₁ db₂ db₃ : Db} (h₁ : Frame db₁ db₂) (h₂ : Frame db₂ db₃) :
    Frame db₁ db₃ :=
  ⟨h₂.rows.trans h₁.rows, h₂.queue.trans h₁.queue, h₂.schema.trans h₁.schema,
    fun t => (h₁.nextId t).trans (h₂.nextId t), h₁.nextMsgId.trans h₂.nextMsgId⟩

theorem Frame.drawId (db : Db) (t : Table) : Frame db (db.drawId t) :=
  ⟨rfl, rfl, rfl, fun t' => by
    by_cases h : t' = t
    · subst h; simp [Db.drawId]
    · simp [Db.drawId, Function.update_noteq h], le_rfl⟩

theorem Frame.drawMsgId (db : Db) : Frame db db.drawMsgId :=
  ⟨rfl, rfl, rfl, fun _ => le_rfl, Nat.le_succ _⟩

/-- A statement only draws sequence values; its writes wait in the buffer. -/
theorem Executes.frame {db db' : Db} {buf buf' : List Write} {pc pc' : Pc} {i : Input}
    (h : Executes db buf pc i db' buf' pc') : Frame db db' := by
  cases h <;> first | exact Frame.refl _ | exact Frame.drawId _ _ | exact Frame.drawMsgId _

/-! ## What a commit changes -/

/-- A row without its embedding: what every read of the store looks at. -/
def Row.erase (r : Row) : Row := { r with embedding := none }

@[simp] theorem Row.erase_setEmbedding (id : Nat) (v : List Float4) (r : Row) :
    (r.setEmbedding id v).erase = r.erase := by
  unfold Row.setEmbedding; split <;> rfl

def Write.inserted (t : Table) : Write → List Row
  | .insert t' r => if t' = t then [r] else []
  | _ => []

@[simp] theorem Db.apply_schema (db : Db) (w : Write) : (db.apply w).schema = db.schema := by
  cases w <;> rfl

@[simp] theorem Db.apply_nextId (db : Db) (w : Write) : (db.apply w).nextId = db.nextId := by
  cases w <;> rfl

theorem Db.apply_rows_erase (db : Db) (w : Write) (t : Table) :
    ((db.apply w).rows t).map Row.erase = (db.rows t ++ w.inserted t).map Row.erase := by
  cases w with
  | insert t' r =>
    by_cases h : t' = t
    · subst h; simp [Db.apply, Write.inserted]
    · simp [Db.apply, Write.inserted, h, Function.update_noteq (Ne.symm h)]
  | setEmbedding t' id v =>
    by_cases h : t' = t
    · subst h; simp [Db.apply, Write.inserted, Function.comp_def]
    · simp [Db.apply, Write.inserted, Function.update_noteq (Ne.symm h)]
  | send m => simp [Db.apply, Write.inserted]
  | archive msgId => simp [Db.apply, Write.inserted]

@[simp] theorem Db.applyAll_schema (db : Db) (ws : List Write) :
    (db.applyAll ws).schema = db.schema := by
  induction ws generalizing db <;> simp_all [Db.applyAll]

@[simp] theorem Db.applyAll_nextId (db : Db) (ws : List Write) :
    (db.applyAll ws).nextId = db.nextId := by
  induction ws generalizing db <;> simp_all [Db.applyAll]

/-- A commit appends to each table the rows its buffer inserts there; the other writes only
set embeddings. -/
theorem Db.applyAll_rows_erase (db : Db) (ws : List Write) (t : Table) :
    ((db.applyAll ws).rows t).map Row.erase =
      (db.rows t ++ ws.flatMap (Write.inserted t)).map Row.erase := by
  induction ws generalizing db with
  | nil => simp [Db.applyAll]
  | cons w ws ih =>
    simp only [Db.applyAll, List.foldl_cons] at ih ⊢
    rw [ih, List.map_append, Db.apply_rows_erase, List.flatMap_cons]
    simp

/-- What does not look at embeddings agrees on lists that agree up to embeddings. -/
theorem map_eq_of_erase {α : Type} {l l' : List Row} (h : l'.map Row.erase = l.map Row.erase)
    (f : Row → α) (hf : ∀ r, f r.erase = f r) : l'.map f = l.map f := by
  simpa only [List.map_map, Function.comp_def, hf] using congrArg (List.map f) h

/-! ## Running alone -/

section Alone

variable {db db' : Db} {pc : Pc} {buf : List Write} {ins : List Input}

/-- A call that raised kept only the sequence values it drew. -/
theorem runAlone_false_frame (h : runAlone db pc buf ins = (db', false)) : Frame db db' := by
  induction ins generalizing db pc buf with
  | nil =>
    cases pc <;> simp only [runAlone, Prod.mk.injEq, reduceCtorEq, and_false] at h
    all_goals exact h.1 ▸ Frame.refl _
  | cons i is ih =>
    simp only [runAlone] at h
    split at h
    · rename_i db₁ buf₁ pc₁ he
      exact (executes_of_exec he).frame.trans (ih h)
    · exact (Prod.mk.inj h).1 ▸ Frame.refl _

/-- The tables the rest of a call may still insert into. -/
def Pc.inserts : Pc → Table → Prop
  | .appendInsert s _ _, t => t = s.dailyTable
  | .versionSelect s _, t | .longTermInsert s _ _, t => t = s.longTermTable
  | .ingestNext s _ _ _, t | .ingestSend s _ _ _ _ _ _, t => t = s.conversationTable
  | _, _ => False

/-- A statement inserts only into a table its call may insert into. -/
theorem Executes.inserted {db db₁ : Db} {buf buf₁ : List Write} {pc pc₁ : Pc} {i : Input}
    (h : Executes db buf pc i db₁ buf₁ pc₁) (t : Table) (ht : ¬ pc.inserts t) :
    buf₁.flatMap (Write.inserted t) = buf.flatMap (Write.inserted t) ∧ ¬ pc₁.inserts t := by
  cases h <;> simp only [Pc.inserts] at ht ⊢ <;>
    first | simp [Write.inserted, sendJob, Ne.symm ht, ht] | simp [Write.inserted, sendJob, ht]

/-- A call that committed ran statement after statement to the end of its block. -/
theorem runAlone_true_inv (h : runAlone db pc buf ins = (db', true)) :
    (pc = .commit ∧ ins = [] ∧ db' = db.applyAll buf) ∨
    ∃ i is db₁ buf₁ pc₁, ins = i :: is ∧ Executes db buf pc i db₁ buf₁ pc₁ ∧
      runAlone db₁ pc₁ buf₁ is = (db', true) := by
  cases ins with
  | nil =>
    cases pc <;> simp only [runAlone, Prod.mk.injEq, and_true, and_false, reduceCtorEq] at h
    exact .inl ⟨rfl, rfl, h.symm⟩
  | cons i is =>
    simp only [runAlone] at h
    split at h
    · rename_i db₁ buf₁ pc₁ he
      exact .inr ⟨i, is, db₁, buf₁, pc₁, rfl, executes_of_exec he, h⟩
    · simp at h

/-- A committed call applied its final buffer to a state that differs from the first only in
its sequences, and that buffer inserts only into the call's own tables. -/
theorem runAlone_true_frame (h : runAlone db pc buf ins = (db', true)) :
    ∃ dbc bufc, Frame db dbc ∧ db' = dbc.applyAll bufc ∧
      ∀ t, ¬ pc.inserts t → bufc.flatMap (Write.inserted t) = buf.flatMap (Write.inserted t) := by
  induction ins generalizing db pc buf with
  | nil =>
    obtain ⟨-, -, rfl⟩ | ⟨_, _, _, _, _, h, -⟩ := runAlone_true_inv h
    · exact ⟨db, buf, Frame.refl _, rfl, fun _ _ => rfl⟩
    · cases h
  | cons i is ih =>
    obtain ⟨-, h, -⟩ | ⟨i, is, db₁, buf₁, pc₁, he, hx, hr⟩ := runAlone_true_inv h
    · cases h
    obtain ⟨rfl, rfl⟩ := List.cons.inj he
    obtain ⟨dbc, bufc, hf, rfl, hb⟩ := ih hr
    refine ⟨dbc, bufc, hx.frame.trans hf, rfl, fun t ht => ?_⟩
    obtain ⟨h₁, h₂⟩ := hx.inserted t ht
    rw [hb t h₂, h₁]

/-- A committed `append_today(content)` inserted one daily row and sent its job. -/
theorem runAlone_appendToday_true {s : Store} {day : Date} {content : String}
    (h : runAlone db (Call.appendToday s day content).entry [] ins = (db', true)) :
    db' = (db.drawId s.dailyTable).drawMsgId.applyAll
      [.insert s.dailyTable { id := db.nextId s.dailyTable, content, day },
        sendJob (db.drawId s.dailyTable) s.dailyTable (db.nextId s.dailyTable) content
          s.dimensions] := by
  rcases runAlone_true_inv h with ⟨⟨⟩, -⟩ | ⟨_, _, _, _, _, rfl, ⟨⟩, h⟩
  rcases runAlone_true_inv h with ⟨⟨⟩, -⟩ | ⟨_, _, _, _, _, rfl, ⟨⟩, h⟩
  rcases runAlone_true_inv h with ⟨-, -, rfl⟩ | ⟨_, _, _, _, _, -, ⟨⟩, -⟩
  rfl

/-- A committed `write_long_term(content)` inserted one row of the next version and sent its
job. -/
theorem runAlone_writeLongTerm_true {s : Store} {content : String}
    (h : runAlone db (Call.writeLongTerm s content).entry [] ins = (db', true)) :
    db' = (db.drawId s.longTermTable).drawMsgId.applyAll
      [.insert s.longTermTable
          { id := db.nextId s.longTermTable, content := content,
            version := maxVersion (db.rows s.longTermTable) + 1 },
        sendJob (db.drawId s.longTermTable) s.longTermTable (db.nextId s.longTermTable) content
          s.dimensions] := by
  rcases runAlone_true_inv h with ⟨⟨⟩, -⟩ | ⟨_, _, _, _, _, rfl, ⟨⟩, h⟩
  rcases runAlone_true_inv h with ⟨⟨⟩, -⟩ | ⟨_, _, _, _, _, rfl, ⟨⟩, h⟩
  rcases runAlone_true_inv h with ⟨⟨⟩, -⟩ | ⟨_, _, _, _, _, rfl, ⟨⟩, h⟩
  rcases runAlone_true_inv h with ⟨-, -, rfl⟩ | ⟨_, _, _, _, _, -, ⟨⟩, -⟩
  rfl

end Alone

/-! ## The worker on a long-term job -/

/-- `memory_long_term_dim{N}` has no `updated_at` column, so the worker's `UPDATE` fails on it
whatever the vector. -/
theorem not_updateOk_longTerm (db : Db) (t : Table) (v : List Float4) (h : t.family = .longTerm) :
    ¬ UpdateOk db t v := by
  rintro ⟨-, -, hu, -⟩
  rw [h] at hu
  simp [Family.columns] at hu

/-- Holding a long-term job, `_poll_once` returns `False` and changes nothing, whatever the
embedding service returns. -/
theorem runAlone_pollEmbed_longTerm (db : Db) (m : Message) (hm : m.job.table.family = .longTerm)
    (ins : List Input) : runAlone db (.pollEmbed m) [] ins = (db, false) := by
  rcases ins with _ | ⟨(_ | _ | v), _ | ⟨(_ | _ | _), is⟩⟩ <;>
    simp [runAlone, exec, not_updateOk_longTerm db _ _ hm]
  cases vectorIn v <;> rfl

/-- Every `write_long_term(content)` commit enqueues a job that no poll of the worker ever
completes: `_poll_once` on it returns `False` and leaves the row without embedding and the job
unarchived, for every vector the embedding service returns. -/
theorem write_long_term_job_never_embedded (db : Db) (s : Store) (content : String)
    (h : s.longTermTable ∈ db.schema) (ins : List Input) :
    let db₁ := (runAlone db (Call.writeLongTerm s content).entry [] [.next, .next, .next]).1
    ∃ m ∈ db₁.queue,
      m.job = ⟨s.longTermTable, db.nextId s.longTermTable, content, s.dimensions⟩ ∧
      runAlone db₁ (.pollEmbed m) [] ins = (db₁, false) := by
  refine ⟨⟨db.nextMsgId, ⟨s.longTermTable, db.nextId s.longTermTable, content, s.dimensions⟩,
    false⟩, ?_, rfl, runAlone_pollEmbed_longTerm _ _ rfl ins⟩
  simp [runAlone, exec, h, Call.entry, Db.applyAll, Db.apply, sendJob, Db.drawId, Db.drawMsgId]

theorem write_long_term_job_never_embedded_witness :
    (⟨.longTerm, 3⟩ : Table) ∈ (Db.empty.ensureSchema ⟨3⟩).schema ∧
    let db₁ := (runAlone (Db.empty.ensureSchema ⟨3⟩) (Call.writeLongTerm ⟨3⟩ "x").entry []
      [.next, .next, .next]).1
    ∃ m ∈ db₁.queue, m.job = ⟨⟨.longTerm, 3⟩, 1, "x", 3⟩ ∧
      runAlone db₁ (.pollEmbed m) [] [.embedding [0.1, 0.2, 0.3], .next, .next] = (db₁, false) :=
  ⟨by decide, write_long_term_job_never_embedded _ ⟨3⟩ "x" (by decide) _⟩

/-- A daily or conversation table that `_ensure_schema` created accepts the worker's `UPDATE` of
a vector of its dimension. -/
theorem updateOk_of_family {db : Db} {t : Table} {v : List Float4} (hs : t ∈ db.schema)
    (hf : t.family ≠ .longTerm) (hv : v.length = t.dim) : UpdateOk db t v := by
  refine ⟨hs, ?_, ?_, hv⟩ <;> cases h : t.family <;> simp_all [Family.columns]

end Clawbot.Memory.Postgres

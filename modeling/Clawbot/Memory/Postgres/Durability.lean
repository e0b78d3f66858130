import Clawbot.Memory.Postgres.Invariant

/-!
# Committed content is never lost

No statement of the write paths, the ingestor or the worker deletes a row or a queue message,
and the only `UPDATE` sets an embedding. `Keeps db db'` says that `db'` holds everything `db`
committed: every table, each table's rows up to their embeddings and the queue's messages up to
their archived flag as prefixes in commit order, every archived message still archived, every
embedded row still embedded, and sequences that have not gone back. Every event keeps it, so a
run keeps it from each of its states on, whatever the interleaving and wherever calls raise.
-/

namespace Clawbot.Memory.Postgres

open Clawbot.Python

/-- What the queue keeps of a message for good: its id and its job. -/
def Message.entry (m : Message) : Nat × Job := (m.msgId, m.job)

@[simp] theorem Message.entry_archive (id : Nat) (m : Message) :
    (m.archive id).entry = m.entry := by
  simp [Message.entry]

/-- `db'` holds everything `db` committed. -/
structure Keeps (db db' : Db) : Prop where
  schema : ∀ t ∈ db.schema, t ∈ db'.schema
  rows : ∀ t, (db.rows t).map Row.erase <+: (db'.rows t).map Row.erase
  queue : db.queue.map Message.entry <+: db'.queue.map Message.entry
  archived : ∀ m ∈ db.queue, m.archived = true →
    ∃ m' ∈ db'.queue, m'.msgId = m.msgId ∧ m'.archived = true
  embedded : ∀ t, ∀ r ∈ db.rows t, r.embedding.isSome →
    ∃ r' ∈ db'.rows t, r'.id = r.id ∧ r'.embedding.isSome
  nextId : ∀ t, db.nextId t ≤ db'.nextId t
  nextMsgId : db.nextMsgId ≤ db'.nextMsgId

namespace Keeps

theorem refl (db : Db) : Keeps db db :=
  ⟨fun _ h => h, fun _ => List.prefix_refl _, List.prefix_refl _,
    fun m hm ha => ⟨m, hm, rfl, ha⟩, fun _ r hr he => ⟨r, hr, rfl, he⟩, fun _ => le_rfl, le_rfl⟩

theorem trans {db₁ db₂ db₃ : Db} (h₁ : Keeps db₁ db₂) (h₂ : Keeps db₂ db₃) : Keeps db₁ db₃ where
  schema t ht := h₂.schema t (h₁.schema t ht)
  rows t := (h₁.rows t).trans (h₂.rows t)
  queue := h₁.queue.trans h₂.queue
  archived m hm ha := by
    obtain ⟨m₂, hm₂, hi₂, ha₂⟩ := h₁.archived m hm ha
    obtain ⟨m₃, hm₃, hi₃, ha₃⟩ := h₂.archived m₂ hm₂ ha₂
    exact ⟨m₃, hm₃, hi₃.trans hi₂, ha₃⟩
  embedded t r hr he := by
    obtain ⟨r₂, hr₂, hi₂, he₂⟩ := h₁.embedded t r hr he
    obtain ⟨r₃, hr₃, hi₃, he₃⟩ := h₂.embedded t r₂ hr₂ he₂
    exact ⟨r₃, hr₃, hi₃.trans hi₂, he₃⟩
  nextId t := (h₁.nextId t).trans (h₂.nextId t)
  nextMsgId := h₁.nextMsgId.trans h₂.nextMsgId

theorem of_frame {db db' : Db} (h : Frame db db') : Keeps db db' := by
  obtain ⟨hr, hq, hs, hn, hm⟩ := h
  exact ⟨fun t ht => hs ▸ ht, fun t => hr ▸ List.prefix_refl _, hq ▸ List.prefix_refl _,
    fun m hm' ha => ⟨m, hq ▸ hm', rfl, ha⟩, fun t r hr' he => ⟨r, hr ▸ hr', rfl, he⟩, hn, hm⟩

theorem ensureSchema (db : Db) (s : Store) : Keeps db (db.ensureSchema s) :=
  { refl db with
    schema := fun _ ht =>
      List.mem_insert_of_mem (List.mem_insert_of_mem (List.mem_insert_of_mem ht)) }

/-- One committed write keeps everything: an `INSERT` appends a row, `pgmq.send` a message,
the `UPDATE` sets an embedding and `pgmq.archive` sets the archived flag. -/
theorem apply (db : Db) (w : Write) : Keeps db (db.apply w) := by
  cases w with
  | insert t r =>
    refine { refl db with
      rows := fun t' => ?_
      embedded := fun t' r' hr' he => ?_
      nextId := fun _ => by simp }
    · by_cases h : t' = t
      · subst h; simp [Db.apply]
      · simp [Db.apply, Function.update_noteq h]
    · refine ⟨r', ?_, rfl, he⟩
      by_cases h : t' = t
      · subst h; simp [Db.apply, hr']
      · simpa [Db.apply, Function.update_noteq h] using hr'
  | send m =>
    refine { refl db with
      queue := by simp [Db.apply]
      archived := fun m' hm ha => ⟨m', ?_, rfl, ha⟩ }
    simp [Db.apply, hm]
  | setEmbedding t id v =>
    refine { refl db with
      rows := fun t' => ?_
      embedded := fun t' r hr he => ?_
      nextId := fun _ => by simp }
    · by_cases h : t' = t
      · subst h; simp [Db.apply, Function.comp_def]
      · simp [Db.apply, Function.update_noteq h]
    · by_cases h : t' = t
      · subst h
        refine ⟨r.setEmbedding id v, by simpa [Db.apply] using List.mem_map_of_mem _ hr,
          by simp, ?_⟩
        rw [Row.setEmbedding_embedding]; split <;> simp [he]
      · exact ⟨r, by simpa [Db.apply, Function.update_noteq h] using hr, rfl, he⟩
  | archive id =>
    refine { refl db with
      queue := by simp [Db.apply, Function.comp_def]
      archived := fun m hm ha => ⟨m.archive id, List.mem_map_of_mem _ hm, by simp, ?_⟩ }
    unfold Message.archive; split <;> simp [ha]

theorem applyAll (db : Db) (ws : List Write) : Keeps db (db.applyAll ws) := by
  induction ws generalizing db with
  | nil => exact refl db
  | cons w ws ih => exact (apply db w).trans (ih (db.apply w))

theorem transition {sys sys' : Sys} {e : Event} (ht : Transition sys e sys') :
    Keeps sys.db sys'.db := by
  cases ht with
  | stay | start | raise => exact refl _
  | ensureSchema s => exact ensureSchema _ s
  | exec _ hx => exact of_frame hx.frame
  | commit _ => exact applyAll _ _

theorem foldl (sys : Sys) (es : List Event) : Keeps sys.db (es.foldl Sys.step sys).db := by
  induction es generalizing sys with
  | nil => exact refl _
  | cons e es ih => exact (transition (Sys.transition_step sys e)).trans (ih _)

end Keeps

/-- Along every run, from each of its states on, however calls interleave and wherever they
raise: no table disappears; each table's rows, up to their embeddings, and the queue's messages,
up to their archived flag, only grow by appending in commit order; an archived message stays
archived, an embedded row stays embedded, and no sequence goes back. -/
theorem runs_keep_committed_content (es es' : List Event) :
    Keeps (Sys.run es).db (Sys.run (es ++ es')).db := by
  unfold Sys.run
  rw [List.foldl_append]
  exact Keeps.foldl _ es'

end Clawbot.Memory.Postgres

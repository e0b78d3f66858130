import Clawbot.Memory.Postgres.Run

/-!
# Sequential runs refine a plain memory

What one `PostgresMemoryStore` is for is a `Memory`: the notes appended, each with its day,
and the long-term texts written, in call order; reads return today's notes joined by newlines
and the last long-term text. `Refines s db mem` says the database holds that memory for store
`s`, with the long-term versions numbered `1..n`. Every call run alone keeps the relation,
recording its effect when it commits, so a whole sequential run does, and the store's reads
agree with the memory's.
-/

namespace Clawbot.Memory.Postgres

open Clawbot.Python

/-- What a store keeps, as its reads should see it. -/
structure Memory where
  notes : List (Date × String)
  longTerm : List String

def Memory.empty : Memory := ⟨[], []⟩

/-- The effect of a committed call on store `s`'s memory. -/
def Memory.record (s : Store) (mem : Memory) : Call → Memory
  | .appendToday s' day content =>
    if s' = s then { mem with notes := mem.notes ++ [(day, content)] } else mem
  | .writeLongTerm s' content =>
    if s' = s then { mem with longTerm := mem.longTerm ++ [content] } else mem
  | _ => mem

/-- The notes of one day, in append order. -/
def Memory.readToday (mem : Memory) (today : Date) : String :=
  join "\n" ((mem.notes.filter (·.1 = today)).map (·.2))

/-- The last long-term text, or `""`. -/
def Memory.readLongTerm (mem : Memory) : String := mem.longTerm.getLast?.getD ""

/-- The database holds `mem` for store `s`. -/
structure Refines (s : Store) (db : Db) (mem : Memory) : Prop where
  daily_mem : s.dailyTable ∈ db.schema
  longTerm_mem : s.longTermTable ∈ db.schema
  notes : (db.rows s.dailyTable).map (fun r => (r.day, r.content)) = mem.notes
  ids : ((db.rows s.dailyTable).map Row.id).Pairwise (· < ·)
  ids_lt : ∀ i ∈ (db.rows s.dailyTable).map Row.id, i < db.nextId s.dailyTable
  longTerm : (db.rows s.longTermTable).map Row.content = mem.longTerm
  versions : (db.rows s.longTermTable).map Row.version = List.range' 1 mem.longTerm.length

/-! ## Reads -/

theorem maxVersion_append_single (rows : List Row) (r : Row) :
    maxVersion (rows ++ [r]) = max (maxVersion rows) r.version :=
  List.foldl_append _ _ _ _

theorem maxVersion_of_versions (rows : List Row) (n : Nat)
    (h : rows.map Row.version = List.range' 1 n) : maxVersion rows = n := by
  induction rows using List.reverseRecOn generalizing n with
  | nil => cases n <;> simp_all [maxVersion, List.range'_succ]
  | append_singleton rows r ih =>
    cases n with
    | zero => simp at h
    | succ n =>
      rw [List.range'_concat, List.map_append, List.map_singleton] at h
      obtain ⟨h₁, h₂⟩ := List.append_inj' h rfl
      rw [maxVersion_append_single, ih n h₁]
      simp at h₂; omega

/-- Versions numbered `1..n` leave one row of greatest version: the last. -/
theorem filter_maxVersion (rows : List Row) (r : Row)
    (h : (rows ++ [r]).map Row.version = List.range' 1 (rows.length + 1)) :
    (rows ++ [r]).filter (·.version = maxVersion (rows ++ [r])) = [r] := by
  rw [maxVersion_of_versions _ _ h]
  rw [List.range'_concat, List.map_append, List.map_singleton] at h
  obtain ⟨h₁, h₂⟩ := List.append_inj' h rfl
  have hr : r.version = rows.length + 1 := by simp at h₂; omega
  have hlt : ∀ x ∈ rows, x.version ≠ rows.length + 1 := fun x hx => by
    have := List.mem_map_of_mem Row.version hx
    rw [h₁, List.mem_range'] at this; omega
  rw [List.filter_append, List.filter_eq_nil_iff.mpr fun x hx => by simpa using hlt x hx]
  simp [hr]

theorem Refines.longTermCandidates_eq {s : Store} {db : Db} {mem : Memory}
    (h : Refines s db mem) : longTermCandidates db s = [mem.readLongTerm] := by
  unfold Postgres.longTermCandidates Memory.readLongTerm
  have hv := h.versions
  rw [← h.longTerm, List.length_map] at hv
  rw [← h.longTerm]
  rcases List.eq_nil_or_concat (db.rows s.longTermTable) with he | ⟨rows, r, he⟩
  · simp [he]
  · rw [he, List.concat_eq_append] at hv ⊢
    rw [List.length_append, List.length_singleton] at hv
    simp [filter_maxVersion rows r hv]

theorem Refines.readToday_eq {s : Store} {db : Db} {mem : Memory} (h : Refines s db mem)
    (today : Date) : readToday db s today = mem.readToday today := by
  have hs : ((db.rows s.dailyTable).filter (·.day = today)).Pairwise
      (fun a b => decide (a.id ≤ b.id) = true) :=
    ((List.pairwise_map.mp h.ids).imp fun hab => by simpa using hab.le).filter _
  unfold Postgres.readToday Memory.readToday
  dsimp only
  rw [List.mergeSort_of_sorted hs, ← h.notes, List.filter_map, List.map_map, if_nil_join]
  rfl

/-! ## Calls keep the relation -/

section Step

variable {s : Store} {db db' : Db} {mem : Memory}

/-- What a read takes from a row does not depend on the row's embedding. -/
theorem Refines.of_erase (h : Refines s db mem) (hs : db'.schema = db.schema)
    (hn : db.nextId s.dailyTable ≤ db'.nextId s.dailyTable)
    (hd : (db'.rows s.dailyTable).map Row.erase = (db.rows s.dailyTable).map Row.erase)
    (hl : (db'.rows s.longTermTable).map Row.erase = (db.rows s.longTermTable).map Row.erase) :
    Refines s db' mem where
  daily_mem := hs ▸ h.daily_mem
  longTerm_mem := hs ▸ h.longTerm_mem
  notes := (map_eq_of_erase hd (fun r => (r.day, r.content)) fun _ => rfl).trans h.notes
  ids := (map_eq_of_erase hd Row.id fun _ => rfl) ▸ h.ids
  ids_lt i hi := (h.ids_lt i ((map_eq_of_erase hd Row.id fun _ => rfl) ▸ hi)).trans_le hn
  longTerm := (map_eq_of_erase hl Row.content fun _ => rfl).trans h.longTerm
  versions := (map_eq_of_erase hl Row.version fun _ => rfl).trans h.versions

/-- A committed append adds its note: its row has the next id. -/
theorem Refines.note (h : Refines s db mem) (hs : db'.schema = db.schema) (r : Row)
    (hr : r.id = db.nextId s.dailyTable) (hn : db.nextId s.dailyTable < db'.nextId s.dailyTable)
    (hd : (db'.rows s.dailyTable).map Row.erase = (db.rows s.dailyTable ++ [r]).map Row.erase)
    (hl : (db'.rows s.longTermTable).map Row.erase = (db.rows s.longTermTable).map Row.erase) :
    Refines s db' { mem with notes := mem.notes ++ [(r.day, r.content)] } where
  daily_mem := hs ▸ h.daily_mem
  longTerm_mem := hs ▸ h.longTerm_mem
  notes := by rw [map_eq_of_erase hd (fun r => (r.day, r.content)) fun _ => rfl, List.map_append,
    h.notes]; rfl
  ids := by
    rw [map_eq_of_erase hd Row.id fun _ => rfl, List.map_append, List.pairwise_append]
    exact ⟨h.ids, List.pairwise_singleton _ _, fun a ha b hb => by
      rw [List.mem_singleton.mp hb, hr]; exact h.ids_lt a ha⟩
  ids_lt i hi := by
    rw [map_eq_of_erase hd Row.id fun _ => rfl, List.map_append, List.mem_append] at hi
    rcases hi with hi | hi
    · exact (h.ids_lt i hi).trans hn
    · rw [List.mem_singleton.mp hi, hr]; exact hn
  longTerm := (map_eq_of_erase hl Row.content fun _ => rfl).trans h.longTerm
  versions := (map_eq_of_erase hl Row.version fun _ => rfl).trans h.versions

/-- A committed long-term write adds its text: its row has the next version. -/
theorem Refines.longTermWrite (h : Refines s db mem) (hs : db'.schema = db.schema) (r : Row)
    (hr : r.version = maxVersion (db.rows s.longTermTable) + 1)
    (hn : db.nextId s.dailyTable ≤ db'.nextId s.dailyTable)
    (hd : (db'.rows s.dailyTable).map Row.erase = (db.rows s.dailyTable).map Row.erase)
    (hl : (db'.rows s.longTermTable).map Row.erase =
      (db.rows s.longTermTable ++ [r]).map Row.erase) :
    Refines s db' { mem with longTerm := mem.longTerm ++ [r.content] } where
  daily_mem := hs ▸ h.daily_mem
  longTerm_mem := hs ▸ h.longTerm_mem
  notes := (map_eq_of_erase hd (fun r => (r.day, r.content)) fun _ => rfl).trans h.notes
  ids := (map_eq_of_erase hd Row.id fun _ => rfl) ▸ h.ids
  ids_lt i hi := (h.ids_lt i ((map_eq_of_erase hd Row.id fun _ => rfl) ▸ hi)).trans_le hn
  longTerm := by
    rw [map_eq_of_erase hl Row.content fun _ => rfl, List.map_append, h.longTerm]; rfl
  versions := by
    rw [map_eq_of_erase hl Row.version fun _ => rfl, List.map_append, h.versions,
      List.length_append, List.length_singleton, List.range'_concat, List.map_singleton, hr,
      maxVersion_of_versions _ _ h.versions]
    simp [Nat.add_comm]

/-- Every call run alone keeps the relation, recording its effect when it commits. -/
theorem Refines.runAlone (h : Refines s db mem) (c : Call) (ins : List Input) :
    Refines s (runAlone db c.entry [] ins).1
      (if (runAlone db c.entry [] ins).2 then mem.record s c else mem) := by
  rcases hr : Postgres.runAlone db c.entry [] ins with ⟨db', _ | _⟩
  · have hf := runAlone_false_frame hr
    exact h.of_erase hf.schema (hf.nextId _) (by rw [hf.rows]) (by rw [hf.rows])
  obtain ⟨dbc, bufc, hf, hdb, hb⟩ := runAlone_true_frame hr
  have keep : ∀ t, ¬ c.entry.inserts t → (db'.rows t).map Row.erase = (db.rows t).map Row.erase :=
    fun t ht => by rw [hdb, Db.applyAll_rows_erase, hb t ht, hf.rows]; simp
  have hs : db'.schema = db.schema := by rw [hdb, Db.applyAll_schema, hf.schema]
  have hn : db.nextId s.dailyTable ≤ db'.nextId s.dailyTable := by
    rw [hdb, Db.applyAll_nextId]; exact hf.nextId _
  have hframe : ¬ c.entry.inserts s.dailyTable → ¬ c.entry.inserts s.longTermTable →
      Refines s db' mem := fun hd hl => h.of_erase hs hn (keep _ hd) (keep _ hl)
  dsimp only
  cases c with
  | appendToday s' day content =>
    by_cases he : s' = s
    · subst he
      have hx := runAlone_appendToday_true hr
      simp only [↓reduceIte, Memory.record]
      refine h.note hs { id := db.nextId s'.dailyTable, content, day } rfl ?_ ?_
        (keep _ (by simp [Call.entry, Pc.inserts]))
      · rw [hx]; simp [Db.drawId, Db.drawMsgId]
      · rw [hx]; simp [Db.applyAll_rows_erase, Write.inserted, sendJob, Db.drawId, Db.drawMsgId]
    · simpa [Memory.record, he] using hframe (by simp [Call.entry, Pc.inserts, Ne.symm he])
        (by simp [Call.entry, Pc.inserts])
  | writeLongTerm s' content =>
    by_cases he : s' = s
    · subst he
      have hx := runAlone_writeLongTerm_true hr
      simp only [↓reduceIte, Memory.record]
      refine h.longTermWrite hs
        { id := db.nextId s'.longTermTable, content := content,
          version := maxVersion (db.rows s'.longTermTable) + 1 } rfl hn
        (keep _ (by simp [Call.entry, Pc.inserts])) ?_
      rw [hx]; simp [Db.applyAll_rows_erase, Write.inserted, sendJob, Db.drawId, Db.drawMsgId]
    · simpa [Memory.record, he] using hframe (by simp [Call.entry, Pc.inserts])
        (by simp [Call.entry, Pc.inserts, Ne.symm he])
  | _ =>
    simpa [Memory.record] using hframe (by simp [Call.entry, Pc.inserts])
      (by simp [Call.entry, Pc.inserts])

theorem Refines.seqRun (log : List Call)
    (h : Refines s db (log.foldl (Memory.record s) Memory.empty))
    (ops : List (Call × List Input)) :
    Refines s (Postgres.seqRun db log ops).1
      ((Postgres.seqRun db log ops).2.foldl (Memory.record s) Memory.empty) := by
  induction ops generalizing db log with
  | nil => exact h
  | cons op ops ih =>
    apply ih
    have := h.runAlone op.1 op.2
    split at this <;> simp_all [List.foldl_append]

end Step

theorem refines_ensureSchema (s : Store) : Refines s (Db.empty.ensureSchema s) Memory.empty where
  daily_mem := by simp [Db.ensureSchema, List.mem_insert_iff]
  longTerm_mem := by simp [Db.ensureSchema, List.mem_insert_iff]
  notes := rfl
  ids := List.Pairwise.nil
  ids_lt _ h := by simp [Db.empty, Db.ensureSchema] at h
  longTerm := rfl
  versions := rfl

/-- A sequential run from a freshly initialized store: the long-term rows carry the versions
`1..n` in insertion order, `read_long_term()` can only return the text of the last committed
`write_long_term` (or `""`), and `read_today()` returns the day's committed appends joined by
`"\n"` in call order; appends, ingests and worker polls in between change none of this. -/
theorem sequential_run_reads (s : Store) (ops : List (Call × List Input)) :
    let r := seqRun (Db.empty.ensureSchema s) [] ops
    let mem := r.2.foldl (Memory.record s) Memory.empty
    (r.1.rows s.longTermTable).map Row.version =
        List.range' 1 (r.1.rows s.longTermTable).length ∧
      longTermCandidates r.1 s = [mem.readLongTerm] ∧
      ∀ today, readToday r.1 s today = mem.readToday today := by
  have h := Refines.seqRun [] (refines_ensureSchema s) ops
  refine ⟨?_, h.longTermCandidates_eq, h.readToday_eq⟩
  rw [h.versions, ← h.longTerm, List.length_map]

/-- An `append_today` and a `write_long_term` that both commit: the reads return what they
wrote. -/
theorem sequential_run_reads_two_writes :
    let ops : List (Call × List Input) :=
      [(.appendToday ⟨3⟩ 0 "x", [.next, .next]), (.writeLongTerm ⟨3⟩ "y", [.next, .next, .next])]
    let r := seqRun (Db.empty.ensureSchema ⟨3⟩) [] ops
    r.2.length = 2 ∧ (r.2.foldl (Memory.record ⟨3⟩) Memory.empty).readLongTerm = "y" ∧
      (r.2.foldl (Memory.record ⟨3⟩) Memory.empty).readToday 0 = "x" ∧
      longTermCandidates r.1 ⟨3⟩ = [(r.2.foldl (Memory.record ⟨3⟩) Memory.empty).readLongTerm] ∧
      readToday r.1 ⟨3⟩ 0 = (r.2.foldl (Memory.record ⟨3⟩) Memory.empty).readToday 0 := by
  intro ops r
  have h := sequential_run_reads ⟨3⟩ ops
  exact ⟨by decide, by decide, by decide, h.2.1, h.2.2 0⟩

end Clawbot.Memory.Postgres

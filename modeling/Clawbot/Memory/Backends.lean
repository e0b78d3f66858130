import Clawbot.Memory.FileStore
import Clawbot.Memory.Postgres.Sequential

/-!
# The two backends side by side

`MemoryStore` and `PostgresMemoryStore` implement one `MemoryBackend` protocol. Their
`get_recent_memories(days)` take different windows: the file store reads the day files of
`range(days)`, that is `today, ..., today - days + 1`, while the query keeps the rows with
`entry_date >= today - days`, one date more.

Made one after another on one day, the same `append_today` and `write_long_term` calls leave
both stores holding the plain `Memory` the run records, so their reads agree up to the
`# YYYY-MM-DD` header the file store writes into a new day file.
-/

namespace Clawbot.Memory

open Clawbot.Python Postgres

/-- A note exactly `days` days old: the database backend's `get_recent_memories(days)` shows it,
the file backend's does not. -/
theorem recent_memories_window_differs (isoformat : Date → String) (s : Store) (today : Date)
    (days : Int) (x : String)
    (hiso : ∀ i < days.toNat, isoformat (today - i) ≠ isoformat (today - days)) :
    FileStore.getRecentMemories isoformat today days
        (FileStore.appendToday isoformat (today - days) x .complete .empty) = .ok "" ∧
    Postgres.getRecentMemories isoformat
        (runAlone (Db.empty.ensureSchema s) (Call.appendToday s (today - days) x).entry []
          [.next, .next]).1 s today days = "# " ++ isoformat (today - days) ++ "\n\n" ++ x := by
  constructor
  · simp only [FileStore.getRecentMemories]
    rw [List.filterMap_eq_nil_iff.mpr]
    · rfl
    · intro i hi
      simp [FileStore.appendToday, FileStore.appendText, FileStore.MemoryDir.empty,
        hiso i (List.mem_range.mp hi)]
  · simp [runAlone, exec, Call.entry, Db.ensureSchema, Db.empty, Db.applyAll, Db.apply, sendJob,
      Db.drawId, Db.drawMsgId, Postgres.getRecentMemories, groupByDate, setdefaultAppend, join]

theorem recent_memories_window_differs_witness :
    (∀ i < (1 : Int).toNat, toString ((0 : Int) - i) ≠ toString ((0 : Int) - 1)) ∧
    FileStore.getRecentMemories (fun d => toString d) 0 1
        (FileStore.appendToday (fun d => toString d) (0 - 1) "x" .complete .empty) = .ok "" ∧
    Postgres.getRecentMemories (fun d => toString d)
        (runAlone (Db.empty.ensureSchema ⟨3⟩) (Call.appendToday ⟨3⟩ (0 - 1) "x").entry []
          [.next, .next]).1 ⟨3⟩ 0 1 = "# " ++ toString ((0 : Int) - 1) ++ "\n\n" ++ "x" := by
  have h : ∀ i < (1 : Int).toNat, toString ((0 : Int) - i) ≠ toString ((0 : Int) - 1) := by decide
  exact ⟨h, recent_memories_window_differs (fun d => toString d) ⟨3⟩ 0 1 "x" h⟩

/-! ## One day of completed calls -/

/-- The database call of a file-store call, with the inputs under which it commits. -/
def dbCall (s : Store) (day : Date) : FileStore.Op → Call × List Input
  | .appendToday x => (.appendToday s day x, [.next, .next])
  | .writeLongTerm y => (.writeLongTerm s y, [.next, .next, .next])

/-- Each such call commits on a store whose tables exist. -/
theorem dbCall_commits {s : Store} {db : Db} {mem : Memory} (h : Refines s db mem) (day : Date)
    (op : FileStore.Op) :
    (runAlone db (dbCall s day op).1.entry [] (dbCall s day op).2).2 = true := by
  cases op <;> simp [dbCall, Call.entry, runAlone, exec, h.daily_mem, h.longTerm_mem]

/-- A sequential run of such calls logs every one of them. -/
theorem seqRun_dbCalls {s : Store} (day : Date) (ops : List FileStore.Op) :
    ∀ {db : Db} (log : List Call), Refines s db (log.foldl (Memory.record s) Memory.empty) →
      (seqRun db log (ops.map (dbCall s day))).2 =
        log ++ ops.map fun op => (dbCall s day op).1 := by
  induction ops with
  | nil => simp [seqRun]
  | cons op ops ih =>
    intro db log h
    have hc := dbCall_commits h day op
    have hr := h.runAlone (dbCall s day op).1 (dbCall s day op).2
    rw [if_pos hc] at hr
    rw [List.map_cons, seqRun_cons, hc, if_pos rfl, ih _ (by simpa using hr)]
    simp

/-- The memory such a run records: the appended notes, all of that day, and the texts written. -/
theorem record_dbCalls (s : Store) (day : Date) (ops : List FileStore.Op) :
    ((ops.map fun op => (dbCall s day op).1).foldl (Memory.record s) Memory.empty).notes =
        (FileStore.appended ops).map (day, ·) ∧
      ((ops.map fun op => (dbCall s day op).1).foldl (Memory.record s)
        Memory.empty).longTerm.getLast? = FileStore.lastWritten ops := by
  induction ops using List.reverseRecOn with
  | nil => exact ⟨rfl, rfl⟩
  | append_singleton ops op ih =>
    rw [List.map_append, List.foldl_append, FileStore.appended_append,
      FileStore.lastWritten_append]
    cases op <;> simp [dbCall.eq_1, dbCall.eq_2, Memory.record, FileStore.appended,
      FileStore.lastWritten, ih.1, ih.2]

/-- The same completed `append_today` and `write_long_term` calls on one day, on a fresh memory
directory and on a freshly initialized database, with texts and date free of `"\r"`: the file
store's `read_today()` is the database store's with the `# YYYY-MM-DD` header in front (both
`""` when nothing was appended), and the database store's `read_long_term()` can only return
what the file store's returns, which does not raise. -/
theorem backends_agree_on_one_day (isoformat : Date → String) (now : Date) (s : Store)
    (ops : List FileStore.Op) (hd : '\r' ∉ (isoformat now).data)
    (hx : ∀ x ∈ FileStore.appended ops, '\r' ∉ x.data)
    (hy : '\r' ∉ ((FileStore.lastWritten ops).getD "").data) :
    FileStore.readToday isoformat now (FileStore.runOps isoformat now ops .empty) =
        .ok (if FileStore.appended ops = [] then ""
        else "# " ++ isoformat now ++ "\n\n" ++
          readToday (seqRun (Db.empty.ensureSchema s) [] (ops.map (dbCall s now))).1 s now) ∧
      ∃ y, FileStore.readLongTerm (FileStore.runOps isoformat now ops .empty) = .ok y ∧
        longTermCandidates (seqRun (Db.empty.ensureSchema s) [] (ops.map (dbCall s now))).1 s =
          [y] := by
  have hr := Refines.seqRun [] (refines_ensureSchema s) (ops.map (dbCall s now))
  rw [seqRun_dbCalls now ops [] (refines_ensureSchema s), List.nil_append] at hr
  obtain ⟨hn, hl⟩ := record_dbCalls s now ops
  have hnotes : FileStore.HoldsNotes isoformat now
      (FileStore.runOps isoformat now ops .empty) (FileStore.appended ops) := by
    simpa using @FileStore.holdsNotes_runOps isoformat now .empty [] ops rfl
  constructor
  · have hh : '\r' ∉ ("# " ++ isoformat now ++ "\n\n").data := by simpa using hd
    have hxs : (FileStore.appended ops).map readText = FileStore.appended ops :=
      (List.map_congr_left fun x h =>
        (readText_of_cr_not_mem x (hx x h) : readText x = id x)).trans (List.map_id _)
    rw [FileStore.readToday_of_holdsNotes hnotes, hr.readToday_eq, Memory.readToday, hn,
      FileStore.notesOf, readText_of_cr_not_mem _ hh, hxs]
    simp [List.filter_map, Function.comp_def]
  · refine ⟨(FileStore.lastWritten ops).getD "", ?_, by
      rw [hr.longTermCandidates_eq, Memory.readLongTerm, hl]⟩
    rw [FileStore.readLongTerm_runOps]
    cases hw : FileStore.lastWritten ops with
    | none => rfl
    | some y => simp [readText_of_cr_not_mem y (by simpa [hw] using hy)]

theorem backends_agree_on_one_day_witness :
    FileStore.readToday (fun _ => "2026-11-09") 0 (FileStore.runOps (fun _ => "2026-11-09") 0
        [.appendToday "a", .writeLongTerm "b", .appendToday "c"] .empty) =
        .ok (if FileStore.appended [.appendToday "a", .writeLongTerm "b", .appendToday "c"] = []
        then "" else "# " ++ "2026-11-09" ++ "\n\n" ++
          readToday (seqRun (Db.empty.ensureSchema ⟨3⟩) []
            ([.appendToday "a", .writeLongTerm "b", .appendToday "c"].map (dbCall ⟨3⟩ 0))).1
            ⟨3⟩ 0) ∧
      ∃ y, FileStore.readLongTerm (FileStore.runOps (fun _ => "2026-11-09") 0
          [.appendToday "a", .writeLongTerm "b", .appendToday "c"] .empty) = .ok y ∧
        longTermCandidates (seqRun (Db.empty.ensureSchema ⟨3⟩) []
          ([.appendToday "a", .writeLongTerm "b", .appendToday "c"].map (dbCall ⟨3⟩ 0))).1 ⟨3⟩ =
          [y] :=
  backends_agree_on_one_day (fun _ => "2026-11-09") 0 ⟨3⟩
    [.appendToday "a", .writeLongTerm "b", .appendToday "c"] (by decide) (by decide) (by decide)

end Clawbot.Memory

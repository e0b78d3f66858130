import Clawbot.Memory.Postgres.ReadOrder
import Clawbot.Memory.Postgres.LongTermSearch

/-!
# Every committed call's rows, exactly once

Each call runs in its own transaction: its `INSERT`s wait in its buffer and reach the tables only
when its block commits, all of them at once. Along any run, however the calls interleave and
wherever they raise, the rows of every table are therefore exactly the rows the committed calls
wrote, call after call in commit order: a daily note for each committed `append_today`, a text
for each committed `write_long_term`, a row for each non-empty half of each committed `ingest`;
none from a call that raised, and none twice.

The run is logged: `committedCalls` lists the calls whose block committed, by the index of their
`start` among the run's starts, which is also their thread. A row is compared by what its call
decides (content, day, session key and role), not by the id it drew, the version it read or the
embedding the worker set.

The readers see the same: `read_today()` returns each committed note of the day once, in some
order, `read_long_term()` the text of a committed `write_long_term` or `""`, and
`memory_search_dim{N}` only rows of committed calls.
-/

namespace Clawbot.Memory.Postgres

open Clawbot.Python

/-- What a row holds from its call: content, day, session key and role. -/
def Row.fields (r : Row) : String × Date × String × String :=
  (r.content, r.day, r.sessionKey, r.role)

@[simp] theorem Row.fields_erase (r : Row) : r.erase.fields = r.fields := rfl

/-- The rows a turn's halves write into `t`: one for each non-empty half, when `t` is the store's
conversation table. -/
def turnWrites (t : Table) (s : Store) (day : Date) (key : String)
    (turns : List (String × String)) : List (String × Date × String × String) :=
  if s.conversationTable = t then (turns.filter (·.2 ≠ "")).map fun p => (p.2, day, key, p.1)
  else []

/-- The rows a call's commit adds to `t`. -/
def Call.writes (t : Table) : Call → List (String × Date × String × String)
  | .appendToday s day content => if s.dailyTable = t then [(content, day, "", "")] else []
  | .writeLongTerm s content => if s.longTermTable = t then [(content, 0, "", "")] else []
  | .ingest s day key userMsg assistantMsg =>
    turnWrites t s day key [("user", userMsg), ("assistant", assistantMsg)]
  | .pollOnce => []

/-- The rows a call standing at `pc` has still to insert into `t`. -/
def Pc.writes (t : Table) : Pc → List (String × Date × String × String)
  | .appendInsert s day content => if s.dailyTable = t then [(content, day, "", "")] else []
  | .versionSelect s content | .longTermInsert s content _ =>
    if s.longTermTable = t then [(content, 0, "", "")] else []
  | .ingestNext s day key turns | .ingestSend s day key _ _ _ turns => turnWrites t s day key turns
  | _ => []

theorem Call.writes_entry (t : Table) (c : Call) : c.entry.writes t = c.writes t := by
  cases c <;> rfl

/-- A statement moves what it inserts from what its call has still to insert into its buffer. -/
theorem Executes.writes {db db' : Db} {buf buf' : List Write} {pc pc' : Pc} {i : Input}
    (hx : Executes db buf pc i db' buf' pc') (t : Table) :
    (buf'.flatMap (Write.inserted t)).map Row.fields ++ pc'.writes t =
      (buf.flatMap (Write.inserted t)).map Row.fields ++ pc.writes t := by
  cases hx <;> simp [Pc.writes, turnWrites, Write.inserted, sendJob] <;> split_ifs <;>
    simp_all [Row.fields]

/-! ## Logging commits -/

def Pc.isCommit : Pc → Bool
  | .commit => true
  | _ => false

/-- The log after an event: a commit that takes effect logs its call. -/
def Sys.logStep (sys : Sys) (log : List Nat) : Event → List Nat
  | .commit i => if (sys.threads[i]?.map (·.pc.isCommit)).getD false then log ++ [i] else log
  | _ => log

def Sys.stepLog (p : Sys × List Nat) (e : Event) : Sys × List Nat :=
  (p.1.step e, p.1.logStep p.2 e)

/-- The calls a run starts, in order: the `i`-th runs as thread `i`. -/
def startedCalls (es : List Event) : List Call :=
  es.filterMap fun e => match e with
    | .start c => some c
    | _ => none

theorem startedCalls_append (es es' : List Event) :
    startedCalls (es ++ es') = startedCalls es ++ startedCalls es' :=
  List.filterMap_append _ _ _

/-- The calls whose block commits along a run, by index, in commit order. -/
def committedCalls (es : List Event) : List Nat :=
  (es.foldl Sys.stepLog (Sys.init, [])).2

theorem foldl_stepLog_fst (es : List Event) (p : Sys × List Nat) :
    (es.foldl Sys.stepLog p).1 = es.foldl Sys.step p.1 := by
  induction es generalizing p with
  | nil => rfl
  | cons e es ih => exact ih _

theorem Sys.step_commit {sys : Sys} {i : Nat} {buf : List Write}
    (h : sys.threads[i]? = some ⟨.commit, buf⟩) :
    sys.step (.commit i) = ⟨sys.db.applyAll buf, sys.threads.set i ⟨.done, []⟩⟩ ∧
      ∀ log, sys.logStep log (.commit i) = log ++ [i] := by
  simp [Sys.step, Sys.logStep, h, Pc.isCommit]

theorem Sys.step_commit_of_not {sys : Sys} {i : Nat}
    (h : ∀ buf, sys.threads[i]? ≠ some ⟨.commit, buf⟩) :
    sys.step (.commit i) = sys ∧ ∀ log, sys.logStep log (.commit i) = log := by
  refine ⟨by simp only [Sys.step], fun log => ?_⟩
  rcases hth : sys.threads[i]? with _ | ⟨pc, buf⟩
  · simp [Sys.logStep, hth]
  · cases pc <;> simp [Sys.logStep, hth, Pc.isCommit]
    exact h buf hth

/-! ## The invariant -/

/-- The rows of `t` are what the logged calls wrote, in log order; a call in flight has buffered
part of its rows and has the rest still to insert; a logged call is done. -/
structure Written (t : Table) (calls : List Call) (sys : Sys) (log : List Nat) : Prop where
  length : sys.threads.length = calls.length
  rows : (sys.db.rows t).map Row.fields =
    log.flatMap fun i => (calls[i]?.map (Call.writes t)).getD []
  threads : ∀ (i : Nat) (th : Thread), sys.threads[i]? = some th → th.pc = .done ∨ ∃ c,
    calls[i]? = some c ∧
    (th.buffer.flatMap (Write.inserted t)).map Row.fields ++ th.pc.writes t = c.writes t
  logged : ∀ i ∈ log, sys.threads[i]? = some ⟨.done, []⟩
  nodup : log.Nodup

namespace Written

variable {t : Table} {calls : List Call} {sys : Sys} {log : List Nat}

theorem init (t : Table) : Written t [] Sys.init [] :=
  ⟨rfl, rfl, fun _ _ h => (nomatch h), fun _ h => (nomatch h), List.nodup_nil⟩

theorem not_mem_log (h : Written t calls sys log) {i : Nat} {th : Thread}
    (hth : sys.threads[i]? = some th) (hd : th.pc ≠ .done) : i ∉ log := fun hi => by
  rw [h.logged i hi] at hth
  cases hth
  exact hd rfl

/-- Marking a running thread done keeps the invariant on every thread. -/
theorem set_done (h : Written t calls sys log) {i : Nat} (hi : i < sys.threads.length) :
    (∀ j ∈ log, (sys.threads.set i ⟨.done, []⟩)[j]? = some ⟨.done, []⟩) ∧
      ∀ (j : Nat) (th : Thread), (sys.threads.set i ⟨.done, []⟩)[j]? = some th →
        th.pc = .done ∨ ∃ c, calls[j]? = some c ∧
          (th.buffer.flatMap (Write.inserted t)).map Row.fields ++ th.pc.writes t = c.writes t := by
  refine ⟨fun j hj => ?_, fun j th hth => ?_⟩ <;> by_cases hij : i = j
  · rw [← hij, List.getElem?_set_self hi]
  · rw [List.getElem?_set_ne hij]; exact h.logged j hj
  · rw [← hij, List.getElem?_set_self hi] at hth
    cases hth; exact .inl rfl
  · rw [List.getElem?_set_ne hij] at hth; exact h.threads j th hth

theorem exec (h : Written t calls sys log) {i : Nat} {th : Thread} {input : Input} {db' : Db}
    {buf' : List Write} {pc' : Pc} (hth : sys.threads[i]? = some th)
    (hx : Executes sys.db th.buffer th.pc input db' buf' pc') :
    Written t calls ⟨db', sys.threads.set i ⟨pc', buf'⟩⟩ log := by
  have hd : th.pc ≠ .done := fun hd => by rw [hd] at hx; cases hx
  have hi := (List.getElem?_eq_some_iff.mp hth).1
  refine ⟨by simpa using h.length, hx.frame.rows ▸ h.rows, fun j th' hth' => ?_, fun j hj => ?_,
    h.nodup⟩
  · by_cases hij : i = j
    · rw [← hij, List.getElem?_set_self hi] at hth'
      cases hth'
      obtain ⟨c, hc, hw⟩ := (h.threads i th hth).resolve_left hd
      exact .inr ⟨c, hij ▸ hc, (hx.writes t).trans hw⟩
    · rw [List.getElem?_set_ne hij] at hth'; exact h.threads j th' hth'
  · have hij : i ≠ j := fun hij => h.not_mem_log hth hd (hij ▸ hj)
    rw [List.getElem?_set_ne hij]
    exact h.logged j hj

theorem commit (h : Written t calls sys log) {i : Nat} {buf : List Write}
    (hth : sys.threads[i]? = some ⟨.commit, buf⟩) :
    Written t calls ⟨sys.db.applyAll buf, sys.threads.set i ⟨.done, []⟩⟩ (log ++ [i]) := by
  have hi := (List.getElem?_eq_some_iff.mp hth).1
  obtain ⟨c, hc, hw⟩ := (h.threads i _ hth).resolve_left (by simp)
  refine ⟨by simpa using h.length, ?_, (h.set_done hi).2, fun j hj => ?_, ?_⟩
  · rw [map_eq_of_erase (sys.db.applyAll_rows_erase buf t) Row.fields Row.fields_erase,
      List.map_append, h.rows, List.flatMap_append, List.flatMap_singleton, hc]
    simpa [Pc.writes] using hw
  · rcases List.mem_append.mp hj with hj | hj
    · exact (h.set_done hi).1 j hj
    · rw [List.mem_singleton.mp hj, List.getElem?_set_self hi]
  · exact List.nodup_append.mpr ⟨h.nodup, List.nodup_singleton i,
      List.disjoint_singleton.mpr (h.not_mem_log hth (by simp))⟩

theorem start (h : Written t calls sys log) (c : Call) :
    Written t (calls ++ [c]) ⟨sys.db, sys.threads ++ [⟨c.entry, []⟩]⟩ log := by
  have hlt : ∀ j ∈ log, j < calls.length := fun j hj =>
    h.length ▸ (List.getElem?_eq_some_iff.mp (h.logged j hj)).1
  refine ⟨by simp [h.length], ?_, fun j th hth => ?_, fun j hj => ?_, h.nodup⟩
  · rw [h.rows]
    exact congrArg List.flatten (List.map_congr_left fun j hj => by
      rw [List.getElem?_append_left (hlt j hj)])
  · rcases Nat.lt_or_ge j sys.threads.length with hj | hj
    · rw [List.getElem?_append_left hj] at hth
      rw [List.getElem?_append_left (h.length ▸ hj)]
      exact h.threads j th hth
    · have hj' : j = sys.threads.length := by
        have := (List.getElem?_eq_some_iff.mp hth).1
        simp at this; omega
      subst hj'
      rw [List.getElem?_append_right le_rfl, Nat.sub_self] at hth
      cases hth
      refine .inr ⟨c, ?_, by simp [Call.writes_entry]⟩
      rw [List.getElem?_append_right (h.length ▸ le_rfl), h.length, Nat.sub_self]; rfl
  · rw [List.getElem?_append_left (h.length ▸ hlt j hj)]
    exact h.logged j hj

theorem raise (h : Written t calls sys log) {i : Nat} (hi : i < sys.threads.length) :
    Written t calls ⟨sys.db, sys.threads.set i ⟨.done, []⟩⟩ log :=
  ⟨by simpa using h.length, h.rows, (h.set_done hi).2, (h.set_done hi).1, h.nodup⟩

theorem step (h : Written t calls sys log) (e : Event) :
    Written t (calls ++ startedCalls [e]) (sys.step e) (sys.logStep log e) := by
  cases e with
  | ensureSchema s => simpa [startedCalls] using (⟨h.length, h.rows, h.threads, h.logged,
      h.nodup⟩ : Written t calls { sys with db := sys.db.ensureSchema s } log)
  | start c => exact h.start c
  | exec i input =>
    simp only [startedCalls, List.filterMap_cons, List.filterMap_nil, List.append_nil,
      Sys.logStep, Sys.step]
    split
    · rename_i th hth
      split
      · rename_i db' buf' pc' hx
        exact h.exec hth (executes_of_exec hx)
      · exact h
    · exact h
  | commit i =>
    simp only [startedCalls, List.filterMap_cons, List.filterMap_nil, List.append_nil]
    by_cases hc : ∃ buf, sys.threads[i]? = some ⟨.commit, buf⟩
    · obtain ⟨buf, hb⟩ := hc
      rw [(Sys.step_commit hb).1, (Sys.step_commit hb).2]
      exact h.commit hb
    · have hn := Sys.step_commit_of_not fun buf hb => hc ⟨buf, hb⟩
      rw [hn.1, hn.2]
      exact h
  | raise i =>
    simp only [startedCalls, List.filterMap_cons, List.filterMap_nil, List.append_nil,
      Sys.logStep, Sys.step]
    split
    · exact h.raise (List.getElem?_eq_some_iff.mp ‹_›).1
    · exact h

theorem foldl (h : Written t calls sys log) (es : List Event) :
    Written t (calls ++ startedCalls es) (es.foldl Sys.stepLog (sys, log)).1
      (es.foldl Sys.stepLog (sys, log)).2 := by
  induction es generalizing calls sys log with
  | nil => simpa [startedCalls] using h
  | cons e es ih =>
    have he := ih (h.step e)
    rwa [List.append_assoc, ← startedCalls_append] at he

end Written

theorem written_run (es : List Event) (t : Table) :
    Written t (startedCalls es) (Sys.run es) (committedCalls es) := by
  have h := (Written.init t).foldl es
  rwa [List.nil_append, foldl_stepLog_fst] at h

/-- Along every run, however the calls interleave and wherever they raise: no call commits twice,
and the rows of every table, in commit order and up to the ids they drew, the versions they read
and the embeddings the worker set, are exactly the rows the committed calls wrote, call after call
in commit order. -/
theorem runs_write_committed_calls_once (es : List Event) (t : Table) :
    (committedCalls es).Nodup ∧ (∀ i ∈ committedCalls es, i < (startedCalls es).length) ∧
      ((Sys.run es).db.rows t).map Row.fields = (committedCalls es).flatMap fun i =>
        ((startedCalls es)[i]?.map (Call.writes t)).getD [] := by
  have h := written_run es t
  exact ⟨h.nodup, fun i hi => h.length ▸ (List.getElem?_eq_some_iff.mp (h.logged i hi)).1, h.rows⟩

/-- Two notes for the same day in flight at once: the first call raises after its `INSERT`, the
second commits, and only the second note is in the table. -/
example :
    let es : List Event := [.ensureSchema ⟨3⟩, .start (.appendToday ⟨3⟩ 0 "a"),
      .start (.appendToday ⟨3⟩ 0 "b"), .exec 0 .next, .exec 1 .next, .exec 1 .next, .raise 0,
      .commit 1]
    committedCalls es = [1] ∧
      ((Sys.run es).db.rows (Store.dailyTable ⟨3⟩)).map Row.fields = [("b", 0, "", "")] := by
  decide

/-! ## What the reads see -/

/-- The note call `c` adds to day `today` of store `s`'s daily table. -/
def Call.noteOn (s : Store) (today : Date) : Call → Option String
  | .appendToday s' day content => if s' = s ∧ day = today then some content else none
  | _ => none

/-- The text call `c` writes to store `s`'s long-term table. -/
def Call.longTermText (s : Store) : Call → Option String
  | .writeLongTerm s' content => if s' = s then some content else none
  | _ => none

theorem Call.noteOn_writes (s : Store) (today : Date) (c : Call) :
    ((c.writes s.dailyTable).filter (·.2.1 = today)).map Prod.fst = (c.noteOn s today).toList := by
  cases c <;> simp [Call.writes, Call.noteOn, turnWrites]
  split_ifs <;> simp_all

theorem Call.longTermText_writes (s : Store) (c : Call) :
    ((c.writes s.longTermTable).filter fun _ => true).map Prod.fst = (c.longTermText s).toList := by
  cases c <;> simp [Call.writes, Call.longTermText, turnWrites]
  split_ifs <;> simp_all

/-- The contents of the rows of `t` a reader selects by their fields are those the committed calls
wrote there, call after call in commit order. -/
theorem contents_run (es : List Event) (t : Table) (p : String × Date × String × String → Bool)
    (f : Call → Option String)
    (hf : ∀ c, ((c.writes t).filter p).map Prod.fst = (f c).toList) :
    (((Sys.run es).db.rows t).filter (p ∘ Row.fields)).map Row.content =
      (committedCalls es).filterMap fun i => ((startedCalls es)[i]?).bind f := by
  have h := congrArg (fun l => (l.filter p).map Prod.fst) (written_run es t).rows
  simp only [List.filter_flatMap, List.map_flatMap] at h
  rw [List.filterMap_eq_flatMap_toList]
  refine Eq.trans ?_ (h.trans (List.flatMap_congr fun i _ => ?_))
  · rw [List.filter_map, List.map_map]; rfl
  · cases (startedCalls es)[i]? with
    | none => rfl
    | some c => exact hf c

/-- Along every run, however the calls interleave and wherever they raise, `read_today()` returns
the note of each committed `append_today` of the day exactly once, and no other: its results are
a permutation of those notes. -/
theorem read_today_sees_committed_notes_once (es : List Event) (s : Store) (today : Date) :
    (todayNotes (Sys.run es).db s today).Perm
      ((committedCalls es).filterMap fun i =>
        ((startedCalls es)[i]?).bind (Call.noteOn s today)) := by
  rw [← contents_run es s.dailyTable _ _ (Call.noteOn_writes s today)]
  exact (List.mergeSort_perm _ _).map Row.content

/-- Along every run, however the calls interleave and wherever they raise, `read_long_term()`
returns the text of a committed `write_long_term`, or `""` when none has committed. -/
theorem read_long_term_returns_committed_text (es : List Event) (s : Store) :
    let texts := (committedCalls es).filterMap fun i =>
      ((startedCalls es)[i]?).bind (Call.longTermText s)
    ∀ x ∈ longTermCandidates (Sys.run es).db s, x ∈ texts ∨ (texts = [] ∧ x = "") := by
  intro texts x hx
  have hc := contents_run es s.longTermTable _ _ (Call.longTermText_writes s)
  simp only [Function.comp_def, List.filter_true] at hc
  change List.map _ _ = texts at hc
  simp only [longTermCandidates] at hx
  split_ifs at hx with he
  · exact .inr ⟨by rw [← hc, List.isEmpty_iff.mp he, List.map_nil], List.mem_singleton.mp hx⟩
  · obtain ⟨r, hr, rfl⟩ := List.mem_map.mp hx
    exact .inl (hc ▸ List.mem_map_of_mem _ (List.mem_filter.mp hr).1)

/-- A row of `t` after a run holds the fields of a row some committed call wrote there. -/
theorem mem_rows_run {es : List Event} {t : Table} {r : Row}
    (hr : r ∈ (Sys.run es).db.rows t) :
    ∃ i ∈ committedCalls es, ∃ c, (startedCalls es)[i]? = some c ∧ r.fields ∈ c.writes t := by
  have h := List.mem_map_of_mem Row.fields hr
  rw [(written_run es t).rows, List.mem_flatMap] at h
  obtain ⟨i, hi, hw⟩ := h
  cases hc : (startedCalls es)[i]? with
  | none => simp [hc] at hw
  | some c => exact ⟨i, hi, c, hc, by simpa [hc] using hw⟩

theorem Call.noteOn_of_mem_writes {s : Store} {c : Call} {w : String × Date × String × String}
    (hw : w ∈ c.writes s.dailyTable) : c.noteOn s w.2.1 = some w.1 := by
  cases c <;> simp [Call.writes, turnWrites] at hw
  obtain ⟨rfl, rfl⟩ := hw
  simp [Call.noteOn]

theorem exists_row_of_mem_scan {source : String} {content : Row → String}
    {entryDate : Row → Option Date} {distance : List Float4 → Float8} {rows : List Row} {h : Hit}
    (hh : h ∈ scan source content entryDate distance rows) :
    ∃ r ∈ rows, h.source = source ∧ h.content = content r ∧ h.entryDate = entryDate r := by
  obtain ⟨r, hr, he⟩ := List.mem_filterMap.mp hh
  obtain ⟨e, -, rfl⟩ := Option.map_eq_some'.mp he
  exact ⟨r, hr, rfl, rfl, rfl⟩

/-- Along every run, however the calls interleave and wherever they raise, every answer of
`memory_search_dim{N}` shows only what committed calls wrote: a daily hit is the note of a
committed `append_today` of its date, a conversation hit is `role: content` of a non-empty half
of a committed `ingest`, with its day. Nothing of a call that raised is ever found. -/
theorem search_hits_come_from_committed_calls (es : List Event) (s : Store)
    (distance : List Float4 → Float8) (k : Nat) (t : Float8) (result : List Hit)
    (h : MemorySearch (scanDaily distance ((Sys.run es).db.rows s.dailyTable))
      (scanLongTerm distance ((Sys.run es).db.rows s.longTermTable))
      (scanConversation distance ((Sys.run es).db.rows s.conversationTable)) k t result) :
    ∀ hit ∈ result, ∃ i ∈ committedCalls es, ∃ c, (startedCalls es)[i]? = some c ∧
      ((hit.source = "daily" ∧ ∃ day, hit.entryDate = some day ∧
          c.noteOn s day = some hit.content) ∨
        (hit.source = "conversation" ∧ ∃ content day key role,
          (content, day, key, role) ∈ c.writes s.conversationTable ∧
            hit.entryDate = some day ∧ hit.content = role ++ ": " ++ content)) := by
  intro hit hh
  rw [scanLongTerm, scan_eq_nil ((LongTermUnembedded.run es) _ rfl)] at h
  have hm := (h.sound.2.2 hit hh).1
  rw [List.append_nil] at hm
  rcases List.mem_append.mp hm with hd | hc
  · obtain ⟨r, hr, hs, hcont, hdate⟩ := exists_row_of_mem_scan hd
    obtain ⟨i, hi, c, hic, hw⟩ := mem_rows_run hr
    exact ⟨i, hi, c, hic, .inl ⟨hs, r.day, hdate, hcont ▸ Call.noteOn_of_mem_writes hw⟩⟩
  · obtain ⟨r, hr, hs, hcont, hdate⟩ := exists_row_of_mem_scan hc
    obtain ⟨i, hi, c, hic, hw⟩ := mem_rows_run hr
    exact ⟨i, hi, c, hic, .inr ⟨hs, r.content, r.day, r.sessionKey, r.role, hw, hdate, hcont⟩⟩

theorem search_hits_come_from_committed_calls_after_poll :
    let es : List Event := [.ensureSchema ⟨3⟩, .start (.appendToday ⟨3⟩ 0 "x"), .exec 0 .next,
      .exec 0 .next, .commit 0, .start .pollOnce, .exec 1 (.read (some 1)),
      .exec 1 (.embedding [0.1, 0.2, 0.3]), .exec 1 .next, .exec 1 .next, .commit 1]
    let daily := scanDaily (fun _ => .num 0) ((Sys.run es).db.rows (Store.dailyTable ⟨3⟩))
    let longTerm := scanLongTerm (fun _ => .num 0) ((Sys.run es).db.rows (Store.longTermTable ⟨3⟩))
    let conversation :=
      scanConversation (fun _ => .num 0) ((Sys.run es).db.rows (Store.conversationTable ⟨3⟩))
    let result := memorySearch daily longTerm conversation 5 (.num 0)
    MemorySearch daily longTerm conversation 5 (.num 0) result ∧
      ∀ hit ∈ result, ∃ i ∈ committedCalls es, ∃ c, (startedCalls es)[i]? = some c ∧
        ((hit.source = "daily" ∧ ∃ day, hit.entryDate = some day ∧
            c.noteOn ⟨3⟩ day = some hit.content) ∨
          (hit.source = "conversation" ∧ ∃ content day key role,
            (content, day, key, role) ∈ c.writes (Store.conversationTable ⟨3⟩) ∧
              hit.entryDate = some day ∧ hit.content = role ++ ": " ++ content)) := by
  intro es daily longTerm conversation result
  have h := (memorySearch_spec daily longTerm conversation 5 (.num 0)).memorySearch
  exact ⟨h, search_hits_come_from_committed_calls es ⟨3⟩ (fun _ => .num 0) 5 (.num 0) _ h⟩

end Clawbot.Memory.Postgres

import Clawbot.Memory.Postgres.Recent

/-!
# The memory tools, and what they answer over the PostgreSQL store

`save_memory`, `update_long_term_memory` and `read_memory` call the backend inside a `try`. A
write that returns gives its success text and one that raises `e` gives its error text followed
by `str(e)`; a read gives the content, a placeholder in its place when it is empty, or its error
text. `read_memory` takes `days=7` when the model leaves it out and answers an unknown scope
without calling the backend.

Over `PostgresMemoryStore` each write runs as one transaction, and the environment decides where
it raises; a read takes `CURRENT_DATE` from the database and `get_recent_memories` takes
`datetime.now().date()` from Python, and `ORDER BY version DESC LIMIT 1` may return any row of
greatest version. Whatever the environment does, a session of tool calls from a freshly
initialized store answers what it answers over the plain `Memory` in which exactly the writes
that went through took effect, as long as `str` tells the saved notes' dates apart.
-/

namespace Clawbot.Memory

open Clawbot.Python Postgres

/-! ## The tools -/

/-- The `try` of a write tool: its success text when the backend's call returned, its error
text followed by `str(e)` when the call raised `e`. -/
def writeReply (success errorPrefix : String) : Except String Unit → String
  | .ok () => success
  | .error e => errorPrefix ++ e

/-- `SaveMemoryTool.execute(content)`, given how `append_today(content)` ended. -/
def saveMemory : Except String Unit → String :=
  writeReply "Memory saved successfully." "Error saving memory: "

/-- `UpdateLongTermMemoryTool.execute(content)`, given how `write_long_term(content)` ended. -/
def updateLongTermMemory : Except String Unit → String :=
  writeReply "Long-term memory updated successfully." "Error updating long-term memory: "

/-- What a backend's reads return, or `str` of what they raise. -/
structure Reads where
  readToday : Except String String
  readLongTerm : Except String String
  getRecentMemories : Int → Except String String

def Reads.raising (e : String) : Reads := ⟨.error e, .error e, fun _ => .error e⟩

/-- The reads of `b`, unless the environment makes the read raise `e`. -/
def Reads.orRaise (b : Reads) : Option String → Reads
  | some e => .raising e
  | none => b

/-- `content or placeholder` in the `try` of `ReadMemoryTool.execute`. -/
def readReply (placeholder : String) : Except String String → String
  | .ok content => if content = "" then placeholder else content
  | .error e => "Error reading memory: " ++ e

/-- `ReadMemoryTool.execute(scope, days)`; `days` is `none` when the model leaves it out. -/
def readMemory (b : Reads) (scope : String) (days : Option Int) : String :=
  let days := days.getD 7
  if scope = "today" then readReply "(No notes for today)" b.readToday
  else if scope = "long_term" then readReply "(No long-term memory)" b.readLongTerm
  else if scope = "recent" then
    readReply ("(No memories in the last " ++ toString days ++ " days)")
      (b.getRecentMemories days)
  else "Error: unknown scope '" ++ scope ++ "', use 'today', 'long_term', or 'recent'"

end Clawbot.Memory

namespace Clawbot.Memory.Postgres

open Clawbot.Python

/-! ## Over the plain memory -/

/-- A tool call as the plain memory sees it: how each write ended, and whether a read raised. -/
inductive MemoryCall
  | saveMemory (day : Date) (content : String) (result : Except String Unit)
  | updateLongTermMemory (content : String) (result : Except String Unit)
  | readMemory (today now : Date) (scope : String) (days : Option Int) (raised : Option String)

/-- The reads of a plain memory: the notes of `today`, the last long-term text, and the days
from `now - days` on. -/
def Memory.reads (isoformat : Date → String) (mem : Memory) (today now : Date) : Reads :=
  ⟨.ok (mem.readToday today), .ok mem.readLongTerm, fun days => .ok (mem.recent isoformat now days)⟩

/-- One tool call on a plain memory: a write takes effect when it returned. -/
def Memory.toolCall (isoformat : Date → String) (mem : Memory) : MemoryCall → Memory × String
  | .saveMemory day content r =>
    (if r.toBool then { mem with notes := mem.notes ++ [(day, content)] } else mem, saveMemory r)
  | .updateLongTermMemory content r =>
    (if r.toBool then { mem with longTerm := mem.longTerm ++ [content] } else mem,
      updateLongTermMemory r)
  | .readMemory today now scope days raised =>
    (mem, readMemory ((mem.reads isoformat today now).orRaise raised) scope days)

/-- A session of tool calls on a plain memory: the memory after it, and the replies. -/
def memorySession (isoformat : Date → String) : Memory → List MemoryCall → Memory × List String
  | mem, [] => (mem, [])
  | mem, c :: cs =>
    let r := mem.toolCall isoformat c
    let rest := memorySession isoformat r.1 cs
    (rest.1, r.2 :: rest.2)

/-! ## Over the PostgreSQL store -/

/-- A tool call as it reaches the PostgreSQL store, with what the environment does to it: the
inputs the write runs on and `str` of its exception when it raises; for `read_memory`, the
database's `CURRENT_DATE` `today` and Python's date `now`, the exception the backend's read
raises, if any, and which of the rows of greatest version `LIMIT 1` returns. -/
inductive ToolCall
  | saveMemory (day : Date) (content : String) (ins : List Input) (err : String)
  | updateLongTermMemory (content : String) (ins : List Input) (err : String)
  | readMemory (today now : Date) (scope : String) (days : Option Int) (raised : Option String)
      (pick : Nat)

/-- The reads of `PostgresMemoryStore` on `db`. -/
def pgReads (isoformat : Date → String) (s : Store) (db : Db) (today now : Date) (pick : Nat) :
    Reads :=
  ⟨.ok (readToday db s today),
    .ok ((longTermCandidates db s).getD (pick % (longTermCandidates db s).length) ""),
    fun days => .ok (getRecentMemories isoformat db s now days)⟩

/-- One tool call on the PostgreSQL store `s`: the committed state after it, and the reply. A
write returns exactly when its transaction commits; a read writes nothing. -/
def pgToolCall (isoformat : Date → String) (s : Store) (db : Db) : ToolCall → Db × String
  | .saveMemory day content ins err =>
    let r := runAlone db (Call.appendToday s day content).entry [] ins
    (r.1, saveMemory (if r.2 then .ok () else .error err))
  | .updateLongTermMemory content ins err =>
    let r := runAlone db (Call.writeLongTerm s content).entry [] ins
    (r.1, updateLongTermMemory (if r.2 then .ok () else .error err))
  | .readMemory today now scope days raised pick =>
    (db, readMemory ((pgReads isoformat s db today now pick).orRaise raised) scope days)

def pgSession (isoformat : Date → String) (s : Store) : Db → List ToolCall → Db × List String
  | db, [] => (db, [])
  | db, c :: cs =>
    let r := pgToolCall isoformat s db c
    let rest := pgSession isoformat s r.1 cs
    (rest.1, r.2 :: rest.2)

def Input.isNext : Input → Bool
  | .next => true
  | _ => false

/-- The environment lets each of a call's `n` statements through, and nothing more. -/
def throughAll (n : Nat) (ins : List Input) : Bool :=
  ins.length == n && ins.all Input.isNext

/-- The call as the plain memory sees it: `append_today` returns when both of its statements
go through, `write_long_term` when its three do. -/
def ToolCall.abstract : ToolCall → MemoryCall
  | .saveMemory day content ins err =>
    .saveMemory day content (if throughAll 2 ins then .ok () else .error err)
  | .updateLongTermMemory content ins err =>
    .updateLongTermMemory content (if throughAll 3 ins then .ok () else .error err)
  | .readMemory today now scope days raised _ => .readMemory today now scope days raised

def ToolCall.noteDays : ToolCall → List Date
  | .saveMemory day .. => [day]
  | _ => []

section Refinement

variable {s : Store} {db : Db} {mem : Memory}

theorem runAlone_appendToday_iff (hs : s.dailyTable ∈ db.schema) (day : Date)
    (content : String) (ins : List Input) :
    (runAlone db (Call.appendToday s day content).entry [] ins).2 = throughAll 2 ins := by
  rcases ins with _ | ⟨_ | _ | _, _ | ⟨_ | _ | _, _ | ⟨_, _⟩⟩⟩ <;>
    simp [runAlone, exec, Call.entry, hs, throughAll, Input.isNext]

theorem runAlone_writeLongTerm_iff (hs : s.longTermTable ∈ db.schema) (content : String)
    (ins : List Input) :
    (runAlone db (Call.writeLongTerm s content).entry [] ins).2 = throughAll 3 ins := by
  rcases ins with _ | ⟨_ | _ | _, _ | ⟨_ | _ | _, _ | ⟨_ | _ | _, _ | ⟨_, _⟩⟩⟩⟩ <;>
    simp [runAlone, exec, Call.entry, hs, throughAll, Input.isNext]

/-- On a database holding `mem`, the store's reads are the plain memory's. -/
theorem Refines.pgReads_eq (h : Refines s db mem) (isoformat : Date → String)
    (hi : ∀ a ∈ mem.notes, ∀ b ∈ mem.notes, isoformat a.1 = isoformat b.1 → a.1 = b.1)
    (today now : Date) (pick : Nat) :
    pgReads isoformat s db today now pick = mem.reads isoformat today now := by
  simp only [pgReads, Memory.reads, h.readToday_eq, h.longTermCandidates_eq,
    h.getRecentMemories_eq _ _ isoformat hi]
  simp [Nat.mod_one]

/-- One tool call on a database holding `mem` answers what the plain memory answers, and
leaves the database holding what the plain memory becomes. -/
theorem Refines.toolCall (h : Refines s db mem) (isoformat : Date → String)
    (hi : ∀ a ∈ mem.notes, ∀ b ∈ mem.notes, isoformat a.1 = isoformat b.1 → a.1 = b.1)
    (c : ToolCall) :
    (pgToolCall isoformat s db c).2 = (mem.toolCall isoformat c.abstract).2 ∧
      Refines s (pgToolCall isoformat s db c).1 (mem.toolCall isoformat c.abstract).1 := by
  cases c with
  | saveMemory day content ins err =>
    have hr := h.runAlone (.appendToday s day content) ins
    rw [runAlone_appendToday_iff h.daily_mem] at hr
    simp only [pgToolCall, runAlone_appendToday_iff h.daily_mem, ToolCall.abstract]
    generalize throughAll 2 ins = b at hr ⊢
    cases b <;> exact ⟨rfl, by simpa [Memory.record] using hr⟩
  | updateLongTermMemory content ins err =>
    have hr := h.runAlone (.writeLongTerm s content) ins
    rw [runAlone_writeLongTerm_iff h.longTerm_mem] at hr
    simp only [pgToolCall, runAlone_writeLongTerm_iff h.longTerm_mem, ToolCall.abstract]
    generalize throughAll 3 ins = b at hr ⊢
    cases b <;> exact ⟨rfl, by simpa [Memory.record] using hr⟩
  | readMemory today now scope days raised pick =>
    exact ⟨by simp only [pgToolCall, ToolCall.abstract, Memory.toolCall,
      h.pgReads_eq isoformat hi], h⟩

/-- A call adds no note of a day other than the one it saves on. -/
theorem toolCall_notes_days (isoformat : Date → String) (mem : Memory) (c : ToolCall) :
    List.Sublist ((mem.toolCall isoformat c.abstract).1.notes.map Prod.fst)
      (mem.notes.map Prod.fst ++ c.noteDays) := by
  cases c <;> simp only [ToolCall.abstract] <;> (try split) <;>
    simp [Memory.toolCall, ToolCall.noteDays, Except.toBool]

/-- A session on a database holding `mem` answers what the plain memory answers, and leaves the
database holding what the plain memory becomes. -/
theorem Refines.session (h : Refines s db mem) (isoformat : Date → String)
    (calls : List ToolCall)
    (hi : ∀ a ∈ mem.notes.map Prod.fst ++ calls.flatMap ToolCall.noteDays,
      ∀ b ∈ mem.notes.map Prod.fst ++ calls.flatMap ToolCall.noteDays,
        isoformat a = isoformat b → a = b) :
    (pgSession isoformat s db calls).2 =
        (memorySession isoformat mem (calls.map ToolCall.abstract)).2 ∧
      Refines s (pgSession isoformat s db calls).1
        (memorySession isoformat mem (calls.map ToolCall.abstract)).1 := by
  induction calls generalizing db mem with
  | nil => exact ⟨rfl, h⟩
  | cons c cs ih =>
    have hnotes : ∀ a ∈ mem.notes, a.1 ∈ mem.notes.map Prod.fst ++ (c :: cs).flatMap
        ToolCall.noteDays := fun a ha => List.mem_append_left _ (List.mem_map_of_mem _ ha)
    obtain ⟨hr, hR⟩ := h.toolCall isoformat
      (fun a ha b hb => hi _ (hnotes a ha) _ (hnotes b hb)) c
    have hsub : List.Sublist ((mem.toolCall isoformat c.abstract).1.notes.map Prod.fst ++
        cs.flatMap ToolCall.noteDays) (mem.notes.map Prod.fst ++ (c :: cs).flatMap
          ToolCall.noteDays) := by
      rw [List.flatMap_cons, ← List.append_assoc]
      exact (toolCall_notes_days isoformat mem c).append_right _
    obtain ⟨ihr, ihR⟩ := ih hR fun a ha b hb => hi a (hsub.subset ha) b (hsub.subset hb)
    exact ⟨by simp only [pgSession, memorySession, List.map_cons, hr, ihr], ihR⟩

end Refinement

/-- Whatever the days, contents and scopes, wherever the environment makes a call raise and
whichever row of greatest version `LIMIT 1` returns, a session of memory tool calls from a
freshly initialized PostgreSQL store gives the replies the plain memory gives when exactly the
writes that went through take effect, and leaves the store holding that memory; provided `str`
tells apart the dates notes are saved on. -/
theorem tool_sessions_answer_as_plain_memory (isoformat : Date → String) (s : Store)
    (calls : List ToolCall)
    (hi : ∀ a ∈ calls.flatMap ToolCall.noteDays, ∀ b ∈ calls.flatMap ToolCall.noteDays,
      isoformat a = isoformat b → a = b) :
    (pgSession isoformat s (Db.empty.ensureSchema s) calls).2 =
        (memorySession isoformat Memory.empty (calls.map ToolCall.abstract)).2 ∧
      Refines s (pgSession isoformat s (Db.empty.ensureSchema s) calls).1
        (memorySession isoformat Memory.empty (calls.map ToolCall.abstract)).1 :=
  (refines_ensureSchema s).session isoformat calls hi

theorem tool_sessions_answer_as_plain_memory_two_days :
    (∀ a ∈ [ToolCall.saveMemory 0 "x" [.next, .next] "e", .saveMemory 1 "y" [.next] "e",
        .readMemory 1 1 "recent" none none 0].flatMap ToolCall.noteDays,
      ∀ b ∈ [ToolCall.saveMemory 0 "x" [.next, .next] "e", .saveMemory 1 "y" [.next] "e",
        .readMemory 1 1 "recent" none none 0].flatMap ToolCall.noteDays,
      toString a = toString b → a = b) ∧
    (pgSession (fun d => toString d) ⟨3⟩ (Db.empty.ensureSchema ⟨3⟩)
        [.saveMemory 0 "x" [.next, .next] "e", .saveMemory 1 "y" [.next] "e",
          .readMemory 1 1 "recent" none none 0]).2 =
      (memorySession (fun d => toString d) Memory.empty
        ([.saveMemory 0 "x" [.next, .next] "e", .saveMemory 1 "y" [.next] "e",
          .readMemory 1 1 "recent" none none 0].map ToolCall.abstract)).2 :=
  ⟨by decide, (tool_sessions_answer_as_plain_memory (fun d => toString d) ⟨3⟩ _ (by decide)).1⟩

end Clawbot.Memory.Postgres

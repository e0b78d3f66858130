import Clawbot.Python.Utf8
import Mathlib.Logic.Function.Basic

/-!
# The file memory backend (`MemoryStore`)

`memory/YYYY-MM-DD.md` holds one day's notes and `memory/MEMORY.md` the long-term memory. A
`MemoryDir` is what the directory holds on disk: the bytes of each day file, by the date text
of its name, and the bytes of `MEMORY.md` (never a day file: no date reads `MEMORY`). The date
text is `today_date()`, from `nanobot.utils.helpers` outside `src/`; `isoformat` stands for it
and for `date.strftime("%Y-%m-%d")`, which give the same text. Both `today_date()` calls of one
`append_today` are taken on the same day `now`.

Every write goes through `Path.write_text(text, encoding="utf-8")`, which opens the file for
writing, truncating it, and then writes the text's UTF-8 bytes. `WriteOutcome.failsAfter k` is
an I/O error once the first `k` bytes have reached the file; the call then raises with the file
left as it is. Every read goes through `Path.read_text(encoding="utf-8")`, which raises
`UnicodeDecodeError` on a file that is not UTF-8, such as one a failed write cut inside a
character: the reads return `Except`, with the exception's class as the error. An
`append_today` whose read of the day file raises writes nothing.
-/

namespace Clawbot.Memory.FileStore

open Clawbot.Python

/-- The memory directory: the bytes of the day files by date text, and of `MEMORY.md`; `none`
is a missing file. -/
structure MemoryDir where
  daily : String → Option (List UInt8)
  memoryFile : Option (List UInt8)

/-- A fresh workspace: `ensure_dir` makes the directory, with no file in it. -/
def MemoryDir.empty : MemoryDir := ⟨fun _ => none, none⟩

/-- How one `Path.write_text(data)` ends. -/
inductive WriteOutcome
  | complete
  | failsAfter (k : Nat)

/-- The bytes `Path.write_text(data, encoding="utf-8")` leaves in its file. -/
def writeText (data : String) : WriteOutcome → List UInt8
  | .complete => encode data.data
  | .failsAfter k => (encode data.data).take k

/-- `get_memory_context()`'s assembly from the long-term text and today's text; the
PostgreSQL store assembles its context with the same code. -/
def memoryContext (longTerm today : String) : String :=
  let parts := (if longTerm = "" then [] else ["## Long-term Memory\n" ++ longTerm]) ++
    (if today = "" then [] else ["## Today's Notes\n" ++ today])
  if parts = [] then "" else join "\n\n" parts

/-- One call of a run on one day, its write completing. -/
inductive Op
  | appendToday (x : String)
  | writeLongTerm (y : String)

section Store

variable (isoformat : Date → String) (now : Date)

/-- `read_today()` -/
def readToday (d : MemoryDir) : Except String String :=
  match d.daily (isoformat now) with
  | some bs => readBytes bs
  | none => .ok ""

/-- The text `append_today(content)` writes: the day's notes read back, a newline and the
content, or a `# YYYY-MM-DD` header and the content when the file is new; the error when
reading the notes raises. -/
def appendText (d : MemoryDir) (content : String) : Except String String :=
  match d.daily (isoformat now) with
  | some existing => (readBytes existing).map (· ++ "\n" ++ content)
  | none => .ok ("# " ++ isoformat now ++ "\n\n" ++ content)

/-- `append_today(content)` -/
def appendToday (content : String) (out : WriteOutcome) (d : MemoryDir) : MemoryDir :=
  match appendText isoformat now d content with
  | .ok text =>
    { d with daily := Function.update d.daily (isoformat now) (some (writeText text out)) }
  | .error _ => d

/-- `read_long_term()` -/
def readLongTerm (d : MemoryDir) : Except String String :=
  match d.memoryFile with
  | some bs => readBytes bs
  | none => .ok ""

/-- `write_long_term(content)` -/
def writeLongTerm (content : String) (out : WriteOutcome) (d : MemoryDir) : MemoryDir :=
  { d with memoryFile := some (writeText content out) }

/-- `get_recent_memories(days)`: the day files of `today, today - 1, ..., today - days + 1`
that exist, read back in that order, the first that does not decode raising, and joined by a
horizontal rule. -/
def getRecentMemories (days : Int) (d : MemoryDir) : Except String String :=
  (((List.range days.toNat).filterMap fun (i : Nat) => d.daily (isoformat (now - i))).mapM
    readBytes).map (join "\n\n---\n\n")

/-- `get_memory_context()` -/
def getMemoryContext (d : MemoryDir) : Except String String := do
  let longTerm ← readLongTerm d
  let today ← readToday isoformat now d
  pure (memoryContext longTerm today)

def Op.run : Op → MemoryDir → MemoryDir
  | .appendToday x => FileStore.appendToday isoformat now x .complete
  | .writeLongTerm y => FileStore.writeLongTerm y .complete

def runOps (ops : List Op) (d : MemoryDir) : MemoryDir :=
  ops.foldl (fun d op => op.run isoformat now d) d

end Store

/-- The strings a run appends, in call order. -/
def appended : List Op → List String
  | [] => []
  | .appendToday x :: ops => x :: appended ops
  | .writeLongTerm _ :: ops => appended ops

/-- The last string a run writes to long-term memory. -/
def lastWritten : List Op → Option String
  | [] => none
  | .appendToday _ :: ops => lastWritten ops
  | .writeLongTerm y :: ops => (lastWritten ops).or (some y)

theorem runOps_append_single (isoformat : Date → String) (now : Date) (ops : List Op) (op : Op)
    (d : MemoryDir) :
    runOps isoformat now (ops ++ [op]) d = op.run isoformat now (runOps isoformat now ops d) :=
  List.foldl_append _ _ _ _

@[simp] theorem appended_append (ops ops' : List Op) :
    appended (ops ++ ops') = appended ops ++ appended ops' := by
  induction ops with
  | nil => rfl
  | cons op ops ih => cases op <;> simp [appended, ih]

@[simp] theorem lastWritten_append (ops ops' : List Op) :
    lastWritten (ops ++ ops') = (lastWritten ops').or (lastWritten ops) := by
  induction ops with
  | nil => simp [lastWritten]
  | cons op ops ih => cases op <;> simp [lastWritten, ih, Option.or_assoc]

section Laws

variable {isoformat : Date → String} {now : Date}

theorem appendToday_memoryFile (x : String) (out : WriteOutcome) (d : MemoryDir) :
    (appendToday isoformat now x out d).memoryFile = d.memoryFile := by
  unfold appendToday; split <;> rfl

/-- `read_today()` after the strings `xs` were appended to a new day file. -/
def notesOf (isoformat : Date → String) (now : Date) (xs : List String) : String :=
  if xs = [] then "" else readText ("# " ++ isoformat now ++ "\n\n") ++ join "\n" (xs.map readText)

theorem header_getLast? (t : String) : ("# " ++ t ++ "\n\n").data.getLast? ≠ some '\r' := by
  rw [String.data_append, List.getLast?_append]; simp

theorem notesOf_single (x : String) :
    notesOf isoformat now [x] = readText ("# " ++ isoformat now ++ "\n\n" ++ x) := by
  rw [notesOf, if_neg (List.cons_ne_nil x []), readText_append _ _ (header_getLast? _)]; rfl

theorem notesOf_append_single {xs : List String} (x : String) (h : xs ≠ []) :
    notesOf isoformat now (xs ++ [x]) = notesOf isoformat now xs ++ "\n" ++ readText x := by
  have hm : xs.map readText ≠ [] := (List.map_eq_nil_iff).not.mpr h
  simp only [notesOf, if_neg h, if_neg (List.append_ne_nil_of_right_ne_nil xs
    (List.cons_ne_nil x [])), List.map_append, List.map_singleton,
    join_append_single _ _ _ hm, String.append_assoc]

/-- Today's file is missing exactly when nothing was appended, and otherwise reads back as
the header and the appended strings. -/
def HoldsNotes (isoformat : Date → String) (now : Date) (d : MemoryDir) (xs : List String) :
    Prop :=
  match d.daily (isoformat now) with
  | none => xs = []
  | some bs => xs ≠ [] ∧ readBytes bs = .ok (notesOf isoformat now xs)

theorem readToday_of_holdsNotes {d : MemoryDir} {xs : List String}
    (h : HoldsNotes isoformat now d xs) :
    readToday isoformat now d = .ok (notesOf isoformat now xs) := by
  unfold HoldsNotes at h
  unfold readToday
  split at h
  · rename_i hd; simp [hd, h, notesOf]
  · rename_i bs hd; simp [hd, h.2]

theorem holdsNotes_appendToday {d : MemoryDir} {xs : List String} (x : String)
    (h : HoldsNotes isoformat now d xs) :
    HoldsNotes isoformat now (appendToday isoformat now x .complete d) (xs ++ [x]) := by
  unfold HoldsNotes at h
  split at h
  · rename_i hd
    subst h
    simp only [HoldsNotes, appendToday, appendText, hd, writeText, Function.update_same,
      List.nil_append]
    exact ⟨List.cons_ne_nil _ _, by rw [readBytes_encode, notesOf_single]⟩
  · rename_i bs hd
    have hn := readText_of_readBytes h.2
    simp only [HoldsNotes, appendToday, appendText, hd, h.2, Except.map, writeText,
      Function.update_same, readBytes_encode]
    refine ⟨by simp, ?_⟩
    rw [notesOf_append_single x h.1]
    calc Except.ok (readText (notesOf isoformat now xs ++ "\n" ++ x))
        = .ok (readText (readText (notesOf isoformat now xs) ++ "\n" ++ x)) := by rw [hn]
      _ = .ok (notesOf isoformat now xs ++ "\n" ++ readText x) := by
        rw [readText_read_newline, hn]

theorem holdsNotes_runOps {d : MemoryDir} {xs : List String} (ops : List Op)
    (h : HoldsNotes isoformat now d xs) :
    HoldsNotes isoformat now (runOps isoformat now ops d) (xs ++ appended ops) := by
  induction ops using List.reverseRecOn with
  | nil => simpa [runOps, appended] using h
  | append_singleton ops op ih =>
    rw [runOps_append_single, appended_append]
    cases op with
    | appendToday x =>
      simpa [appended, List.append_assoc] using holdsNotes_appendToday x ih
    | writeLongTerm y => simpa [appended, Op.run, HoldsNotes, writeLongTerm] using ih

theorem readLongTerm_runOps (ops : List Op) (d : MemoryDir) :
    readLongTerm (runOps isoformat now ops d) =
      ((lastWritten ops).map fun y => .ok (readText y)).getD (readLongTerm d) := by
  induction ops using List.reverseRecOn with
  | nil => rfl
  | append_singleton ops op ih =>
    rw [runOps_append_single, lastWritten_append]
    cases op with
    | appendToday x =>
      simpa [lastWritten, Op.run, readLongTerm, appendToday_memoryFile] using ih
    | writeLongTerm y =>
      simp [lastWritten, Op.run, readLongTerm, writeLongTerm, writeText, readBytes_encode]

/-- A run of completed `append_today` / `write_long_term` calls on one day, from a directory
without that day's file: today's notes read back as the header and every appended string
after universal-newline translation, joined by `"\n"` in call order; long-term memory reads
back as the translation of the last string written, or as before when none was. -/
theorem runOps_read_back (ops : List Op) (d : MemoryDir) (h : d.daily (isoformat now) = none) :
    readToday isoformat now (runOps isoformat now ops d) =
        .ok (notesOf isoformat now (appended ops)) ∧
    readLongTerm (runOps isoformat now ops d) =
      ((lastWritten ops).map fun y => .ok (readText y)).getD (readLongTerm d) := by
  have h0 : HoldsNotes isoformat now d [] := by simp [HoldsNotes, h]
  exact ⟨readToday_of_holdsNotes (by simpa using holdsNotes_runOps ops h0),
    readLongTerm_runOps ops d⟩

theorem runOps_read_back_witness :
    MemoryDir.empty.daily ((fun _ => "2026-11-09") 0) = none ∧
      readToday (fun _ => "2026-11-09") 0 (runOps (fun _ => "2026-11-09") 0
        [.appendToday "a\rb", .writeLongTerm "c"] .empty) =
        .ok (notesOf (fun _ => "2026-11-09") 0 ["a\rb"]) :=
  ⟨rfl, (@runOps_read_back (fun _ => "2026-11-09") 0
    [.appendToday "a\rb", .writeLongTerm "c"] .empty rfl).1⟩

/-- An appended `"a\rb"` reads back as `"a\nb"`. -/
theorem append_cr_reads_back_translated :
    readToday (fun _ => "2026-11-09") 0
        (runOps (fun _ => "2026-11-09") 0 [.appendToday "a\rb"] .empty) ≠
      .ok ("# 2026-11-09\n\n" ++ "a\rb") := by
  decide

/-- What a file holding the first `k` bytes of `text`'s encoding reads back as. -/
def readCut (text : String) (k : Nat) : Except String String := readChars (utf8Cut text.data k)

theorem readBytes_writeText_failsAfter (text : String) (k : Nat) :
    readBytes (writeText text (.failsAfter k)) = readCut text k := by
  rw [writeText, readBytes, decode_take_encode, readCut]

/-- A write that raises after `k` bytes leaves the other file alone, and leaves its own file
holding the first `k` bytes of the text it was writing: the characters that fit whole read
back, and a cut inside a character makes the read raise. An `append_today` whose read of the
day file raises writes nothing. -/
theorem failed_write_leaves_prefix (d : MemoryDir) (x y : String) (k : Nat) :
    (readLongTerm (appendToday isoformat now x (.failsAfter k) d) = readLongTerm d ∧
      readToday isoformat now (appendToday isoformat now x (.failsAfter k) d) =
        match appendText isoformat now d x with
        | .ok text => readCut text k
        | .error _ => readToday isoformat now d) ∧
    (readToday isoformat now (writeLongTerm y (.failsAfter k) d) = readToday isoformat now d ∧
      readLongTerm (writeLongTerm y (.failsAfter k) d) = readCut y k) := by
  refine ⟨⟨by rw [readLongTerm, appendToday_memoryFile]; rfl, ?_⟩,
    ⟨rfl, readBytes_writeText_failsAfter y k⟩⟩
  unfold appendToday
  split <;> simp [readToday, readBytes_writeText_failsAfter, *]

/-- An `append_today` whose write raises right after opening the file erases the day's notes,
and a `write_long_term` whose write raises inside a character leaves `MEMORY.md` unreadable. -/
theorem failed_append_truncates_notes :
    readToday (fun _ => "2026-11-09") 0 (appendToday (fun _ => "2026-11-09") 0 "new"
        (.failsAfter 0) (appendToday (fun _ => "2026-11-09") 0 "old" .complete .empty)) ≠
      readToday (fun _ => "2026-11-09") 0
        (appendToday (fun _ => "2026-11-09") 0 "old" .complete .empty) ∧
    readLongTerm (writeLongTerm "é" (.failsAfter 1) (writeLongTerm "old" .complete .empty)) =
      .error "UnicodeDecodeError" := by
  decide

end Laws

end Clawbot.Memory.FileStore

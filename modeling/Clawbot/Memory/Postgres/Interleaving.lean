import Clawbot.Memory.Postgres.Run

/-!
# Interleaved calls

Each call holds its own pool connection, so calls interleave statement by statement: a `Sys`
is the committed database and the calls in flight, each with its position and its uncommitted
writes. An `Event` lets one call run its next statement, commit at the end of its block, or
raise (its writes are dropped: the block rolls back); `_ensure_schema` and new calls may come
at any point. Events that do not apply leave the system as it is.
-/

namespace Clawbot.Memory.Postgres

open Clawbot.Python

/-- A call in flight: where it stands and what it has written but not committed. -/
structure Thread where
  pc : Pc
  buffer : List Write

/-- The committed database and the calls in flight. -/
structure Sys where
  db : Db
  threads : List Thread

/-- What happens next: a store's `initialize()` runs `_ensure_schema()`; a call begins on a
connection of its own; call `i` runs its next statement, leaves its block normally (the
transaction commits) or raises (it rolls back). -/
inductive Event
  | ensureSchema (s : Store)
  | start (c : Call)
  | exec (i : Nat) (input : Input)
  | commit (i : Nat)
  | raise (i : Nat)

def Sys.step (sys : Sys) : Event → Sys
  | .ensureSchema s => { sys with db := sys.db.ensureSchema s }
  | .start c => { sys with threads := sys.threads ++ [⟨c.entry, []⟩] }
  | .exec i input =>
    match sys.threads[i]? with
    | some th =>
      match exec sys.db th.buffer th.pc input with
      | some (db', buf', pc') => ⟨db', sys.threads.set i ⟨pc', buf'⟩⟩
      | none => sys
    | none => sys
  | .commit i =>
    match sys.threads[i]? with
    | some ⟨.commit, buf⟩ => ⟨sys.db.applyAll buf, sys.threads.set i ⟨.done, []⟩⟩
    | _ => sys
  | .raise i =>
    match sys.threads[i]? with
    | some _ => { sys with threads := sys.threads.set i ⟨.done, []⟩ }
    | none => sys

def Sys.init : Sys := ⟨Db.empty, []⟩

def Sys.run (es : List Event) : Sys := es.foldl Sys.step Sys.init

theorem Sys.run_append_single (es : List Event) (e : Event) :
    Sys.run (es ++ [e]) = (Sys.run es).step e :=
  List.foldl_append _ _ _ _

/-! ## What an event does -/

/-- The events of `Sys.step`, one constructor each, with the guard under which it applies. -/
inductive Transition : Sys → Event → Sys → Prop
  | stay (sys : Sys) (e : Event) : Transition sys e sys
  | ensureSchema (sys : Sys) (s : Store) :
    Transition sys (.ensureSchema s) { sys with db := sys.db.ensureSchema s }
  | start (sys : Sys) (c : Call) :
    Transition sys (.start c) { sys with threads := sys.threads ++ [⟨c.entry, []⟩] }
  | exec {sys : Sys} {i : Nat} {th : Thread} {input : Input} {db' : Db} {buf' : List Write}
      {pc' : Pc} (h : sys.threads[i]? = some th)
      (hx : Executes sys.db th.buffer th.pc input db' buf' pc') :
    Transition sys (.exec i input) ⟨db', sys.threads.set i ⟨pc', buf'⟩⟩
  | commit {sys : Sys} {i : Nat} {buf : List Write} (h : sys.threads[i]? = some ⟨.commit, buf⟩) :
    Transition sys (.commit i) ⟨sys.db.applyAll buf, sys.threads.set i ⟨.done, []⟩⟩
  | raise {sys : Sys} {i : Nat} {th : Thread} (h : sys.threads[i]? = some th) :
    Transition sys (.raise i) { sys with threads := sys.threads.set i ⟨.done, []⟩ }

theorem Sys.transition_step (sys : Sys) : ∀ e, Transition sys e (sys.step e)
  | .ensureSchema s => .ensureSchema sys s
  | .start c => .start sys c
  | .exec i input => by
    simp only [Sys.step]
    split
    · rename_i th h
      split
      · exact .exec h (executes_of_exec ‹_›)
      · exact .stay _ _
    · exact .stay _ _
  | .commit i => by
    simp only [Sys.step]
    split
    · exact .commit ‹_›
    · exact .stay _ _
  | .raise i => by
    simp only [Sys.step]
    split
    · exact .raise ‹_›
    · exact .stay _ _

/-! ## Two long-term writes -/

/-- Two `write_long_term` calls on separate connections whose `SELECT COALESCE(MAX(version), 0)
+ 1` both run before either inserts; then each inserts, sends and commits in turn. -/
def versionRace (s : Store) (a b : String) : List Event :=
  [.ensureSchema s, .start (.writeLongTerm s a), .start (.writeLongTerm s b),
    .exec 0 .next, .exec 1 .next,
    .exec 0 .next, .exec 0 .next, .commit 0,
    .exec 1 .next, .exec 1 .next, .commit 1]

/-- Both writes commit rows of version 1, so `ORDER BY version DESC LIMIT 1` may return the
first write's content although the second committed later. -/
theorem concurrent_writes_share_version :
    ((Sys.run (versionRace ⟨3⟩ "a" "b")).db.rows (Store.longTermTable ⟨3⟩)).map Row.version =
        [1, 1] ∧
      longTermCandidates (Sys.run (versionRace ⟨3⟩ "a" "b")).db ⟨3⟩ = ["a", "b"] := by
  decide

end Clawbot.Memory.Postgres

import Clawbot.Memory.Postgres.Sequential
import Clawbot.Memory.Postgres.Grouping
import Mathlib.Data.List.Dedup
import Mathlib.Data.List.Sort

/-!
# Recent memories of a plain memory

For a plain `Memory`, `get_recent_memories(days)` on day `today` reads: each day of the notes
from `today - days` on, newest first, under its `# date` heading, with that day's notes in
append order, the days joined by horizontal rules. On a database that holds the memory the
query answers exactly that, as long as `str` tells the notes' dates apart: the rows of one date
come out in id order, and ids grow in append order.
-/

namespace Clawbot.Memory.Postgres

open Clawbot.Python

/-- The days of the notes from `today - days` on, newest first, each once. -/
def Memory.recentDays (mem : Memory) (today : Date) (days : Int) : List Date :=
  ((mem.notes.filter (today - days ≤ ·.1)).map Prod.fst).dedup.mergeSort fun a b => b ≤ a

/-- `get_recent_memories(days)` of a plain memory on day `today`. -/
def Memory.recent (isoformat : Date → String) (mem : Memory) (today : Date) (days : Int) :
    String :=
  join "\n\n---\n\n" ((mem.recentDays today days).map fun d =>
    "# " ++ isoformat d ++ "\n\n" ++ join "\n" ((mem.notes.filter (·.1 = d)).map Prod.snd))

section Recent

variable {s : Store} {db : Db} {mem : Memory} (today : Date) (days : Int)

theorem Memory.recentDays_sorted (mem : Memory) :
    (mem.recentDays today days).Pairwise (· ≥ ·) :=
  (List.sorted_mergeSort (fun a b c hab hbc => by
      simp only [decide_eq_true_eq] at *; exact le_trans hbc hab)
    (fun a b => by simpa using le_total b a) _).imp fun h => by simpa using h

theorem Memory.mem_recentDays (mem : Memory) (d : Date) :
    d ∈ mem.recentDays today days ↔ d ∈ (mem.notes.filter (today - days ≤ ·.1)).map Prod.fst := by
  simp only [Memory.recentDays, List.mem_mergeSort, List.mem_dedup]

/-- Ids grow along the daily rows, so the rows of one day in the window come out of the query in
the order they were appended. -/
theorem Refines.recentRows_filter_day (h : Refines s db mem) {d : Date} (hd : today - days ≤ d) :
    (recentRows db s today days).filter (·.day = d) =
      (db.rows s.dailyTable).filter (·.day = d) := by
  haveI : IsAntisymm Row (fun a b => a.id < b.id) :=
    ⟨fun _ _ h₁ h₂ => absurd (h₁.trans h₂) (Nat.lt_irrefl _)⟩
  have heq : ((db.rows s.dailyTable).filter (today - days ≤ ·.day)).filter (·.day = d) =
      (db.rows s.dailyTable).filter (·.day = d) := by
    rw [List.filter_filter]
    exact List.filter_congr fun r _ => by by_cases hr : r.day = d <;> simp [hr, hd]
  have hp : ((recentRows db s today days).filter (·.day = d)).Perm
      ((db.rows s.dailyTable).filter (·.day = d)) :=
    heq ▸ (List.mergeSort_perm _ _).filter _
  have hids : (db.rows s.dailyTable).Pairwise (fun a b => a.id < b.id) :=
    List.pairwise_map.mp h.ids
  have hne : (recentRows db s today days).Pairwise (fun a b => a.id ≠ b.id) :=
    ((List.mergeSort_perm _ _).pairwise_iff fun h => Ne.symm h).mpr
      ((hids.imp Nat.ne_of_lt).filter _)
  refine List.eq_of_perm_of_sorted hp ?_ (hids.filter _)
  refine (((recentRows_pairwise db s today days).and hne).filter _).imp_of_mem ?_
  intro a b ha hb ⟨hab, hn⟩
  have ha' := (of_decide_eq_true (List.mem_filter.mp ha).2 : a.day = d)
  have hb' := (of_decide_eq_true (List.mem_filter.mp hb).2 : b.day = d)
  rcases hab with hlt | ⟨-, hle⟩
  · exact absurd hlt (by rw [ha', hb']; exact Int.lt_irrefl d)
  · exact Nat.lt_of_le_of_ne hle hn

/-- On a database holding `mem`, `get_recent_memories(days)` answers what the plain memory
does, when `str` tells the notes' dates apart. -/
theorem Refines.getRecentMemories_eq (h : Refines s db mem) (isoformat : Date → String)
    (hi : ∀ a ∈ mem.notes, ∀ b ∈ mem.notes, isoformat a.1 = isoformat b.1 → a.1 = b.1) :
    getRecentMemories isoformat db s today days = mem.recent isoformat today days := by
  set rows := (recentRows db s today days).map fun r => (r.day, r.content) with hrows
  have hnote : ∀ x ∈ rows, x ∈ mem.notes := fun x hx => by
    obtain ⟨r, hr, rfl⟩ := List.mem_map.mp hx
    rw [← h.notes]
    exact List.mem_map_of_mem _ (mem_recentRows.mp hr).1
  have hs : rows.Pairwise (fun a b => b.1 ≤ a.1) :=
    List.pairwise_map.mpr (recentRows_sorted db s today days)
  have hg : groupByDate ((recentRows db s today days).map fun r => (isoformat r.day, r.content)) =
      (dateRuns rows).map fun g => (isoformat g.1, g.2) := by
    rw [← groupByDate_eq_dateRuns isoformat hs fun a ha b hb => hi a (hnote a ha) b (hnote b hb),
      hrows, List.map_map]
    rfl
  -- the runs' dates are the window's days, newest first
  have hmem : ∀ d, d ∈ (dateRuns rows).map Prod.fst ↔ d ∈ mem.recentDays today days := by
    intro d
    rw [mem_dates_dateRuns, Memory.mem_recentDays, ← h.notes, hrows, List.map_map,
      List.filter_map, List.map_map]
    simp only [List.mem_map, List.mem_filter, Function.comp_apply, mem_recentRows,
      decide_eq_true_eq]
  have hdates : (dateRuns rows).map Prod.fst = mem.recentDays today days := by
    have hdesc := dateRuns_dates_desc hs
    exact List.eq_of_perm_of_sorted ((List.perm_ext_iff_of_nodup
      (hdesc.imp fun h => Int.ne_of_gt h) ((List.nodup_dedup _).perm
        (List.mergeSort_perm _ _).symm)).mpr hmem) (hdesc.imp le_of_lt)
      (Memory.recentDays_sorted today days mem)
  -- each run holds its day's notes in append order
  have hruns : ∀ g ∈ dateRuns rows, g.2 = (mem.notes.filter (·.1 = g.1)).map Prod.snd := by
    intro g hg
    have hw : today - days ≤ g.1 := by
      obtain ⟨x, hx, hxg⟩ :=
        List.mem_map.mp ((mem_dates_dateRuns g.1).mp (List.mem_map_of_mem _ hg))
      obtain ⟨r, hr, rfl⟩ := List.mem_map.mp hx
      exact hxg ▸ (mem_recentRows.mp hr).2
    have hrd : rows.filter (·.1 = g.1) =
        ((recentRows db s today days).filter (·.day = g.1)).map fun r => (r.day, r.content) := by
      rw [hrows, List.filter_map]; rfl
    have hnd : mem.notes.filter (·.1 = g.1) =
        ((db.rows s.dailyTable).filter (·.day = g.1)).map fun r => (r.day, r.content) := by
      rw [← h.notes, List.filter_map]; rfl
    rw [dateRuns_contents hs g hg, hrd, hnd, h.recentRows_filter_day today days hw]
  show (if (recentRows db s today days).isEmpty then "" else
    join _ ((groupByDate ((recentRows db s today days).map _)).map _)) = _
  have hbody : join "\n\n---\n\n" ((groupByDate ((recentRows db s today days).map
      fun r => (isoformat r.day, r.content))).map fun e => "# " ++ e.1 ++ "\n\n" ++ join "\n" e.2) =
      mem.recent isoformat today days := by
    rw [hg, List.map_map, Memory.recent, ← hdates, List.map_map]
    exact congrArg _ (List.map_congr_left fun g hm => by
      simp only [Function.comp_apply, hruns g hm])
  split
  · next he =>
    rw [← hbody, List.isEmpty_iff.mp he]; rfl
  · exact hbody

end Recent

end Clawbot.Memory.Postgres

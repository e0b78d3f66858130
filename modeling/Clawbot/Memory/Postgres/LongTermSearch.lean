import Clawbot.Memory.Postgres.Invariant
import Clawbot.Memory.Postgres.Search

/-!
# Long-term memory is never searched

A row gets its embedding only through the worker's `UPDATE`, which PostgreSQL rejects on a
long-term table: `memory_long_term_dim{N}` has no `updated_at` column. Write paths insert rows
without embeddings. So however calls interleave and wherever they raise, no long-term row is
ever embedded, no long-term job is ever archived, and the long-term arm of
`memory_search_dim{N}`, which reads only rows with an embedding, is always empty: every answer of
the search holds daily and conversation rows only.
-/

namespace Clawbot.Memory.Postgres

open Clawbot.Python

def LongTermUnembedded (db : Db) : Prop :=
  ∀ t, t.family = .longTerm → ∀ r ∈ db.rows t, r.embedding = none

namespace LongTermUnembedded

variable {sys sys' : Sys} {e : Event}

theorem of_rows {db db' : Db} (h : LongTermUnembedded db) (hr : db'.rows = db.rows) :
    LongTermUnembedded db' :=
  fun t ht r hr' => h t ht r (hr ▸ hr')

/-- A write path's commit inserts rows without embeddings; the worker's commit embeds a row of a
table that accepted its `UPDATE`, which no long-term table does. -/
theorem transition (hi : Inv sys) (h : LongTermUnembedded sys.db) (ht : Transition sys e sys') :
    LongTermUnembedded sys'.db := by
  cases ht with
  | stay | start | raise => exact h
  | ensureSchema s => exact h.of_rows rfl
  | exec _ hx => exact h.of_rows hx.frame.rows
  | commit hc =>
    intro t hlt r hr
    rcases hi.threads _ (List.getElem?_mem hc) with hp | ⟨m, v, rfl, hu, -⟩
    · rw [hp.applyAll_rows] at hr
      rcases List.mem_append.mp hr with hr | hr
      · exact h t hlt r hr
      · exact hp.unembedded t r hr
    · have hne : t ≠ m.job.table := fun he =>
        not_updateOk_longTerm _ _ v (he ▸ hlt) hu
      rw [Db.applyAll_worker] at hr
      exact h t hlt r (by simpa [Function.update_noteq hne] using hr)

theorem init : LongTermUnembedded Sys.init.db := fun _ _ _ h => nomatch h

theorem run (es : List Event) : LongTermUnembedded (Sys.run es).db := by
  induction es using List.reverseRecOn with
  | nil => exact init
  | append_singleton es e ih =>
    rw [Sys.run_append_single]
    exact transition (inv_run es) ih (Sys.transition_step _ e)

end LongTermUnembedded

/-- An arm's scan reads only rows with an embedding. -/
theorem scan_eq_nil {source : String} {content : Row → String} {entryDate : Row → Option Date}
    {distance : List Float4 → Float8} {rows : List Row} (h : ∀ r ∈ rows, r.embedding = none) :
    scan source content entryDate distance rows = [] :=
  List.filterMap_eq_nil_iff.mpr fun r hr => by simp [h r hr]

theorem source_of_mem_scan {source : String} {content : Row → String}
    {entryDate : Row → Option Date} {distance : List Float4 → Float8} {rows : List Row} {h : Hit}
    (hh : h ∈ scan source content entryDate distance rows) : h.source = source := by
  obtain ⟨r, -, hr⟩ := List.mem_filterMap.mp hh
  obtain ⟨e, -, rfl⟩ := Option.map_eq_some'.mp hr
  rfl

/-- However calls interleave and wherever they raise, no long-term row is ever embedded and no
long-term job ever archived, and every answer of `memory_search_dim{N}` on a store, whatever the
query, `match_limit` and threshold, holds daily and conversation rows only. -/
theorem long_term_memory_never_searched (es : List Event) (s : Store)
    (distance : List Float4 → Float8) (k : Nat) (t : Float8) (result : List Hit)
    (h : MemorySearch (scanDaily distance ((Sys.run es).db.rows s.dailyTable))
      (scanLongTerm distance ((Sys.run es).db.rows s.longTermTable))
      (scanConversation distance ((Sys.run es).db.rows s.conversationTable)) k t result) :
    (∀ t, t.family = .longTerm → ∀ r ∈ (Sys.run es).db.rows t, r.embedding = none) ∧
      (∀ m ∈ (Sys.run es).db.queue, m.job.table.family = .longTerm → m.archived = false) ∧
      ∀ hit ∈ result, hit.source = "daily" ∨ hit.source = "conversation" := by
  have hu := LongTermUnembedded.run es
  refine ⟨hu, fun m hm hlt => ?_, fun hit hh => ?_⟩
  · -- an archived job's row is embedded
    cases ha : m.archived
    · rfl
    · obtain ⟨r, hr, -, he⟩ := (inv_run es).committed.archived m hm ha
      simp [hu _ hlt r hr] at he
  · rw [scanLongTerm, scan_eq_nil (hu _ rfl)] at h
    have hm := (h.sound.2.2 hit hh).1
    rw [List.append_nil] at hm
    rcases List.mem_append.mp hm with hd | hc
    · exact .inl (source_of_mem_scan hd)
    · exact .inr (source_of_mem_scan hc)

theorem long_term_memory_never_searched_after_write :
    let es : List Event := [.ensureSchema ⟨3⟩, .start (.writeLongTerm ⟨3⟩ "x"), .exec 0 .next,
      .exec 0 .next, .exec 0 .next, .commit 0]
    let daily := scanDaily (fun _ => .num 0) ((Sys.run es).db.rows (Store.dailyTable ⟨3⟩))
    let longTerm := scanLongTerm (fun _ => .num 0) ((Sys.run es).db.rows (Store.longTermTable ⟨3⟩))
    let conversation :=
      scanConversation (fun _ => .num 0) ((Sys.run es).db.rows (Store.conversationTable ⟨3⟩))
    MemorySearch daily longTerm conversation 5 (.num 0)
        (memorySearch daily longTerm conversation 5 (.num 0)) ∧
      ∀ hit ∈ memorySearch daily longTerm conversation 5 (.num 0),
        hit.source = "daily" ∨ hit.source = "conversation" := by
  intro es daily longTerm conversation
  have h := (memorySearch_spec daily longTerm conversation 5 (.num 0)).memorySearch
  exact ⟨h, (long_term_memory_never_searched es ⟨3⟩ (fun _ => .num 0) 5 (.num 0) _ h).2.2⟩

end Clawbot.Memory.Postgres

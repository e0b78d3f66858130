import Clawbot.Memory.Postgres.Invariant
import Mathlib.Data.List.Sort

/-!
# Today's notes keep their order from a quiet point on

`read_today()` orders the day's rows by `id`, and an `INSERT` draws its `id` when it runs, not
when its transaction commits. Two `append_today` calls that overlap can therefore commit in one
order and be read in the other: a note can appear in front of notes that an earlier
`read_today()` returned. At a point where no call holds a daily row it inserted and has not
committed, every row committed later has an `id` above all committed ones; so from that point on,
whatever the calls do and wherever they raise, `read_today()` only extends what it returned.
-/

namespace Clawbot.Memory.Postgres

open Clawbot.Python

/-- The contents `read_today()` joins: the rows of `today` in store `s`'s daily table, by `id`. -/
def todayNotes (db : Db) (s : Store) (today : Date) : List String :=
  (((db.rows s.dailyTable).filter (·.day = today)).mergeSort fun a b => a.id ≤ b.id).map
    Row.content

/-! ## Sorting rows by `id` -/

section Sorting

variable (today : Date)

/-- The day's contents by `id` do not look at embeddings. -/
theorem notes_erase (l : List Row) :
    (((l.map Row.erase).filter (·.day = today)).mergeSort fun a b => a.id ≤ b.id).map
        Row.content =
      ((l.filter (·.day = today)).mergeSort fun a b => a.id ≤ b.id).map Row.content := by
  have h : ((l.filter (·.day = today)).mergeSort fun a b => a.id ≤ b.id).map Row.erase =
      ((l.filter (·.day = today)).map Row.erase).mergeSort fun a b => a.id ≤ b.id :=
    List.map_mergeSort fun _ _ _ _ => rfl
  rw [List.filter_map, show (fun r : Row => decide (r.day = today)) ∘ Row.erase =
    fun r => decide (r.day = today) from rfl, ← h, List.map_map]
  rfl

/-- Sorted by `id`, rows of distinct ids come in strictly increasing `id` order. -/
theorem mergeSort_id_lt {l : List Row} (hn : (l.map Row.id).Nodup) :
    (l.mergeSort fun a b => a.id ≤ b.id).Pairwise fun a b => a.id < b.id := by
  have hs : (l.mergeSort fun a b => a.id ≤ b.id).Pairwise fun a b => decide (a.id ≤ b.id) :=
    List.sorted_mergeSort (fun a b c hab hbc => by
      simp only [decide_eq_true_eq] at *; exact le_trans hab hbc)
      (fun a b => by simpa using le_total a.id b.id) l
  have hne : (l.mergeSort fun a b => a.id ≤ b.id).Pairwise fun a b => a.id ≠ b.id :=
    List.pairwise_map.mp (((List.mergeSort_perm l _).map Row.id).nodup_iff.mpr hn)
  exact (hs.and hne).imp fun ⟨hle, hne⟩ => Nat.lt_of_le_of_ne (by simpa using hle) hne

/-- Rows of distinct ids, those of `l₁` all below those of `l₂`: sorting the two together
sorts each on its own. -/
theorem mergeSort_append_of_lt {l₁ l₂ : List Row} (hn : ((l₁ ++ l₂).map Row.id).Nodup)
    (hlt : ∀ a ∈ l₁, ∀ b ∈ l₂, a.id < b.id) :
    (l₁ ++ l₂).mergeSort (fun a b => a.id ≤ b.id) =
      l₁.mergeSort (fun a b => a.id ≤ b.id) ++ l₂.mergeSort fun a b => a.id ≤ b.id := by
  haveI : IsAntisymm Row (fun a b => a.id < b.id) :=
    ⟨fun _ _ h₁ h₂ => absurd (h₁.trans h₂) (Nat.lt_irrefl _)⟩
  rw [List.map_append] at hn
  have hp := (List.mergeSort_perm (l₁ ++ l₂) fun a b => a.id ≤ b.id).trans
    ((List.mergeSort_perm l₁ fun a b => a.id ≤ b.id).append
      (List.mergeSort_perm l₂ fun a b => a.id ≤ b.id)).symm
  refine List.eq_of_perm_of_sorted hp (mergeSort_id_lt (by rwa [List.map_append])) ?_
  exact List.pairwise_append.mpr ⟨mergeSort_id_lt (List.nodup_append.mp hn).1,
    mergeSort_id_lt (List.nodup_append.mp hn).2.1,
    fun a ha b hb => hlt a (List.mem_mergeSort.mp ha) b (List.mem_mergeSort.mp hb)⟩

end Sorting

/-! ## From a point of the run on -/

/-- Since a point where `old` was committed in `t` and `t`'s sequence stood at `N`: the rows of
`t` are `old` followed, up to embeddings, by rows drawn from then on, and every id a call holds
uncommitted for `t` was drawn from then on. -/
structure Since (t : Table) (old : List Row) (N : Nat) (sys : Sys) : Prop where
  rows : ∃ new : List Row, (sys.db.rows t).map Row.erase = (old ++ new).map Row.erase ∧
    ∀ r ∈ new, N ≤ r.id
  pending : ∀ th ∈ sys.threads, ∀ x ∈ th.buffer.flatMap (Write.rowIds t), N ≤ x
  next : N ≤ sys.db.nextId t

namespace Since

variable {t : Table} {old : List Row} {N : Nat} {sys sys' : Sys} {e : Event}

theorem start (hq : ∀ th ∈ sys.threads, th.buffer.flatMap (Write.rowIds t) = []) :
    Since t (sys.db.rows t) (sys.db.nextId t) sys :=
  ⟨⟨[], by simp, fun _ h => nomatch h⟩, fun th hth x hx => by simp [hq th hth] at hx, le_rfl⟩

theorem pending_set (h : Since t old N sys) {i : Nat} {th : Thread} (hth : th ∈ sys.threads.set i
    ⟨.done, []⟩) : ∀ x ∈ th.buffer.flatMap (Write.rowIds t), N ≤ x := by
  rcases List.mem_or_eq_of_mem_set hth with hth | rfl
  · exact h.pending th hth
  · intro x hx; simp at hx

theorem transition (h : Since t old N sys) (ht : Transition sys e sys') : Since t old N sys' := by
  cases ht with
  | stay => exact h
  | ensureSchema s => exact ⟨h.rows, h.pending, h.next⟩
  | start c =>
    refine ⟨h.rows, fun th hth => ?_, h.next⟩
    rcases List.mem_append.mp hth with hth | hth
    · exact h.pending th hth
    · rw [List.mem_singleton.mp hth]; intro x hx; simp at hx
  | @exec i th input db' buf' pc' hi hx =>
    have hf := hx.frame
    have hth := h.pending th (List.getElem?_mem hi)
    refine ⟨hf.rows ▸ h.rows, fun th' hth' => ?_, h.next.trans (hf.nextId t)⟩
    rcases List.mem_or_eq_of_mem_set hth' with hth' | rfl
    · exact h.pending th' hth'
    · obtain ⟨-, ⟨hk, -⟩ | ⟨hk, -⟩⟩ := (sequenceLaws_rowIds t).exec hx
      · rw [hk]; exact hth
      · intro x hx'
        rw [hk, List.mem_append, List.mem_singleton] at hx'
        rcases hx' with hx' | rfl
        · exact hth x hx'
        · exact h.next
  | @commit i buf hi =>
    obtain ⟨new, hr, hnew⟩ := h.rows
    have hbuf := h.pending _ (List.getElem?_mem hi)
    refine ⟨⟨new ++ buf.flatMap (Write.inserted t), ?_, fun r hr' => ?_⟩,
      fun th hth => h.pending_set hth, by simpa using h.next⟩
    · rw [Db.applyAll_rows_erase, List.map_append, hr]; simp
    · rcases List.mem_append.mp hr' with hr' | hr'
      · exact hnew r hr'
      · obtain ⟨w, hw, hrw⟩ := List.mem_flatMap.mp hr'
        exact hbuf r.id (List.mem_flatMap.mpr ⟨w, hw, List.mem_map_of_mem _ hrw⟩)
  | raise hi => exact ⟨h.rows, fun th hth => h.pending_set hth, h.next⟩

theorem foldl (h : Since t old N sys) (es : List Event) :
    Since t old N (es.foldl Sys.step sys) := by
  induction es generalizing sys with
  | nil => exact h
  | cons e es ih => exact ih (h.transition (Sys.transition_step sys e))

end Since

/-- At a point of any run where no call holds a daily row it inserted and has not committed, the
notes `read_today()` returns are a prefix of those it returns at every later point of the run,
whatever calls start, interleave, commit or raise in between. -/
theorem read_today_extends_from_quiet_point (es es' : List Event) (s : Store) (today : Date)
    (hq : ∀ th ∈ (Sys.run es).threads, th.buffer.flatMap (Write.rowIds s.dailyTable) = []) :
    todayNotes (Sys.run es).db s today <+: todayNotes (Sys.run (es ++ es')).db s today := by
  have hrun : Sys.run (es ++ es') = es'.foldl Sys.step (Sys.run es) := by
    unfold Sys.run; rw [List.foldl_append]
  obtain ⟨⟨new, hr, hnew⟩, -, -⟩ := (Since.start hq).foldl es'
  rw [← hrun] at hr
  -- the committed ids were drawn before the quiet point, the others after it
  have hold : ∀ a ∈ (Sys.run es).db.rows s.dailyTable, a.id < (Sys.run es).db.nextId s.dailyTable :=
    fun a ha => ((inv_run es).rowIds _).2 _ (List.mem_append_left _ (List.mem_map_of_mem _ ha))
  have hn : (((Sys.run es).db.rows s.dailyTable ++ new).map Row.id).Nodup :=
    map_eq_of_erase hr Row.id (fun _ => rfl) ▸ (inv_run (es ++ es')).rowIds_nodup _
  unfold todayNotes
  rw [← notes_erase today ((Sys.run (es ++ es')).db.rows s.dailyTable), hr, notes_erase,
    List.filter_append, mergeSort_append_of_lt
    (by rw [← List.filter_append]; exact hn.sublist ((List.filter_sublist _).map _))
    fun a ha b hb => (hold a (List.mem_filter.mp ha).1).trans_le (hnew b (List.mem_filter.mp hb).1),
    List.map_append]
  exact List.prefix_append _ _

theorem read_today_extends_from_quiet_point_two_appends :
    let es : List Event := [.ensureSchema ⟨3⟩, .start (.appendToday ⟨3⟩ 0 "a"), .exec 0 .next,
      .exec 0 .next, .commit 0]
    (∀ th ∈ (Sys.run es).threads, th.buffer.flatMap (Write.rowIds (Store.dailyTable ⟨3⟩)) = []) ∧
      todayNotes (Sys.run es).db ⟨3⟩ 0 <+: todayNotes (Sys.run (es ++
        [.start (.appendToday ⟨3⟩ 0 "b"), .exec 1 .next, .exec 1 .next, .commit 1])).db ⟨3⟩ 0 := by
  intro es
  have hq : ∀ th ∈ (Sys.run es).threads,
      th.buffer.flatMap (Write.rowIds (Store.dailyTable ⟨3⟩)) = [] := by decide
  exact ⟨hq, read_today_extends_from_quiet_point es _ ⟨3⟩ 0 hq⟩

/- Away from a quiet point the order can change: `"a"` is inserted first, `"b"` commits first,
and a later read puts `"a"` in front of the `"b"` an earlier read returned. -/
example :
    let es : List Event := [.ensureSchema ⟨3⟩, .start (.appendToday ⟨3⟩ 0 "a"),
      .start (.appendToday ⟨3⟩ 0 "b"), .exec 0 .next, .exec 1 .next, .exec 1 .next, .commit 1]
    todayNotes (Sys.run es).db ⟨3⟩ 0 = ["b"] ∧
      todayNotes (Sys.run (es ++ [.exec 0 .next, .commit 0])).db ⟨3⟩ 0 = ["a", "b"] := by
  with_unfolding_all decide

end Clawbot.Memory.Postgres

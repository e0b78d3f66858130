import Clawbot.Memory.Postgres.Store

/-!
# Grouping recent memories by date

`get_recent_memories` groups its rows with `by_date.setdefault(key, []).append(content)`: a
search of every key seen so far, in insertion order. The query sorts the rows by
`entry_date DESC, id`, so the rows of one date stand together, and the search either ends at
the last key or adds a new one. The loop therefore cuts the rows into maximal runs of equal
dates. `dateRuns` is that cutting, read left to right. The keys are `str(entry_date)`, which
tells dates apart.
-/

namespace Clawbot.Memory.Postgres

open Clawbot.Python

/-- A row joins the last run when it has that run's date, and otherwise starts a new run. -/
def extendRuns (runs : List (Date × List String)) (d : Date) (c : String) :
    List (Date × List String) :=
  match runs.getLast? with
  | some (e, cs) => if e = d then runs.dropLast ++ [(e, cs ++ [c])] else runs ++ [(d, [c])]
  | none => [(d, [c])]

/-- The rows cut into maximal runs of equal dates, each run with its contents in row order. -/
def dateRuns (rows : List (Date × String)) : List (Date × List String) :=
  rows.foldl (fun runs r => extendRuns runs r.1 r.2) []

theorem dateRuns_append_single (rows : List (Date × String)) (r : Date × String) :
    dateRuns (rows ++ [r]) = extendRuns (dateRuns rows) r.1 r.2 :=
  List.foldl_append _ _ _ _

theorem groupByDate_append_single (rs : List (String × String)) (r : String × String) :
    groupByDate (rs ++ [r]) = setdefaultAppend (groupByDate rs) r.1 r.2 :=
  List.foldl_append _ _ _ _

@[simp] theorem extendRuns_nil (d : Date) (c : String) : extendRuns [] d c = [(d, [c])] := rfl

theorem extendRuns_append_single (init : List (Date × List String)) (e d : Date)
    (cs : List String) (c : String) :
    extendRuns (init ++ [(e, cs)]) d c =
      if e = d then init ++ [(e, cs ++ [c])] else init ++ [(e, cs), (d, [c])] := by
  simp [extendRuns]

/-- The search passes every key other than the one it looks for. -/
theorem setdefaultAppend_append (l r : List (String × List String)) (key c : String)
    (h : key ∉ l.map Prod.fst) :
    setdefaultAppend (l ++ r) key c = l ++ setdefaultAppend r key c := by
  induction l with
  | nil => rfl
  | cons p l ih =>
    simp only [List.map_cons, List.mem_cons, not_or] at h
    simp [setdefaultAppend, Ne.symm h.1, ih h.2]

/-! ## The runs -/

section Runs

variable {rows : List (Date × String)}

theorem mem_dates_extendRuns (runs : List (Date × List String)) (d x : Date) (c : String) :
    x ∈ (extendRuns runs d c).map Prod.fst ↔ x ∈ runs.map Prod.fst ∨ x = d := by
  rcases List.eq_nil_or_concat runs with rfl | ⟨init, ⟨e, cs⟩, rfl⟩
  · simp
  · rw [List.concat_eq_append, extendRuns_append_single]
    split_ifs with he <;> simp [he, or_assoc]

/-- The runs carry exactly the dates of the rows. -/
theorem mem_dates_dateRuns (x : Date) :
    x ∈ (dateRuns rows).map Prod.fst ↔ x ∈ rows.map Prod.fst := by
  induction rows using List.reverseRecOn with
  | nil => rfl
  | append_singleton rows r ih =>
    rw [dateRuns_append_single, mem_dates_extendRuns, ih]
    simp [eq_comm]

/-- Rows sorted newest first give runs of strictly decreasing dates. -/
theorem dateRuns_dates_desc (hs : rows.Pairwise (fun a b => b.1 ≤ a.1)) :
    ((dateRuns rows).map Prod.fst).Pairwise (· > ·) := by
  induction rows using List.reverseRecOn with
  | nil => exact List.Pairwise.nil
  | append_singleton rows r ih =>
    rw [List.pairwise_append] at hs
    have hd : ∀ x ∈ (dateRuns rows).map Prod.fst, r.1 ≤ x := fun x hx => by
      obtain ⟨a, ha, rfl⟩ := List.mem_map.mp ((mem_dates_dateRuns x).mp hx)
      exact hs.2.2 a ha r (List.mem_singleton_self _)
    have ih := ih hs.1
    rw [dateRuns_append_single]
    rcases List.eq_nil_or_concat (dateRuns rows) with he | ⟨init, ⟨e, cs⟩, he⟩
    · simp [he]
    rw [he, List.concat_eq_append] at hd ih ⊢
    rw [List.map_append, List.map_singleton] at hd ih
    rw [extendRuns_append_single]
    split_ifs with h
    · simpa using ih
    have hlt : ∀ x ∈ init.map Prod.fst ++ [e], r.1 < x := by
      intro x hx
      have her : r.1 ≤ e := hd e (by simp)
      rcases List.mem_append.mp hx with hx | hx
      · exact Int.lt_of_le_of_lt her
          ((List.pairwise_append.mp ih).2.2 x hx e (List.mem_singleton_self _))
      · rw [List.mem_singleton.mp hx]; exact Int.lt_iff_le_and_ne.mpr ⟨her, Ne.symm h⟩
    have hm : (init ++ [(e, cs), (r.1, [r.2])]).map Prod.fst =
        init.map Prod.fst ++ [e] ++ [r.1] := by simp
    rw [hm, List.pairwise_append]
    exact ⟨ih, List.pairwise_singleton _ _,
      fun x hx y hy => List.mem_singleton.mp hy ▸ hlt x hx⟩

/-- A row that sorts after all rows before it is no later than the last run's date and
strictly earlier than every other run's. -/
theorem dateRuns_bounds {r : Date × String} (hs : (rows ++ [r]).Pairwise (fun a b => b.1 ≤ a.1))
    {init : List (Date × List String)} {e : Date} {cs : List String}
    (he : dateRuns rows = init ++ [(e, cs)]) : r.1 ≤ e ∧ ∀ g ∈ init, r.1 < g.1 := by
  have hs := List.pairwise_append.mp hs
  have hdesc := dateRuns_dates_desc hs.1
  rw [he, List.map_append, List.map_singleton, List.pairwise_append] at hdesc
  have hm : e ∈ rows.map Prod.fst := (mem_dates_dateRuns e).mp (by simp [he])
  obtain ⟨a, ha, hae⟩ := List.mem_map.mp hm
  have her : r.1 ≤ e := hae ▸ hs.2.2 a ha r (List.mem_singleton_self _)
  exact ⟨her, fun g hg => Int.lt_of_le_of_lt her
    (hdesc.2.2 g.1 (List.mem_map_of_mem _ hg) e (List.mem_singleton_self _))⟩

/-- In sorted rows, each run holds the contents of all rows of its date, in row order. -/
theorem dateRuns_contents (hs : rows.Pairwise (fun a b => b.1 ≤ a.1)) :
    ∀ g ∈ dateRuns rows, g.2 = (rows.filter (·.1 = g.1)).map Prod.snd := by
  induction rows using List.reverseRecOn with
  | nil => intro g hg; cases hg
  | append_singleton rows r ih =>
    have ih := ih (List.pairwise_append.mp hs).1
    -- a run of another date keeps its contents
    have hkeep : ∀ g ∈ dateRuns rows, g.1 ≠ r.1 →
        g.2 = ((rows ++ [r]).filter (·.1 = g.1)).map Prod.snd := fun g hg hne => by
      simp [ih g hg, Ne.symm hne]
    -- a date no run has yet gets the new row alone
    have hnew : r.1 ∉ (dateRuns rows).map Prod.fst →
        [r.2] = ((rows ++ [r]).filter (·.1 = r.1)).map Prod.snd := fun hn => by
      have h0 : rows.filter (·.1 = r.1) = [] := List.filter_eq_nil_iff.mpr fun a ha he =>
        hn ((mem_dates_dateRuns _).mpr (List.mem_map.mpr ⟨a, ha, of_decide_eq_true he⟩))
      simp [List.filter_append, h0]
    intro g hg
    rw [dateRuns_append_single] at hg
    rcases List.eq_nil_or_concat (dateRuns rows) with he | ⟨init, ⟨e, cs⟩, he⟩
    · rw [he] at hg hnew
      rw [List.mem_singleton.mp hg]
      exact hnew (by simp)
    rw [List.concat_eq_append] at he
    have hne : ∀ g ∈ init, g.1 ≠ r.1 := fun g hg h =>
      Int.lt_irrefl _ (h ▸ (dateRuns_bounds hs he).2 g hg)
    rw [he] at hkeep hnew ih
    rw [he, extendRuns_append_single] at hg
    split_ifs at hg with h
    · rcases List.mem_append.mp hg with hg | hg
      · exact hkeep g (by simp [hg]) (hne g hg)
      · rw [List.mem_singleton.mp hg]
        subst h
        have hc : cs = (rows.filter (·.1 = r.1)).map Prod.snd := ih (r.1, cs) (by simp)
        simp [List.filter_append, hc]
    · simp only [List.mem_append, List.mem_cons, List.mem_singleton, List.not_mem_nil,
        or_false] at hg
      rcases hg with hg | rfl | rfl
      · exact hkeep g (by simp [hg]) (hne g hg)
      · exact hkeep _ (by simp) h
      · refine hnew fun hm => ?_
        simp only [List.map_append, List.map_singleton, List.mem_append,
          List.mem_singleton] at hm
        rcases hm with hm | hm
        · obtain ⟨g, hg, hgr⟩ := List.mem_map.mp hm
          exact hne g hg hgr
        · exact h hm.symm

/-- On sorted rows whose keys tell their dates apart, the `setdefault` loop builds the runs. -/
theorem groupByDate_eq_dateRuns (isoformat : Date → String)
    (hs : rows.Pairwise (fun a b => b.1 ≤ a.1))
    (hi : ∀ a ∈ rows, ∀ b ∈ rows, isoformat a.1 = isoformat b.1 → a.1 = b.1) :
    groupByDate (rows.map fun r => (isoformat r.1, r.2)) =
      (dateRuns rows).map fun g => (isoformat g.1, g.2) := by
  induction rows using List.reverseRecOn with
  | nil => rfl
  | append_singleton rows r ih =>
    have ih := ih (List.pairwise_append.mp hs).1
      fun a ha b hb => hi a (List.mem_append_left _ ha) b (List.mem_append_left _ hb)
    -- a run's date is a row's date, so its key tells it from the new row's
    have hiso : ∀ x ∈ (dateRuns rows).map Prod.fst, isoformat x = isoformat r.1 → x = r.1 :=
      fun x hx h => by
        obtain ⟨a, ha, rfl⟩ := List.mem_map.mp ((mem_dates_dateRuns x).mp hx)
        exact hi a (List.mem_append_left _ ha) r (by simp) h
    rw [List.map_append, List.map_singleton, groupByDate_append_single, ih,
      dateRuns_append_single]
    rcases List.eq_nil_or_concat (dateRuns rows) with he | ⟨init, ⟨e, cs⟩, he⟩
    · simp [he, setdefaultAppend]
    rw [List.concat_eq_append] at he
    have hlt := (dateRuns_bounds hs he).2
    rw [he] at hiso ⊢
    rw [extendRuns_append_single, List.map_append, List.map_singleton, setdefaultAppend_append]
    · by_cases h : e = r.1
      · simp [h, setdefaultAppend]
      · have hk : isoformat e ≠ isoformat r.1 := fun h' => h (hiso e (by simp) h')
        simp [h, hk, setdefaultAppend]
    · simp only [List.map_map, List.mem_map, Function.comp_def, not_exists, not_and]
      intro g hg h
      exact Int.lt_irrefl _ (hiso g.1 (by simp [List.mem_map_of_mem _ hg]) h ▸ hlt g hg)

end Runs

/-! ## The grouping loop -/

/-- For rows sorted by date, newest first, whose `str(entry_date)` keys tell their dates apart,
the grouping loop of `get_recent_memories` yields the maximal runs of equal dates: each date of
the rows once, dates strictly descending, each with the contents of all its rows in row order;
rendered, each date is a `# date` header over its contents joined by `"\n"`, and the dates are
joined by horizontal rules. -/
theorem recent_memories_grouped_into_date_runs (isoformat : Date → String)
    (rows : List (Date × String)) (hs : rows.Pairwise (fun a b => b.1 ≤ a.1))
    (hi : ∀ a ∈ rows, ∀ b ∈ rows, isoformat a.1 = isoformat b.1 → a.1 = b.1) :
    groupByDate (rows.map fun r => (isoformat r.1, r.2)) =
        (dateRuns rows).map (fun g => (isoformat g.1, g.2)) ∧
      ((dateRuns rows).map Prod.fst).Pairwise (· > ·) ∧
      (∀ d, d ∈ (dateRuns rows).map Prod.fst ↔ d ∈ rows.map Prod.fst) ∧
      (∀ g ∈ dateRuns rows, g.2 = (rows.filter (·.1 = g.1)).map Prod.snd) ∧
      join "\n\n---\n\n" ((groupByDate (rows.map fun r => (isoformat r.1, r.2))).map
          fun e => "# " ++ e.1 ++ "\n\n" ++ join "\n" e.2) =
        join "\n\n---\n\n" ((dateRuns rows).map fun g =>
          "# " ++ isoformat g.1 ++ "\n\n" ++
            join "\n" ((rows.filter (·.1 = g.1)).map Prod.snd)) := by
  have hg := groupByDate_eq_dateRuns isoformat hs hi
  refine ⟨hg, dateRuns_dates_desc hs, mem_dates_dateRuns, dateRuns_contents hs, ?_⟩
  rw [hg, List.map_map]
  exact congrArg _ (List.map_congr_left fun g hm => by
    simp only [Function.comp_apply, ← dateRuns_contents hs g hm])

theorem recent_memories_grouped_into_date_runs_witness :
    dateRuns [(2, "a"), (2, "b"), (1, "c")] = [(2, ["a", "b"]), (1, ["c"])] ∧
      groupByDate ([((2 : Date), "a"), (2, "b"), (1, "c")].map fun r => (toString r.1, r.2)) =
        (dateRuns [(2, "a"), (2, "b"), (1, "c")]).map (fun g => (toString g.1, g.2)) :=
  ⟨by decide, (recent_memories_grouped_into_date_runs (fun d => toString d)
    [(2, "a"), (2, "b"), (1, "c")] (by decide) (by decide)).1⟩

/-- The rows `get_recent_memories` reads: the daily rows from the cutoff on, ordered by
`entry_date DESC, id`. -/
def recentRows (db : Db) (s : Store) (today : Date) (days : Int) : List Row :=
  ((db.rows s.dailyTable).filter (today - days ≤ ·.day)).mergeSort
    (fun a b => b.day < a.day ∨ (a.day = b.day ∧ a.id ≤ b.id))

theorem mem_recentRows {db : Db} {s : Store} {today : Date} {days : Int} {r : Row} :
    r ∈ recentRows db s today days ↔ r ∈ db.rows s.dailyTable ∧ today - days ≤ r.day := by
  simp [recentRows]

/-- The query's order, `entry_date DESC, id`, as the sort leaves the rows. -/
theorem recentRows_pairwise (db : Db) (s : Store) (today : Date) (days : Int) :
    (recentRows db s today days).Pairwise
      (fun a b => b.day < a.day ∨ (a.day = b.day ∧ a.id ≤ b.id)) := by
  have trans : ∀ (x y z : Int) (i j k : Nat), y < x ∨ (x = y ∧ i ≤ j) →
      z < y ∨ (y = z ∧ j ≤ k) → z < x ∨ (x = z ∧ i ≤ k) := by intros; omega
  have total : ∀ (x y : Int) (i j : Nat),
      (y < x ∨ (x = y ∧ i ≤ j)) ∨ (x < y ∨ (y = x ∧ j ≤ i)) := by intros; omega
  exact (List.sorted_mergeSort
    (fun a b c hab hbc => by
      simpa using trans _ _ _ _ _ _ (by simpa using hab) (by simpa using hbc))
    (fun a b => by simpa using total a.day b.day a.id b.id) _).imp fun h => by simpa using h

/-- The query's order puts the rows newest first. -/
theorem recentRows_sorted (db : Db) (s : Store) (today : Date) (days : Int) :
    (recentRows db s today days).Pairwise (fun a b => b.day ≤ a.day) := by
  have weak : ∀ (x y : Int) (i j : Nat), y < x ∨ (x = y ∧ i ≤ j) → y ≤ x := by intros; omega
  exact (recentRows_pairwise db s today days).imp fun h => weak _ _ _ _ h

/-- When its cutoff `today - timedelta(days=days)` is a date, `get_recent_memories` renders the
rows of its window as maximal runs of equal dates, newest first, each under its date's heading.
(Otherwise it raises `OverflowError` before the query.) -/
theorem getRecentMemories_renders_date_runs (isoformat : Date → String) (db : Db) (s : Store)
    (today : Date) (days : Int) (_hw : Date.SubOk today days)
    (hi : ∀ a ∈ db.rows s.dailyTable, ∀ b ∈ db.rows s.dailyTable,
      isoformat a.day = isoformat b.day → a.day = b.day) :
    getRecentMemories isoformat db s today days =
      join "\n\n---\n\n"
        ((dateRuns ((recentRows db s today days).map fun r => (r.day, r.content))).map
          fun g => "# " ++ isoformat g.1 ++ "\n\n" ++ join "\n" g.2) := by
  have hs : ((recentRows db s today days).map fun r => (r.day, r.content)).Pairwise
      (fun a b => b.1 ≤ a.1) := List.pairwise_map.mpr (recentRows_sorted db s today days)
  have hi' : ∀ a ∈ (recentRows db s today days).map (fun r => (r.day, r.content)),
      ∀ b ∈ (recentRows db s today days).map (fun r => (r.day, r.content)),
      isoformat a.1 = isoformat b.1 → a.1 = b.1 := by
    simp only [List.mem_map]
    rintro _ ⟨a, ha, rfl⟩ _ ⟨b, hb, rfl⟩
    exact hi a (mem_recentRows.mp ha).1 b (mem_recentRows.mp hb).1
  have hg : groupByDate ((recentRows db s today days).map fun r => (isoformat r.day, r.content)) =
      (dateRuns ((recentRows db s today days).map fun r => (r.day, r.content))).map
        fun g => (isoformat g.1, g.2) := by
    rw [← groupByDate_eq_dateRuns isoformat hs hi', List.map_map]; rfl
  show (if (recentRows db s today days).isEmpty then "" else
    join _ ((groupByDate ((recentRows db s today days).map _)).map _)) = _
  rw [hg, List.map_map]
  split
  · next h => rw [List.isEmpty_iff.mp h]; rfl
  · rfl

theorem getRecentMemories_renders_date_runs_one_row :
    Date.SubOk 5 1 ∧ getRecentMemories (fun d => toString d)
        { Db.empty with rows := fun _ => [{ id := 1, content := "a", day := 5 }] } ⟨3⟩ 5 1 =
      "# 5\n\na" :=
  ⟨by decide, (getRecentMemories_renders_date_runs (fun d => toString d)
    { Db.empty with rows := fun _ => [{ id := 1, content := "a", day := 5 }] } ⟨3⟩ 5 1
    (by decide) (by simp)).trans (by simp [recentRows, dateRuns]; decide)⟩

end Clawbot.Memory.Postgres

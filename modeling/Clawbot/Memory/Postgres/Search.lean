import Clawbot.Memory.Postgres.Store
import Mathlib.Algebra.Order.Field.Rat
import Mathlib.Tactic.NormNum.Ineq
import Mathlib.Tactic.NormNum.Inv

/-!
# `memory_search_dim{N}`: a top-`k` merge over three tables

`_ensure_schema` installs one search function per dimension. Each of its three arms reads the
rows of one table that have an embedding, orders them by `embedding <=> query_embedding` and
keeps `match_limit` of them; the `UNION ALL` of the arms is filtered by
`similarity >= similarity_threshold`, ordered by `similarity DESC` and cut at `match_limit`
again. `OrderByLimit` is SQL's `ORDER BY … LIMIT`, a relation since PostgreSQL leaves the order
among equal keys open. `MemorySearch` is one run of the function, `GlobalTopK` what it is for.

`_ensure_schema` also builds an HNSW index on each table's embedding, and the planner may answer
an arm's `ORDER BY embedding <=> query_embedding LIMIT k` by an index scan. That scan is
approximate: it returns at most `k` rows of the table, in order of distance, but not
necessarily the nearest ones, and never a zero vector, which the index leaves out. `ArmScan`
allows any such answer; `ExactSearch` is the plan in which every arm scans its whole table.

Narrowings:
* pgvector's `<=>` is taken as given: a scanned row carries its distance to the query (`scan`
  reads it through `distance`). pgvector's cosine distance is NaN when a vector has norm zero.
* A `float8` is an exact rational or NaN, ordered as PostgreSQL orders it, NaN above every
  number. The merge lemma asks only that ranking by distance never contradicts ranking by
  similarity, which rounding `1 - d` keeps.
-/

namespace Clawbot.Memory.Postgres

open Clawbot.Python

/-- A PostgreSQL `float8`: a number or NaN. -/
inductive Float8
  | num (x : ℚ)
  | nan
  deriving DecidableEq, Repr

namespace Float8

/-- `float8_cmp_internal`: NaN equals NaN and lies above every number. -/
def le : Float8 → Float8 → Bool
  | num x, num y => decide (x ≤ y)
  | _, nan => true
  | nan, num _ => false

/-- `float8mi`: NaN when an operand is NaN. -/
def sub : Float8 → Float8 → Float8
  | num x, num y => num (x - y)
  | _, _ => nan

theorem le_refl (a : Float8) : a.le a := by cases a <;> simp [le]

theorem le_trans {a b c : Float8} (hab : a.le b) (hbc : b.le c) : a.le c := by
  cases a <;> cases b <;> cases c <;> simp only [le, decide_eq_true_eq] at *
  all_goals first | trivial | exact hab.trans hbc

theorem le_total (a b : Float8) : a.le b || b.le a := by
  cases a <;> cases b <;> simp [le, Rat.le_total]

theorem sub_antitone (c : ℚ) {a b : Float8} (hb : b ≠ nan) (h : a.le b) :
    ((num c).sub b).le ((num c).sub a) := by
  cases a <;> cases b <;> simp only [le, sub, decide_eq_true_eq] at * <;> try trivial
  exact sub_le_sub_left h c

end Float8

/-- A row of the combined result, `(source, source_id, content, entry_date, similarity)`, with
the distance its arm ordered by. -/
structure Hit where
  source : String
  sourceId : Nat
  content : String
  entryDate : Option Date
  dist : Float8
  deriving DecidableEq, Repr

/-- `(1 - (embedding <=> query_embedding))::FLOAT` -/
def Hit.similarity (h : Hit) : Float8 := (Float8.num 1).sub h.dist

/-- One arm's `SELECT … FROM {table} WHERE embedding IS NOT NULL`, with
`embedding <=> query_embedding` read through `distance`. -/
def scan (source : String) (content : Row → String) (entryDate : Row → Option Date)
    (distance : List Float4 → Float8) (rows : List Row) : List Hit :=
  rows.filterMap fun r =>
    r.embedding.map fun e => ⟨source, r.id, content r, entryDate r, distance e⟩

def scanDaily : (List Float4 → Float8) → List Row → List Hit :=
  scan "daily" Row.content fun r => some r.day

def scanLongTerm : (List Float4 → Float8) → List Row → List Hit :=
  scan "long_term" Row.content fun _ => none

def scanConversation : (List Float4 → Float8) → List Row → List Hit :=
  scan "conversation" (fun r => r.role ++ ": " ++ r.content) fun r => some r.day

section OrderByLimit

variable {α : Type} {le : α → α → Bool} {k : Nat}

/-- `ORDER BY … LIMIT k`: the first `k` rows of some ordering of `xs` that `le` sorts. -/
def OrderByLimit (le : α → α → Bool) (k : Nat) (xs ys : List α) : Prop :=
  ∃ zs : List α, zs.Perm xs ∧ zs.Pairwise (fun a b => le a b) ∧ ys = zs.take k

/-- One evaluation of `ORDER BY … LIMIT k`: a stable sort, then the first `k` rows. -/
def orderByLimit (le : α → α → Bool) (k : Nat) (xs : List α) : List α :=
  (xs.mergeSort le).take k

theorem orderByLimit_spec (htrans : ∀ a b c, le a b → le b c → le a c)
    (htotal : ∀ a b, le a b || le b a) (xs : List α) :
    OrderByLimit le k xs (orderByLimit le k xs) :=
  ⟨_, List.mergeSort_perm xs le, List.sorted_mergeSort htrans htotal xs, rfl⟩

theorem OrderByLimit.mem {xs ys : List α} (h : OrderByLimit le k xs ys) {y : α} (hy : y ∈ ys) :
    y ∈ xs := by
  obtain ⟨zs, hp, -, rfl⟩ := h
  exact hp.mem_iff.mp (List.mem_of_mem_take hy)

/-- Ranking only some of the rows: a top `k` of the whole table is one of its answers. -/
theorem OrderByLimit.self_of_length_le {xs : List α} (hs : xs.Pairwise (fun a b => le a b))
    (hk : xs.length ≤ k) : OrderByLimit le k xs xs :=
  ⟨xs, .refl _, hs, (List.take_of_length_le hk).symm⟩

/-- What `ORDER BY … LIMIT k` keeps and drops: the kept rows are sorted, none is ranked below a
dropped one, and rows are dropped only once `k` are kept. -/
theorem OrderByLimit.split {xs ys : List α} (h : OrderByLimit le k xs ys) :
    ∃ rest, xs.Perm (ys ++ rest) ∧ ys.Pairwise (fun a b => le a b) ∧
      (∀ y ∈ ys, ∀ x ∈ rest, le y x) ∧ ys.length ≤ k ∧
      (rest ≠ [] → ys.length = k) := by
  obtain ⟨zs, hp, hs, rfl⟩ := h
  rw [← List.take_append_drop k zs, List.pairwise_append] at hs
  refine ⟨zs.drop k, (List.take_append_drop k zs).symm ▸ hp.symm, hs.1, hs.2.2,
    List.length_take_le _ _, fun hne => ?_⟩
  have : ¬ zs.length ≤ k := fun h => hne (List.drop_eq_nil_iff.mpr h)
  simp only [List.length_take]
  omega

/-- A row a top `k` leaves out is ranked no higher than any row it keeps. -/
theorem OrderByLimit.le_of_not_mem {xs ys : List α} (h : OrderByLimit le k xs ys) {y x : α}
    (hy : y ∈ ys) (hx : x ∈ xs) (hxy : x ∉ ys) : le y x := by
  obtain ⟨rest, hp, -, hle, -⟩ := h.split
  rcases List.mem_append.mp (hp.mem_iff.mp hx) with h | h
  · exact absurd h hxy
  · exact hle y hy x h

theorem orderByLimit_of_split (htrans : ∀ a b c, le a b → le b c → le a c)
    (htotal : ∀ a b, le a b || le b a) {xs ys rest : List α} (hp : xs.Perm (ys ++ rest))
    (hs : ys.Pairwise (fun a b => le a b)) (hx : ∀ y ∈ ys, ∀ x ∈ rest, le y x)
    (hk : ys.length ≤ k) (hl : rest ≠ [] → ys.length = k) : OrderByLimit le k xs ys := by
  refine ⟨ys ++ rest.mergeSort le, ((List.mergeSort_perm rest le).append_left ys).trans hp.symm,
    List.pairwise_append.mpr ⟨hs, List.sorted_mergeSort htrans htotal rest,
      fun y hy x hx' => hx y hy x (List.mem_mergeSort.mp hx')⟩, ?_⟩
  by_cases hr : rest = []
  · simp [hr, List.take_of_length_le hk]
  · exact (List.take_left' (hl hr)).symm

/-- The pigeonhole step: if `k` rows of `U` are all ranked at least as high as `y`, no row of a
top `k` of `U` is ranked below `y`. -/
theorem le_of_dominated (htrans : ∀ a b c, le a b → le b c → le a c) {U R E S : List α}
    {y r : α} (hU : U.Perm (R ++ E)) (hx : ∀ r ∈ R, ∀ e ∈ E, le r e) (hk : R.length ≤ k)
    (hS : S.Sublist U) (hSk : S.length = k) (hSy : ∀ s ∈ S, le s y) (hr : r ∈ R) :
    le r y := by
  by_contra hry
  have hSc : S.countP (le · y) = k := by rw [List.countP_eq_length.mpr hSy, hSk]
  have hEc : E.countP (le · y) = 0 :=
    List.countP_eq_zero.mpr fun e he hey => hry (htrans _ _ _ (hx r hr e he) hey)
  have hRc : R.countP (le · y) < R.length := by
    rw [List.countP_eq_length_filter]
    exact List.length_filter_lt_length_iff_exists.mpr ⟨r, hr, hry⟩
  have hle := (hS.countP_le (le · y)).trans_eq (hU.countP_eq (le · y))
  rw [List.countP_append] at hle
  omega

/-- Rows `Y` added to `U`, each ranked no higher than `k` rows of `U`, leave a top `k` of `U` a
top `k` of the whole. -/
theorem orderByLimit_of_dominated (htrans : ∀ a b c, le a b → le b c → le a c)
    (htotal : ∀ a b, le a b || le b a) {U G Y R : List α} (h : OrderByLimit le k U R)
    (hG : G.Perm (U ++ Y))
    (hY : ∀ y ∈ Y, ∃ S : List α, S.Sublist U ∧ S.length = k ∧ ∀ s ∈ S, le s y) :
    OrderByLimit le k G R := by
  obtain ⟨E, hU, hs, hx, hk, hl⟩ := h.split
  have hG' : G.Perm (R ++ (E ++ Y)) := hG.trans (List.append_assoc R E Y ▸ hU.append_right Y)
  refine orderByLimit_of_split htrans htotal hG' hs ?_ hk ?_
  · intro r hr x hx'
    rcases List.mem_append.mp hx' with he | hy
    · exact hx r hr x he
    · obtain ⟨S, hS, hSk, hSy⟩ := hY x hy
      exact le_of_dominated htrans hU hx hk hS hSk hSy hr
  · intro hne
    by_cases hE : E = []
    · obtain ⟨y, hy⟩ := List.exists_mem_of_ne_nil Y (by simpa [hE] using hne)
      obtain ⟨S, hS, hSk, -⟩ := hY y hy
      have := hS.length_le
      rw [hU.length_eq, hE, List.append_nil] at this
      omega
    · exact hl hE

/-- What the arms drop: every dropped row is ranked by `dle` no higher than the `k` rows one
arm kept. -/
theorem orderByLimit_arms_split {dle : α → α → Bool} {tables sels : List (List α)}
    (h : List.Forall₂ (OrderByLimit dle k) tables sels) :
    ∃ Y, tables.flatten.Perm (sels.flatten ++ Y) ∧
      ∀ y ∈ Y, ∃ S ∈ sels, S.length = k ∧ ∀ s ∈ S, dle s y := by
  induction h with
  | nil => exact ⟨[], by simp, by simp⟩
  | @cons T S ts ss hT _ ih =>
    obtain ⟨X, hp, -, hx, -, hl⟩ := hT.split
    obtain ⟨Y, hY, hy⟩ := ih
    refine ⟨X ++ Y, ?_, fun y hy' => ?_⟩
    · rw [List.flatten_cons, List.flatten_cons]
      refine (hp.append hY).trans ?_
      simpa only [List.append_assoc] using
        (List.perm_append_comm_assoc X ss.flatten Y).append_left S
    · rcases List.mem_append.mp hy' with hX | hY'
      · exact ⟨S, List.mem_cons_self _ _, hl (List.ne_nil_of_mem hX), fun s hs => hx s hs y hX⟩
      · obtain ⟨S', hS', h'⟩ := hy y hY'
        exact ⟨S', List.mem_cons_of_mem _ hS', h'⟩

/-- The merge lemma: keeping `k` rows of each table by `dle`, then ranking the kept rows that
pass `p` by `sle` and keeping `k`, gives a top `k` by `sle` of all rows that pass `p`, provided
`dle` never ranks a row above one that `sle` ranks higher and `p` is closed upwards under
`sle`. -/
theorem orderByLimit_merge {dle sle : α → α → Bool} {p : α → Bool}
    {tables sels : List (List α)} {R : List α}
    (htrans : ∀ a b c, sle a b → sle b c → sle a c) (htotal : ∀ a b, sle a b || sle b a)
    (hcompat : ∀ a ∈ tables.flatten, ∀ b ∈ tables.flatten, dle a b → sle a b)
    (hmono : ∀ a b, p b → sle a b → p a)
    (hsel : List.Forall₂ (OrderByLimit dle k) tables sels)
    (h : OrderByLimit sle k (sels.flatten.filter p) R) :
    OrderByLimit sle k (tables.flatten.filter p) R := by
  obtain ⟨Y, hp, hy⟩ := orderByLimit_arms_split hsel
  have hmem : ∀ a, a ∈ sels.flatten ++ Y → a ∈ tables.flatten := fun a => hp.mem_iff.mpr
  refine orderByLimit_of_dominated htrans htotal h
    (by rw [← List.filter_append]; exact hp.filter p : List.Perm _ (_ ++ Y.filter p))
    fun y hy' => ?_
  obtain ⟨hyY, hpy⟩ := List.mem_filter.mp hy'
  obtain ⟨S, hS, hSk, hSy⟩ := hy y hyY
  have hsle : ∀ s ∈ S, sle s y := fun s hs =>
    hcompat s (hmem s (List.mem_append_left _ (List.mem_flatten_of_mem hS hs))) y
      (hmem y (List.mem_append_right _ hyY)) (hSy s hs)
  refine ⟨S, ?_, hSk, hsle⟩
  have hSp : S.filter p = S := List.filter_eq_self.mpr fun s hs => hmono s y hpy (hsle s hs)
  exact hSp ▸ (List.sublist_flatten_of_mem hS).filter p

end OrderByLimit

/-- `ORDER BY embedding <=> query_embedding` -/
def byDistance (a b : Hit) : Bool := a.dist.le b.dist

/-- `ORDER BY combined.similarity DESC` -/
def bySimilarityDesc (a b : Hit) : Bool := b.similarity.le a.similarity

/-- `WHERE combined.similarity >= similarity_threshold` -/
def passes (t : Float8) (h : Hit) : Bool := t.le h.similarity

theorem byDistance_trans (a b c : Hit) : byDistance a b → byDistance b c → byDistance a c :=
  Float8.le_trans

theorem byDistance_total (a b : Hit) : byDistance a b || byDistance b a := Float8.le_total _ _

theorem bySimilarityDesc_trans (a b c : Hit) :
    bySimilarityDesc a b → bySimilarityDesc b c → bySimilarityDesc a c :=
  fun hab hbc => Float8.le_trans hbc hab

theorem bySimilarityDesc_total (a b : Hit) : bySimilarityDesc a b || bySimilarityDesc b a := by
  simpa [bySimilarityDesc, Bool.or_comm] using Float8.le_total a.similarity b.similarity

theorem passes_of_bySimilarityDesc {t : Float8} (a b : Hit) (hb : passes t b)
    (h : bySimilarityDesc a b) : passes t a :=
  Float8.le_trans hb h

/-- Away from NaN, the nearer row is the more similar one. -/
theorem bySimilarityDesc_of_byDistance {a b : Hit} (hb : b.dist ≠ .nan) (h : byDistance a b) :
    bySimilarityDesc a b :=
  Float8.sub_antitone 1 hb h

/-- What one arm's `ORDER BY embedding <=> query_embedding LIMIT k` may return: the nearest `k`
of some of the table's rows, in order of distance. An index scan reaches only the rows its
graph search visits; a sequential scan reads them all. -/
def ArmScan (k : Nat) (rows d : List Hit) : Prop :=
  ∃ seen, seen.Sublist rows ∧ OrderByLimit byDistance k seen d

theorem ArmScan.mem {k : Nat} {rows d : List Hit} (h : ArmScan k rows d) {x : Hit} (hx : x ∈ d) :
    x ∈ rows := by
  obtain ⟨seen, hs, ho⟩ := h
  exact hs.subset (ho.mem hx)

/-- One run of `memory_search_dim{N}(query_embedding, k, t)` on the rows its three arms read,
each arm answered by whichever plan PostgreSQL chooses. -/
def MemorySearch (daily longTerm conversation : List Hit) (k : Nat) (t : Float8)
    (result : List Hit) : Prop :=
  ∃ d l c, ArmScan k daily d ∧ ArmScan k longTerm l ∧ ArmScan k conversation c ∧
    OrderByLimit bySimilarityDesc k ((d ++ l ++ c).filter (passes t)) result

/-- A run in which every arm scans its whole table. -/
def ExactSearch (daily longTerm conversation : List Hit) (k : Nat) (t : Float8)
    (result : List Hit) : Prop :=
  ∃ d l c, OrderByLimit byDistance k daily d ∧ OrderByLimit byDistance k longTerm l ∧
    OrderByLimit byDistance k conversation c ∧
    OrderByLimit bySimilarityDesc k ((d ++ l ++ c).filter (passes t)) result

theorem ExactSearch.memorySearch {daily longTerm conversation result : List Hit} {k : Nat}
    {t : Float8} (h : ExactSearch daily longTerm conversation k t result) :
    MemorySearch daily longTerm conversation k t result := by
  obtain ⟨d, l, c, hd, hl, hc, hr⟩ := h
  exact ⟨d, l, c, ⟨_, .refl _, hd⟩, ⟨_, .refl _, hl⟩, ⟨_, .refl _, hc⟩, hr⟩

/-- What the search is for: `k` rows of greatest similarity, most similar first, among all rows
with an embedding and similarity at least `t`. -/
def GlobalTopK (daily longTerm conversation : List Hit) (k : Nat) (t : Float8)
    (result : List Hit) : Prop :=
  OrderByLimit bySimilarityDesc k ((daily ++ longTerm ++ conversation).filter (passes t)) result

/-- `memory_search_dim{N}` evaluated with a stable sort for each `ORDER BY`. -/
def memorySearch (daily longTerm conversation : List Hit) (k : Nat) (t : Float8) : List Hit :=
  orderByLimit bySimilarityDesc k
    ((orderByLimit byDistance k daily ++ orderByLimit byDistance k longTerm ++
      orderByLimit byDistance k conversation).filter (passes t))

theorem memorySearch_spec (daily longTerm conversation : List Hit) (k : Nat) (t : Float8) :
    ExactSearch daily longTerm conversation k t (memorySearch daily longTerm conversation k t) :=
  ⟨_, _, _, orderByLimit_spec byDistance_trans byDistance_total daily,
    orderByLimit_spec byDistance_trans byDistance_total longTerm,
    orderByLimit_spec byDistance_trans byDistance_total conversation,
    orderByLimit_spec bySimilarityDesc_trans bySimilarityDesc_total _⟩

/-- Whatever the plan and the distances, NaN included, an answer of the search has at most `k`
rows, most similar first, each a row of one of the tables whose similarity is at least `t`. -/
theorem MemorySearch.sound {daily longTerm conversation result : List Hit} {k : Nat}
    {t : Float8} (h : MemorySearch daily longTerm conversation k t result) :
    result.length ≤ k ∧ result.Pairwise (fun a b => bySimilarityDesc a b) ∧
      ∀ r ∈ result, r ∈ daily ++ longTerm ++ conversation ∧ passes t r := by
  obtain ⟨d, l, c, hd, hl, hc, hr⟩ := h
  obtain ⟨E, hp, hs, -, hk, -⟩ := hr.split
  refine ⟨hk, hs, fun r hr' => ?_⟩
  obtain ⟨hm, hpass⟩ := List.mem_filter.mp (hp.mem_iff.mpr (List.mem_append_left E hr'))
  refine ⟨?_, hpass⟩
  simp only [List.mem_append] at hm ⊢
  rcases hm with (hm | hm) | hm
  · exact .inl (.inl (hd.mem hm))
  · exact .inl (.inr (hl.mem hm))
  · exact .inr (hc.mem hm)

/-- When every arm scans its whole table and no distance is NaN, every answer of the search is a
global top `k`. -/
theorem memorySearch_global_top_k {daily longTerm conversation result : List Hit} {k : Nat}
    {t : Float8} (hnan : ∀ h ∈ daily ++ longTerm ++ conversation, h.dist ≠ .nan)
    (h : ExactSearch daily longTerm conversation k t result) :
    GlobalTopK daily longTerm conversation k t result := by
  obtain ⟨d, l, c, hd, hl, hc, hr⟩ := h
  have hm := orderByLimit_merge bySimilarityDesc_trans bySimilarityDesc_total
    (fun a _ b hb => bySimilarityDesc_of_byDistance (hnan b (by simpa using hb)))
    passes_of_bySimilarityDesc (.cons hd (.cons hl (.cons hc .nil)))
    (by simpa [List.append_assoc] using hr)
  simpa [GlobalTopK, List.append_assoc] using hm

theorem memorySearch_global_top_k_run :
    GlobalTopK
      [⟨"daily", 1, "a", some 0, .num (1/10)⟩, ⟨"daily", 2, "b", some 0, .num (1/2)⟩]
      [⟨"long_term", 3, "c", none, .num (1/5)⟩] [] 1 (.num (3/10))
      (memorySearch
        [⟨"daily", 1, "a", some 0, .num (1/10)⟩, ⟨"daily", 2, "b", some 0, .num (1/2)⟩]
        [⟨"long_term", 3, "c", none, .num (1/5)⟩] [] 1 (.num (3/10))) :=
  memorySearch_global_top_k (by decide) (memorySearch_spec _ _ _ _ _)

/-- Two ways the search misses a row of the global top `k`. Scanning whole tables, a daily row
whose embedding is the zero vector has distance NaN: its arm ranks it last and drops it, while
the threshold passes it and the global ranking puts it first. With the HNSW index, the daily
arm's index scan may return a farther row and not the nearest one. -/
theorem memorySearch_misses_global_top_k :
    (ExactSearch
        [⟨"daily", 1, "a", some 0, .num (1/10)⟩, ⟨"daily", 2, "b", some 0, .nan⟩] [] []
        1 (.num (3/10)) [⟨"daily", 1, "a", some 0, .num (1/10)⟩] ∧
      ¬ GlobalTopK
        [⟨"daily", 1, "a", some 0, .num (1/10)⟩, ⟨"daily", 2, "b", some 0, .nan⟩] [] []
        1 (.num (3/10)) [⟨"daily", 1, "a", some 0, .num (1/10)⟩]) ∧
    (MemorySearch
        [⟨"daily", 1, "a", some 0, .num (1/2)⟩, ⟨"daily", 2, "b", some 0, .num (1/10)⟩] [] []
        1 (.num (3/10)) [⟨"daily", 1, "a", some 0, .num (1/2)⟩] ∧
      ¬ GlobalTopK
        [⟨"daily", 1, "a", some 0, .num (1/2)⟩, ⟨"daily", 2, "b", some 0, .num (1/10)⟩] [] []
        1 (.num (3/10)) [⟨"daily", 1, "a", some 0, .num (1/2)⟩]) := by
  refine ⟨⟨⟨_, [], [], ⟨_, .refl _, by decide, rfl⟩, ⟨[], .refl _, .nil, rfl⟩,
    ⟨[], .refl _, .nil, rfl⟩, ⟨[⟨"daily", 1, "a", some 0, .num (1/10)⟩],
      by norm_num [passes, Hit.similarity, Float8.sub, Float8.le], List.pairwise_singleton _ _,
      rfl⟩⟩, fun h => ?_⟩,
    ⟨⟨_, [], [], ⟨[⟨"daily", 1, "a", some 0, .num (1/2)⟩], by simp, ⟨_, .refl _, by simp, rfl⟩⟩,
      ⟨[], .slnil, [], .refl _, .nil, rfl⟩, ⟨[], .slnil, [], .refl _, .nil, rfl⟩,
      ⟨[⟨"daily", 1, "a", some 0, .num (1/2)⟩],
        by norm_num [passes, Hit.similarity, Float8.sub, Float8.le], by simp, rfl⟩⟩,
      fun h => ?_⟩⟩
  · have hb : (⟨"daily", 2, "b", some 0, .nan⟩ : Hit) ∈
        ([⟨"daily", 1, "a", some 0, .num (1/10)⟩, ⟨"daily", 2, "b", some 0, .nan⟩] ++ [] ++
          [] : List Hit).filter (passes (.num (3/10))) := by
      norm_num [passes, Hit.similarity, Float8.sub, Float8.le]
    exact absurd (OrderByLimit.le_of_not_mem h (List.mem_singleton_self _) hb (by decide))
      (by decide)
  · have hb : (⟨"daily", 2, "b", some 0, .num (1/10)⟩ : Hit) ∈
        ([⟨"daily", 1, "a", some 0, .num (1/2)⟩, ⟨"daily", 2, "b", some 0, .num (1/10)⟩] ++ [] ++
          [] : List Hit).filter (passes (.num (3/10))) := by
      norm_num [passes, Hit.similarity, Float8.sub, Float8.le]
    refine absurd (OrderByLimit.le_of_not_mem h (List.mem_singleton_self _) hb (by decide)) ?_
    norm_num [bySimilarityDesc, Hit.similarity, Float8.sub, Float8.le]

/-- One dict of `semantic_search`'s result list. -/
structure SearchResult where
  source : String
  sourceId : Nat
  content : String
  entryDate : Option String
  similarity : Float8
  deriving DecidableEq, Repr

end Clawbot.Memory.Postgres

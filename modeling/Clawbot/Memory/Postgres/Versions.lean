import Clawbot.Memory.Postgres.Invariant
import Clawbot.Memory.Postgres.Sequential

/-!
# Long-term versions under interleaving

`write_long_term` reads `COALESCE(MAX(version), 0) + 1` and inserts a row of that version in
the same transaction, under `READ COMMITTED` and with no lock or unique constraint. Two calls
whose `SELECT`s both run before either commits therefore commit the same version. When the
calls of a store do not overlap, so that at most one of them holds a version it read and has
not committed, every commit adds a version one above all committed ones, whatever else
interleaves and wherever calls raise.
-/

namespace Clawbot.Memory.Postgres

open Clawbot.Python

/-- A call of store `s` that has read `MAX(version)` and not committed: it stands before its
`INSERT`, or holds a long-term row in its buffer. -/
def Thread.holdsVersion (s : Store) (th : Thread) : Bool :=
  (match th.pc with
    | .longTermInsert s' _ _ => decide (s' = s)
    | _ => false) || !(th.buffer.flatMap (Write.inserted s.longTermTable)).isEmpty

/-- The long-term writes of store `s` do not overlap: at every point of the run at most one
call holds a version. -/
def Serialized (s : Store) (es : List Event) : Prop :=
  ∀ k ≤ es.length, ((Sys.run (es.take k)).threads.filter (Thread.holdsVersion s)).length ≤ 1

instance (s : Store) (es : List Event) : Decidable (Serialized s es) :=
  inferInstanceAs (Decidable (∀ k ≤ es.length, _))

/-! ## `MAX(version)` -/

theorem maxVersion_eq_foldl (rows : List Row) :
    maxVersion rows = (rows.map Row.version).foldl max 0 := by
  rw [maxVersion, List.foldl_map]

theorem le_maxVersion {rows : List Row} {r : Row} (h : r ∈ rows) : r.version ≤ maxVersion rows := by
  induction rows using List.reverseRecOn with
  | nil => cases h
  | append_singleton rows x ih =>
    rw [maxVersion_append_single]
    rcases List.mem_append.mp h with h | h
    · exact (ih h).trans (le_max_left _ _)
    · rw [List.mem_singleton.mp h]; exact le_max_right _ _

theorem maxVersion_le {rows : List Row} {n : Nat} (h : ∀ r ∈ rows, r.version ≤ n) :
    maxVersion rows ≤ n := by
  induction rows using List.reverseRecOn with
  | nil => exact Nat.zero_le _
  | append_singleton rows x ih =>
    rw [maxVersion_append_single]
    exact max_le (ih fun r hr => h r (List.mem_append_left _ hr)) (h x (by simp))

/-- Versions increasing strictly leave one row of greatest version: the last. -/
theorem longTermCandidates_of_increasing (db : Db) (s : Store)
    (h : ((db.rows s.longTermTable).map Row.version).Pairwise (· < ·)) :
    longTermCandidates db s = [((db.rows s.longTermTable).getLast?.map Row.content).getD ""] := by
  unfold longTermCandidates
  rcases List.eq_nil_or_concat (db.rows s.longTermTable) with he | ⟨rows, r, he⟩
  · simp [he]
  · rw [List.concat_eq_append] at he
    rw [he, List.map_append, List.pairwise_append] at h
    have hlt : ∀ x ∈ rows, x.version < r.version := fun x hx =>
      h.2.2 _ (List.mem_map_of_mem _ hx) _ (by simp)
    have hmax : maxVersion (rows ++ [r]) = r.version := by
      rw [maxVersion_append_single]
      exact max_eq_right (maxVersion_le fun x hx => (hlt x hx).le)
    simp only [he, hmax]
    rw [List.filter_append, List.filter_eq_nil_iff.mpr fun x hx => by simpa using (hlt x hx).ne]
    simp

theorem maxVersion_congr {rows rows' : List Row}
    (h : rows'.map Row.version = rows.map Row.version) :
    maxVersion rows' = maxVersion rows := by
  rw [maxVersion_eq_foldl, maxVersion_eq_foldl, h]

/-! ## The calls holding a version -/

/-- What a call of store `s` keeps: a version it read is one above the committed maximum, as
is the version of each long-term row in its buffer, and it holds at most one such row. -/
structure Holds (s : Store) (db : Db) (th : Thread) : Prop where
  read : ∀ c v, th.pc = .longTermInsert s c v → v = maxVersion (db.rows s.longTermTable) + 1
  rows : ∀ r ∈ th.buffer.flatMap (Write.inserted s.longTermTable),
    r.version = maxVersion (db.rows s.longTermTable) + 1
  single : (th.buffer.flatMap (Write.inserted s.longTermTable)).length ≤ 1

namespace Holds

variable {s : Store} {db db' : Db}

theorem of_not_holdsVersion {th : Thread} (h : th.holdsVersion s = false) : Holds s db th := by
  simp only [Thread.holdsVersion, Bool.or_eq_false_iff, Bool.not_eq_false',
    List.isEmpty_iff] at h
  refine ⟨fun c v hp => ?_, fun r hr => by simp [h.2] at hr, by simp [h.2]⟩
  rw [hp] at h; simp at h

theorem congr {th : Thread} (h : Holds s db th)
    (hv : (db'.rows s.longTermTable).map Row.version = (db.rows s.longTermTable).map Row.version) :
    Holds s db' th := by
  obtain ⟨h₁, h₂, h₃⟩ := h
  exact ⟨by simpa only [maxVersion_congr hv] using h₁,
    by simpa only [maxVersion_congr hv] using h₂, h₃⟩

end Holds

theorem Executes.holds {s : Store} {db db' : Db} {buf buf' : List Write} {pc pc' : Pc}
    {i : Input} (hx : Executes db buf pc i db' buf' pc') (ht : ThreadInv db pc buf)
    (h : Holds s db ⟨pc, buf⟩) : Holds s db ⟨pc', buf'⟩ := by
  by_cases hi : pc.inserts s.longTermTable
  · obtain ⟨h₁, h₂, h₃⟩ := h
    cases hx <;> simp [Pc.inserts] at hi <;> subst hi
    · refine ⟨fun c' v hp => ?_, h₂, h₃⟩
      simp only [Pc.longTermInsert.injEq] at hp
      obtain ⟨-, -, rfl⟩ := hp
      rw [show buf = [] from ht]; rfl
    · rename_i c v
      rw [show buf = [] from ht]
      refine ⟨fun _ _ hp => (nomatch hp), fun r hr => ?_, by simp [Write.inserted]⟩
      simp [Write.inserted] at hr
      rw [hr]; exact h₁ c v rfl
  · obtain ⟨hb, hi'⟩ := hx.inserted s.longTermTable hi
    refine ⟨fun c v hp => absurd (by rw [show pc' = _ from hp]; simp [Pc.inserts]) hi', ?_, ?_⟩
    · simpa only [hb] using h.rows
    · simpa only [hb] using h.single

/-! ## Runs -/

theorem length_filter_set {α : Type} (p : α → Bool) :
    ∀ (l : List α) (i : Nat) (x y : α), l[i]? = some y →
      ((l.set i x).filter p).length + (if p y then 1 else 0) =
        (l.filter p).length + (if p x then 1 else 0)
  | [], _, _, _, h => by simp at h
  | a :: l, 0, x, y, h => by
    obtain rfl : a = y := by simpa using h
    simp only [List.set_cons_zero, List.filter_cons]
    cases p x <;> cases p a <;> simp [Nat.add_comm]
  | a :: l, i + 1, x, y, h => by
    have ih := length_filter_set p l i x y (by simpa using h)
    simp only [List.set_cons_succ, List.filter_cons]
    cases p a <;> simp <;> omega

/-- A commit appends the versions of the long-term rows its buffer inserts. -/
theorem Db.applyAll_versions (db : Db) (ws : List Write) (t : Table) :
    ((db.applyAll ws).rows t).map Row.version =
      (db.rows t ++ ws.flatMap (Write.inserted t)).map Row.version :=
  map_eq_of_erase (db.applyAll_rows_erase ws t) Row.version fun _ => rfl

/-- The versions of store `s` increase in commit order, and every call of `s` holds its
version one above them. -/
structure VersionInv (s : Store) (sys : Sys) : Prop where
  increasing : ((sys.db.rows s.longTermTable).map Row.version).Pairwise (· < ·)
  threads : ∀ th ∈ sys.threads, Holds s sys.db th

namespace VersionInv

variable {s : Store} {sys sys' : Sys} {e : Event}

theorem init : VersionInv s Sys.init := ⟨List.Pairwise.nil, fun _ h => nomatch h⟩

/-- A commit keeps the versions increasing: it adds at most one, above all others. -/
theorem increasing_commit (h : VersionInv s sys) {i : Nat} {buf : List Write}
    (hi : sys.threads[i]? = some ⟨.commit, buf⟩) :
    (((sys.db.applyAll buf).rows s.longTermTable).map Row.version).Pairwise (· < ·) := by
  obtain ⟨-, hr, hs⟩ := h.threads _ (List.getElem?_mem hi)
  rw [Db.applyAll_versions, List.map_append, List.pairwise_append]
  refine ⟨h.increasing, ?_, fun a ha b hb => ?_⟩
  · match hl : buf.flatMap (Write.inserted s.longTermTable), hs with
    | [], _ | [_], _ => simp
  · obtain ⟨r, hr', rfl⟩ := List.mem_map.mp hb
    obtain ⟨r₀, hr₀, rfl⟩ := List.mem_map.mp ha
    rw [hr r hr']
    exact Nat.lt_succ_of_le (le_maxVersion hr₀)

theorem transition (h : VersionInv s sys) (hi : Inv sys) (ht : Transition sys e sys')
    (hser : (sys.threads.filter (Thread.holdsVersion s)).length ≤ 1) : VersionInv s sys' := by
  cases ht with
  | stay => exact h
  | ensureSchema => exact ⟨h.increasing, fun th hth => (h.threads th hth).congr rfl⟩
  | start c =>
    refine ⟨h.increasing, fun th hth => ?_⟩
    rcases List.mem_append.mp hth with hth | hth
    · exact h.threads th hth
    · rw [List.mem_singleton.mp hth]
      exact Holds.of_not_holdsVersion (by cases c <;> rfl)
  | @exec i th input db' buf' pc' hi' hx =>
    have hv : (db'.rows s.longTermTable).map Row.version =
        (sys.db.rows s.longTermTable).map Row.version := by rw [hx.frame.rows]
    refine ⟨hv ▸ h.increasing, fun th hth => ?_⟩
    rcases List.mem_or_eq_of_mem_set hth with hth | rfl
    · exact (h.threads th hth).congr hv
    · exact (hx.holds (hi.threads _ (List.getElem?_mem hi'))
        (h.threads _ (List.getElem?_mem hi'))).congr hv
  | @commit i buf hi' =>
    refine ⟨h.increasing_commit hi', fun th hth => ?_⟩
    by_cases hh : Thread.holdsVersion s ⟨.commit, buf⟩
    · have hc := length_filter_set (Thread.holdsVersion s) _ i ⟨.done, []⟩ _ hi'
      simp only [hh, if_true] at hc
      have hnone : (sys.threads.set i ⟨.done, []⟩).filter (Thread.holdsVersion s) = [] :=
        List.eq_nil_of_length_eq_zero (by simp [Thread.holdsVersion] at hc; omega)
      exact Holds.of_not_holdsVersion (by simpa using List.filter_eq_nil_iff.mp hnone th hth)
    · have hb : buf.flatMap (Write.inserted s.longTermTable) = [] := by
        simpa [Thread.holdsVersion] using hh
      rcases List.mem_or_eq_of_mem_set hth with hth | rfl
      · exact (h.threads th hth).congr (by rw [Db.applyAll_versions, hb, List.append_nil])
      · exact Holds.of_not_holdsVersion rfl
  | raise hi' =>
    refine ⟨h.increasing, fun th hth => ?_⟩
    rcases List.mem_or_eq_of_mem_set hth with hth | rfl
    · exact h.threads th hth
    · exact Holds.of_not_holdsVersion rfl

end VersionInv

theorem Serialized.of_append_single {s : Store} {es : List Event} {e : Event}
    (h : Serialized s (es ++ [e])) :
    Serialized s es ∧ ((Sys.run es).threads.filter (Thread.holdsVersion s)).length ≤ 1 := by
  have hk : ∀ k ≤ es.length, (es ++ [e]).take k = es.take k := fun k hk =>
    List.take_append_of_le_length hk
  refine ⟨fun k hk' => ?_, ?_⟩
  · simpa only [hk k hk'] using h k (by simp; omega)
  · simpa only [hk _ le_rfl, List.take_length] using h es.length (by simp)

theorem versionInv_run (s : Store) (es : List Event) (h : Serialized s es) :
    VersionInv s (Sys.run es) := by
  induction es using List.reverseRecOn with
  | nil => exact VersionInv.init
  | append_singleton es e ih =>
    obtain ⟨h₁, h₂⟩ := h.of_append_single
    rw [Sys.run_append_single]
    exact (ih h₁).transition (inv_run es) (Sys.transition_step _ e) h₂

/-- When the long-term writes of a store do not overlap, whatever else interleaves with them and
wherever calls raise, the committed versions increase strictly in commit order, and
`read_long_term` returns the content of the last committed write. -/
theorem serialized_writes_increase_versions (s : Store) (es : List Event) (h : Serialized s es) :
    (((Sys.run es).db.rows s.longTermTable).map Row.version).Pairwise (· < ·) ∧
    longTermCandidates (Sys.run es).db s =
      [(((Sys.run es).db.rows s.longTermTable).getLast?.map Row.content).getD ""] :=
  ⟨(versionInv_run s es h).increasing,
    longTermCandidates_of_increasing _ s (versionInv_run s es h).increasing⟩

/-- Two `write_long_term` calls one after the other, with an append between them. -/
def serializedWrites : List Event :=
  [.ensureSchema ⟨3⟩, .start (.writeLongTerm ⟨3⟩ "a"), .exec 0 .next, .exec 0 .next,
    .exec 0 .next, .commit 0, .start (.appendToday ⟨3⟩ 0 "n"), .start (.writeLongTerm ⟨3⟩ "b"),
    .exec 2 .next, .exec 1 .next, .exec 2 .next, .exec 2 .next, .commit 2, .exec 1 .next,
    .commit 1]

theorem serialized_writes_increase_versions_witness :
    Serialized ⟨3⟩ serializedWrites ∧
    (((Sys.run serializedWrites).db.rows (Store.longTermTable ⟨3⟩)).map Row.version).Pairwise
      (· < ·) ∧
    longTermCandidates (Sys.run serializedWrites).db ⟨3⟩ =
      [(((Sys.run serializedWrites).db.rows (Store.longTermTable ⟨3⟩)).getLast?.map
        Row.content).getD ""] :=
  ⟨by decide, serialized_writes_increase_versions ⟨3⟩ serializedWrites (by decide)⟩

end Clawbot.Memory.Postgres

import Mathlib.Data.List.Basic

/-!
# Python `dict`

A `dict` keeps its keys in insertion order, each once. `d[k] = v` on a present key replaces the
value in place and on a new key appends; `d.pop(k, None)` returns the value and removes the
key; `d.clear()` empties it.
-/

namespace Clawbot.Python

/-- A `dict`: its items in insertion order, the keys pairwise distinct. -/
structure Dict (α β : Type) where
  items : List (α × β)
  nodup : (items.map Prod.fst).Nodup

namespace Dict

variable {α β : Type} [DecidableEq α]

/-- `{}` -/
def empty : Dict α β := ⟨[], List.nodup_nil⟩

/-- `d.get(k)` -/
def get? (d : Dict α β) (k : α) : Option β := (d.items.find? (·.1 = k)).map Prod.snd

/-- The items after `d[k] = v`. -/
def setItems : List (α × β) → α → β → List (α × β)
  | [], k, v => [(k, v)]
  | (k', v') :: d, k, v => if k' = k then (k, v) :: d else (k', v') :: setItems d k v

theorem mem_keys_setItems (a k : α) (v : β) :
    ∀ d : List (α × β), a ∈ (setItems d k v).map Prod.fst ↔ a ∈ d.map Prod.fst ∨ a = k
  | [] => by simp [setItems]
  | (k', v') :: d => by
    unfold setItems
    split
    · subst_vars; simp [or_comm]
    · simp [mem_keys_setItems a k v d, or_assoc]

theorem nodup_setItems (k : α) (v : β) :
    ∀ d : List (α × β), (d.map Prod.fst).Nodup → ((setItems d k v).map Prod.fst).Nodup
  | [], _ => by simp [setItems]
  | (k', v') :: d, h => by
    rw [List.map_cons, List.nodup_cons] at h
    unfold setItems
    split
    · subst_vars; simpa using h
    · rename_i hk
      simp only [List.map_cons, List.nodup_cons, mem_keys_setItems, not_or]
      exact ⟨⟨h.1, hk⟩, nodup_setItems k v d h.2⟩

/-- `d[k] = v` -/
def setItem (d : Dict α β) (k : α) (v : β) : Dict α β :=
  ⟨setItems d.items k v, nodup_setItems k v d.items d.nodup⟩

/-- `d.pop(k, None)`: the value, and the dict without `k`. -/
def pop (d : Dict α β) (k : α) : Option β × Dict α β :=
  (d.get? k, ⟨d.items.filter (·.1 ≠ k),
    d.nodup.sublist ((List.filter_sublist _).map Prod.fst)⟩)

/-- `d.clear()` -/
def clear (_ : Dict α β) : Dict α β := empty

theorem mem_setItem {d : Dict α β} {k a : α} {v b : β} (h : (a, b) ∈ (d.setItem k v).items) :
    (a, b) ∈ d.items ∨ (a = k ∧ b = v) := by
  obtain ⟨items, _⟩ := d
  induction items with
  | nil => simpa [setItem, setItems] using h
  | cons p items ih =>
    simp only [setItem, setItems] at h ih
    split at h
    · rcases List.mem_cons.mp h with h | h
      · exact .inr (Prod.mk.inj h)
      · exact .inl (List.mem_cons_of_mem _ h)
    · rcases List.mem_cons.mp h with h | h
      · exact .inl (h ▸ List.mem_cons_self _ _)
      · rcases ih (List.nodup_cons.mp ‹_›).2 h with h | h
        · exact .inl (List.mem_cons_of_mem _ h)
        · exact .inr h

theorem mem_of_mem_pop {d : Dict α β} {k : α} {p : α × β} (h : p ∈ (d.pop k).2.items) :
    p ∈ d.items :=
  (List.mem_filter.mp h).1

theorem mem_of_get? {d : Dict α β} {k : α} {v : β} (h : d.get? k = some v) : (k, v) ∈ d.items := by
  obtain ⟨p, hp, rfl⟩ := Option.map_eq_some'.mp h
  have hk : p.1 = k := by simpa using List.find?_some hp
  exact hk ▸ List.mem_of_find?_eq_some hp

end Dict

end Clawbot.Python

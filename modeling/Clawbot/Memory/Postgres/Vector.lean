import Clawbot.Python.Builtins
import Mathlib.Algebra.Group.Nat.Basic

/-!
# pgvector's `vector` input

`_poll_once` sends an embedding as the text `"[" + ",".join(str(v) for v in embedding) + "]"`
cast with `::vector`. pgvector's `vector_in` reads each element with `strtof`, which rounds the
decimal to the nearest `real` (IEEE single precision), ties to even, and refuses NaN, the
infinities and a decimal that rounds beyond the largest `real`; a vector has 1 to 16000 elements.
The column stores the rounded elements.

A Python `float` is what `str()` prints for it: `nan`, `inf`, `-inf` or a decimal `±m·10^e`.
A `real` is a sign and a magnitude counted in units of the smallest subnormal, `2^-149`, so
that every finite `real` is a whole number of units and a decimal is a fraction of two naturals.
-/

namespace Clawbot.Memory.Postgres

/-- A Python `float` by the text `str()` gives it. -/
inductive PyFloat
  | nan
  | inf (neg : Bool)
  | dec (neg : Bool) (m : Nat) (e : Int)
  deriving DecidableEq, Repr

/-- A literal `0.1` is the decimal `1·10^-1`. -/
instance : OfScientific PyFloat where
  ofScientific m s e := .dec false m (if s then -(e : Int) else e)

/-- `n / d` rounded to the nearest natural, ties to even. -/
def rne (n d : Nat) : Nat :=
  if 2 * (n % d) < d ∨ (2 * (n % d) = d ∧ n / d % 2 = 0) then n / d else n / d + 1

theorem rne_le (n d : Nat) : rne n d ≤ n / d + 1 := by
  unfold rne; split <;> omega

/-- The number of binary digits of `n`. -/
def binaryDigits (n : Nat) : Nat := go n n 0
where
  go : (fuel n acc : Nat) → Nat
  | 0, _, acc => acc
  | fuel + 1, n, acc => if n = 0 then acc else go fuel (n / 2) (acc + 1)

theorem binaryDigits.succ_mul_le_go :
    ∀ {fuel n : Nat} (acc : Nat), n ≤ fuel → (n + 1) * 2 ^ acc ≤ 2 ^ go fuel n acc
  | 0, n, acc, h => by simp [go, show n = 0 by omega]
  | fuel + 1, n, acc, h => by
    unfold go
    split
    · simp [*]
    · calc (n + 1) * 2 ^ acc ≤ (n / 2 + 1) * 2 ^ (acc + 1) := by
            rw [Nat.pow_succ', ← Nat.mul_assoc]
            exact Nat.mul_le_mul_right (2 ^ acc) (by omega)
        _ ≤ 2 ^ go fuel (n / 2) (acc + 1) := succ_mul_le_go (acc + 1) (by omega)

theorem lt_two_pow_binaryDigits (n : Nat) : n < 2 ^ binaryDigits n := by
  have h := binaryDigits.succ_mul_le_go 0 (le_refl n)
  rw [Nat.pow_zero, Nat.mul_one] at h
  exact h

/-- The magnitude nearest to `n / d`, ties to even, among those with a 24-bit significand:
steps of one unit below `2^24` units (the subnormals and the lowest binade), of `2^s` units for
a value of `24 + s` binary digits. The exponent is unbounded; overflow is checked apart. -/
def roundMag (n d : Nat) : Nat :=
  let s := binaryDigits (n / d) - 24
  rne n (d * 2 ^ s) * 2 ^ s

theorem roundMag_significand (n d : Nat) : ∃ q s, q < 2 ^ 24 ∧ roundMag n d = q * 2 ^ s := by
  let s := binaryDigits (n / d) - 24
  have hN : n / d < 2 ^ s * 2 ^ 24 :=
    calc n / d < 2 ^ binaryDigits (n / d) := lt_two_pow_binaryDigits _
      _ ≤ 2 ^ (s + 24) := Nat.pow_le_pow_right (by decide) (by omega)
      _ = 2 ^ s * 2 ^ 24 := Nat.pow_add _ _ _
  have hq : n / (d * 2 ^ s) < 2 ^ 24 := by
    rw [← Nat.div_div_eq_div_mul, Nat.div_lt_iff_lt_mul (Nat.two_pow_pos s), Nat.mul_comm]
    exact hN
  have hr := rne_le n (d * 2 ^ s)
  by_cases h : rne n (d * 2 ^ s) < 2 ^ 24
  · exact ⟨_, s, h, rfl⟩
  · refine ⟨1, 24 + s, by decide, ?_⟩
    show rne n (d * 2 ^ s) * 2 ^ s = 1 * 2 ^ (24 + s)
    rw [show rne n (d * 2 ^ s) = 2 ^ 24 by omega, Nat.one_mul, Nat.pow_add]

/-- The largest finite `real`, `(2^24 - 1)·2^104`, in units of `2^-149`. -/
def maxMag : Nat := (2 ^ 24 - 1) * 2 ^ 253

/-- A finite `real`, as a `vector` element holds it. -/
structure Float4 where
  neg : Bool
  mag : Nat
  significand : ∃ q s, q < 2 ^ 24 ∧ mag = q * 2 ^ s
  le_maxMag : mag ≤ maxMag

/-- `strtof` on `str(x)` and pgvector's checks on the result: NaN and the infinities are
refused, and so is a decimal that rounds beyond the largest `real` (`ERANGE`). A decimal
`m·10^e` is `m·10^e·2^149` units. -/
def PyFloat.toFloat4 : PyFloat → Option Float4
  | .nan | .inf _ => none
  | .dec neg m e =>
    let n := m * 10 ^ e.toNat * 2 ^ 149
    let d := 10 ^ (-e).toNat
    if h : roundMag n d ≤ maxMag then some ⟨neg, roundMag n d, roundMag_significand n d, h⟩
    else none

/-- `vector_in`: 1 to 16000 elements, each through `PyFloat.toFloat4`. -/
def vectorIn (v : List PyFloat) : Option (List Float4) :=
  if v = [] ∨ 16000 < v.length then none else v.mapM PyFloat.toFloat4

/-- A vector `vector_in` accepts. -/
def Accepted (v : List PyFloat) : Prop :=
  v ≠ [] ∧ v.length ≤ 16000 ∧ ∀ x ∈ v, x.toFloat4.isSome

instance (v : List PyFloat) : Decidable (Accepted v) :=
  inferInstanceAs (Decidable (_ ∧ _))

/-- The elements an accepted vector is stored as. -/
def stored (v : List PyFloat) : List Float4 := v.filterMap PyFloat.toFloat4

theorem mapM_toFloat4_of_isSome :
    ∀ {v : List PyFloat}, (∀ x ∈ v, x.toFloat4.isSome) → v.mapM PyFloat.toFloat4 = some (stored v)
  | [], _ => rfl
  | x :: v, h => by
    obtain ⟨y, hy⟩ := Option.isSome_iff_exists.mp (h x (List.mem_cons_self _ _))
    have ih := mapM_toFloat4_of_isSome fun x' hx' => h x' (List.mem_cons_of_mem _ hx')
    rw [List.mapM_cons, hy, ih]
    simp [stored, hy]

theorem mapM_toFloat4_of_not_isSome :
    ∀ {v : List PyFloat}, (∃ x ∈ v, x.toFloat4 = none) → v.mapM PyFloat.toFloat4 = none
  | x :: v, ⟨x', hx', hn⟩ => by
    rcases List.mem_cons.mp hx' with rfl | hx'
    · rw [List.mapM_cons, hn]; rfl
    · rw [List.mapM_cons, mapM_toFloat4_of_not_isSome ⟨x', hx', hn⟩]
      cases x.toFloat4 <;> rfl

/-- `vector_in` accepts exactly the vectors `Accepted` names, and stores their elements rounded. -/
theorem vectorIn_eq (v : List PyFloat) :
    vectorIn v = if Accepted v then some (stored v) else none := by
  unfold vectorIn Accepted
  by_cases hv : v = [] ∨ 16000 < v.length
  · rw [if_pos hv, if_neg fun ⟨h0, hl, _⟩ => hv.elim h0 (by omega)]
  · rw [if_neg hv]
    by_cases hx : ∀ x ∈ v, x.toFloat4.isSome
    · rw [if_pos ⟨fun e => hv (.inl e), Nat.le_of_not_lt fun h => hv (.inr h), hx⟩,
        mapM_toFloat4_of_isSome hx]
    · rw [if_neg fun h => hx h.2.2]
      push_neg at hx
      exact mapM_toFloat4_of_not_isSome (by simpa using hx)

theorem length_stored {v : List PyFloat} (h : ∀ x ∈ v, x.toFloat4.isSome) :
    (stored v).length = v.length := by
  induction v with
  | nil => rfl
  | cons x v ih =>
    obtain ⟨y, hy⟩ := Option.isSome_iff_exists.mp (h x (List.mem_cons_self _ _))
    simp [stored, List.filterMap_cons, hy, ← ih fun x' hx' => h x' (List.mem_cons_of_mem _ hx')]

end Clawbot.Memory.Postgres

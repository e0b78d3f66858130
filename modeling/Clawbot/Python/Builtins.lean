import Mathlib.Data.List.Basic

/-!
# Python builtins the memory backends use: `str.join`, text-mode files, dates

`join sep parts` is `sep.join(parts)`. `readText` is the newline half of a text-mode file's
round trip on POSIX: `Path.write_text` writes `"\n"` unchanged, and `Path.read_text` reads
back with universal newlines, so `"\r\n"` and a lone `"\r"` both come back as `"\n"`. The
bytes in between, and the reads that raise on them, are in `Clawbot.Python.Utf8`.

A `Date` is a `datetime.date` by its proleptic Gregorian ordinal (`date.toordinal()`), so
`today - timedelta(days=i)` is `today - i`. Date arithmetic is total here; `Date.SubOk` says
when Python's is defined: `timedelta(days=n)` raises `OverflowError` for `|n| > 999999999`, and
so does a subtraction whose result falls outside `date.min` (ordinal 1) and `date.max`
(ordinal 3652059, 9999-12-31).
-/

namespace Clawbot.Python

/-- A `datetime.date`, by its ordinal. -/
abbrev Date := Int

/-- `today - timedelta(days=days)` does not raise `OverflowError`. -/
def Date.SubOk (today : Date) (days : Int) : Prop :=
  days.natAbs ≤ 999999999 ∧ 1 ≤ today - days ∧ today - days ≤ 3652059

instance (today : Date) (days : Int) : Decidable (Date.SubOk today days) :=
  inferInstanceAs (Decidable (_ ∧ _))

/-- `sep.join(parts)`. -/
def join (sep : String) : List String → String
  | [] => ""
  | [a] => a
  | a :: as => a ++ sep ++ join sep as

@[simp] theorem join_nil (sep : String) : join sep [] = "" := rfl
@[simp] theorem join_single (sep a : String) : join sep [a] = a := rfl

theorem join_cons_cons (sep a b : String) (rest : List String) :
    join sep (a :: b :: rest) = a ++ sep ++ join sep (b :: rest) := rfl

theorem join_append_single (sep x : String) :
    ∀ xs : List String, xs ≠ [] → join sep (xs ++ [x]) = join sep xs ++ sep ++ x
  | [], h => absurd rfl h
  | [a], _ => rfl
  | a :: b :: rest, _ => by
    show join sep (a :: b :: (rest ++ [x])) = _
    rw [join_cons_cons, ← List.cons_append,
      join_append_single sep x (b :: rest) (List.cons_ne_nil _ _), join_cons_cons]
    simp only [String.append_assoc]

/-- `sep.join(parts) if parts else ""` is `sep.join(parts)`. -/
@[simp] theorem if_nil_join (sep : String) (parts : List String) :
    (if parts = [] then "" else join sep parts) = join sep parts := by
  split <;> simp_all

/-- Universal newlines on characters: `"\r\n"` and a lone `"\r"` both become `"\n"`. -/
def universalNewlines : List Char → List Char
  | '\r' :: '\n' :: cs => '\n' :: universalNewlines cs
  | '\r' :: cs => '\n' :: universalNewlines cs
  | c :: cs => c :: universalNewlines cs
  | [] => []

/-- `Path.read_text` of a file holding `s`. -/
def readText (s : String) : String := ⟨universalNewlines s.data⟩

@[simp] theorem universalNewlines_cr_lf (cs : List Char) :
    universalNewlines ('\r' :: '\n' :: cs) = '\n' :: universalNewlines cs := rfl

theorem universalNewlines_cons (c : Char) (cs : List Char) (h : c ≠ '\r') :
    universalNewlines (c :: cs) = c :: universalNewlines cs :=
  universalNewlines.eq_3 c cs (fun _ hc => absurd hc h) h

theorem universalNewlines_cr (d : Char) (cs : List Char) (h : d ≠ '\n') :
    universalNewlines ('\r' :: d :: cs) = '\n' :: universalNewlines (d :: cs) :=
  universalNewlines.eq_2 _ (by simpa using h)

theorem cr_not_mem_universalNewlines (a : List Char) : '\r' ∉ universalNewlines a := by
  induction a using universalNewlines.induct with
  | case3 c cs _ hc ih => simpa [universalNewlines_cons _ _ hc, Ne.symm hc] using ih
  | _ => simp_all [universalNewlines]

theorem universalNewlines_of_cr_not_mem (a : List Char) (h : '\r' ∉ a) :
    universalNewlines a = a := by
  induction a using universalNewlines.induct <;> simp_all [universalNewlines]

/-- The translation works character by character, except that a `"\r"` ending the first
part may pair with a `"\n"` starting the second. -/
theorem universalNewlines_append (a b : List Char) (h : a.getLast? ≠ some '\r') :
    universalNewlines (a ++ b) = universalNewlines a ++ universalNewlines b := by
  induction a with
  | nil => rfl
  | cons c rest ih =>
    cases rest with
    | nil =>
      have hc : c ≠ '\r' := by simpa using h
      simp [universalNewlines_cons _ _ hc, universalNewlines]
    | cons d rest =>
      have ih := ih (by simpa [List.getLast?_cons_cons] using h)
      by_cases hc : c = '\r'
      · subst hc
        by_cases hd : d = '\n'
        · subst hd
          rw [List.cons_append, universalNewlines_cons _ _ (by decide),
            universalNewlines_cons _ _ (by decide), List.cons_append, List.cons.injEq] at ih
          simp only [List.cons_append, universalNewlines_cr_lf, ih.2]
        · rw [List.cons_append, List.cons_append, universalNewlines_cr _ _ hd,
            universalNewlines_cr _ _ hd, ← List.cons_append, ih, List.cons_append]
      · rw [List.cons_append, universalNewlines_cons _ _ hc, universalNewlines_cons _ _ hc, ih,
          List.cons_append]

theorem cr_not_mem_readText (s : String) : '\r' ∉ (readText s).data :=
  cr_not_mem_universalNewlines s.data

theorem readText_of_cr_not_mem (s : String) (h : '\r' ∉ s.data) : readText s = s :=
  String.ext (universalNewlines_of_cr_not_mem s.data h)

@[simp] theorem readText_readText (s : String) : readText (readText s) = readText s :=
  readText_of_cr_not_mem _ (cr_not_mem_readText s)

theorem readText_append (a b : String) (h : a.data.getLast? ≠ some '\r') :
    readText (a ++ b) = readText a ++ readText b :=
  String.ext (universalNewlines_append a.data b.data h)

theorem getLast?_ne_cr_of_not_mem {a : List Char} (h : '\r' ∉ a) : a.getLast? ≠ some '\r' :=
  fun hl => h (List.mem_of_getLast?_eq_some hl)

/-- Text already read back, followed by a line break, is kept as it is by a second read. -/
theorem readText_read_newline (a b : String) :
    readText (readText a ++ "\n" ++ b) = readText a ++ "\n" ++ readText b := by
  have hn : (readText a ++ "\n").data.getLast? ≠ some '\r' := by simp
  rw [readText_append _ _ hn,
    readText_append _ _ (getLast?_ne_cr_of_not_mem (cr_not_mem_readText a)), readText_readText]
  rfl

end Clawbot.Python

import Clawbot.Python.Builtins

/-!
# UTF-8 files: `str.encode`, `bytes.decode` and `Path.read_text`

`encode` is the `"utf-8"` encoding of a string's characters, one to four bytes each by the
size of the code point. `decode` is CPython's strict decoder: it raises `UnicodeDecodeError`
(`none`) on a byte that starts no character, on a missing continuation byte, on an overlong
form, a surrogate or a code point above `U+10FFFF`, and on a character the end of the data
cuts off. `readBytes` is `Path.read_text(encoding="utf-8")` of a file holding some bytes: the
decode, then universal newlines.

A write that stops part-way leaves the first `k` bytes of an encoding. `decode_take_encode`
says what they read back as: the characters that fit whole, or a `UnicodeDecodeError` when
the cut falls inside a character (`utf8Cut`).
-/

namespace Clawbot.Python

/-- The byte of value `n`, for `n < 256`. -/
def byte (n : Nat) : UInt8 := UInt8.ofNat n

/-- The UTF-8 bytes of one character. -/
def encodeChar (c : Char) : List UInt8 :=
  let n := c.toNat
  if n < 0x80 then [byte n]
  else if n < 0x800 then [byte (0xC0 + n / 0x40), byte (0x80 + n % 0x40)]
  else if n < 0x10000 then
    [byte (0xE0 + n / 0x1000), byte (0x80 + n / 0x40 % 0x40), byte (0x80 + n % 0x40)]
  else
    [byte (0xF0 + n / 0x40000), byte (0x80 + n / 0x1000 % 0x40), byte (0x80 + n / 0x40 % 0x40),
      byte (0x80 + n % 0x40)]

/-- `s.encode("utf-8")` -/
def encode (cs : List Char) : List UInt8 := cs.flatMap encodeChar

/-- A continuation byte, `10xxxxxx`. -/
def cont (b : UInt8) : Bool := 0x80 ≤ b.toNat && b.toNat < 0xC0

/-- A lead byte: the continuation bytes after it, the value bits it holds, and the least code
point a sequence of its length may encode (below it the form is overlong). -/
def lead (n : Nat) : Option (Nat × Nat × Nat) :=
  if n < 0x80 then some (0, n, 0)
  else if n < 0xC0 then none
  else if n < 0xE0 then some (1, n - 0xC0, 0x80)
  else if n < 0xF0 then some (2, n - 0xE0, 0x800)
  else if n < 0xF8 then some (3, n - 0xF0, 0x10000)
  else none

/-- A complete sequence's value is a character unless it is overlong, a surrogate or above
`U+10FFFF`. -/
def finish (value least : Nat) : Option Char :=
  if least ≤ value ∧ (value < 0xD800 ∨ 0xDFFF < value ∧ value < 0x110000) then
    some (Char.ofNat value)
  else none

/-- Where the decoder stands: between characters, or inside one with `rest` continuation bytes
owed after the next, the value so far and the least value its length allows. -/
inductive Decoder
  | start
  | inside (rest value least : Nat)

def decodeFrom : Decoder → List UInt8 → Option (List Char)
  | .start, [] => some []
  | .inside .., [] => none
  | .start, b :: bs =>
    match lead b.toNat with
    | some (0, value, _) => (Char.ofNat value :: ·) <$> decodeFrom .start bs
    | some (rest + 1, value, least) => decodeFrom (.inside rest value least) bs
    | none => none
  | .inside rest value least, b :: bs =>
    if cont b then
      match rest with
      | 0 =>
        match finish (value * 0x40 + (b.toNat - 0x80)) least with
        | some c => (c :: ·) <$> decodeFrom .start bs
        | none => none
      | rest + 1 => decodeFrom (.inside rest (value * 0x40 + (b.toNat - 0x80)) least) bs
    else none

/-- `bytes.decode("utf-8")`, `none` where CPython raises `UnicodeDecodeError`. -/
def decode (bs : List UInt8) : Option (List Char) := decodeFrom .start bs

instance decEqExcept {ε α : Type} [DecidableEq ε] [DecidableEq α] : DecidableEq (Except ε α)
  | .ok a, .ok b => if h : a = b then isTrue (h ▸ rfl) else isFalse fun e => h (by cases e; rfl)
  | .error a, .error b =>
    if h : a = b then isTrue (h ▸ rfl) else isFalse fun e => h (by cases e; rfl)
  | .ok _, .error _ => isFalse fun e => by cases e
  | .error _, .ok _ => isFalse fun e => by cases e

/-- What a read returns for what the decoder gave: the characters after universal newlines, or
the decoder's `UnicodeDecodeError`. -/
def readChars : Option (List Char) → Except String String
  | some cs => .ok (readText ⟨cs⟩)
  | none => .error "UnicodeDecodeError"

/-- `Path.read_text(encoding="utf-8")` of a file holding `bs`. -/
def readBytes (bs : List UInt8) : Except String String := readChars (decode bs)

/-- The characters of `cs` the first `k` bytes of its encoding hold, `none` when the cut falls
inside a character. -/
def utf8Cut : List Char → Nat → Option (List Char)
  | [], _ => some []
  | c :: cs, k =>
    if k = 0 then some []
    else if k < (encodeChar c).length then none
    else (c :: ·) <$> utf8Cut cs (k - (encodeChar c).length)

/-! ## Decoding what was encoded -/

theorem toNat_byte {n : Nat} (h : n < 256) : (byte n).toNat = n := UInt8.toNat_ofNat_of_lt h

theorem encode_cons (c : Char) (cs : List Char) : encode (c :: cs) = encodeChar c ++ encode cs :=
  List.flatMap_cons _ _ _

theorem decodeFrom_lead {b : UInt8} {rest value least : Nat}
    (h : lead b.toNat = some (rest + 1, value, least)) (bs : List UInt8) :
    decodeFrom .start (b :: bs) = decodeFrom (.inside rest value least) bs := by
  simp only [decodeFrom, h]

theorem decodeFrom_inside_more {b : UInt8} (hb : cont b) (rest value least : Nat)
    (bs : List UInt8) :
    decodeFrom (.inside (rest + 1) value least) (b :: bs) =
      decodeFrom (.inside rest (value * 0x40 + (b.toNat - 0x80)) least) bs := by
  simp only [decodeFrom, hb, if_true]

theorem decodeFrom_inside_last {b : UInt8} (hb : cont b) {value least : Nat} {c : Char}
    (hf : finish (value * 0x40 + (b.toNat - 0x80)) least = some c) (bs : List UInt8) :
    decodeFrom (.inside 0 value least) (b :: bs) = (c :: ·) <$> decodeFrom .start bs := by
  simp only [decodeFrom, hb, if_true, hf]

/-- The continuation byte holding the low six bits of `n`. -/
theorem cont_byte (n : Nat) :
    cont (byte (0x80 + n % 0x40)) ∧ (byte (0x80 + n % 0x40)).toNat - 0x80 = n % 0x40 := by
  have h := Nat.mod_lt n (show 0x40 > 0 by decide)
  unfold cont
  rw [toNat_byte (by omega)]
  exact ⟨by simp; omega, by omega⟩

theorem lead_two {x : Nat} (h : x < 0x20) : lead (byte (0xC0 + x)).toNat = some (1, x, 0x80) := by
  rw [toNat_byte (by omega), lead, if_neg (by omega), if_neg (by omega), if_pos (by omega),
    Nat.add_sub_cancel_left]

theorem lead_three {x : Nat} (h : x < 0x10) :
    lead (byte (0xE0 + x)).toNat = some (2, x, 0x800) := by
  rw [toNat_byte (by omega), lead, if_neg (by omega), if_neg (by omega), if_neg (by omega),
    if_pos (by omega), Nat.add_sub_cancel_left]

theorem lead_four {x : Nat} (h : x < 0x8) :
    lead (byte (0xF0 + x)).toNat = some (3, x, 0x10000) := by
  rw [toNat_byte (by omega), lead, if_neg (by omega), if_neg (by omega), if_neg (by omega),
    if_neg (by omega), if_pos (by omega), Nat.add_sub_cancel_left]

/-- A character's code point passes `finish` for any least value below it. -/
theorem finish_toNat (c : Char) {least : Nat} (h : least ≤ c.toNat) :
    finish c.toNat least = some c := by
  rw [finish, if_pos ⟨h, c.valid⟩, Char.ofNat_toNat]

/-- One encoded character decodes back, then decoding goes on. -/
theorem decodeFrom_encodeChar_append (c : Char) (bs : List UInt8) :
    decodeFrom .start (encodeChar c ++ bs) = (c :: ·) <$> decodeFrom .start bs := by
  have hv : c.toNat < 0x110000 := by have := c.valid; simp only [Char.toNat] at *; omega
  dsimp only [encodeChar]
  split_ifs with h1 h2 h3
  · have hl : lead (byte c.toNat).toNat = some (0, c.toNat, 0) := by
      rw [toNat_byte (by omega), lead, if_pos h1]
    rw [List.cons_append, List.nil_append]
    simp only [decodeFrom, hl, Char.ofNat_toNat]
  · obtain ⟨hc1, hx1⟩ := cont_byte c.toNat
    rw [List.cons_append, List.cons_append, List.nil_append,
      decodeFrom_lead (lead_two (by omega)),
      decodeFrom_inside_last hc1 (by rw [hx1, Nat.div_add_mod']; exact finish_toNat c (by omega))]
  · obtain ⟨hc1, hx1⟩ := cont_byte (c.toNat / 0x40)
    obtain ⟨hc2, hx2⟩ := cont_byte c.toNat
    have hn : (c.toNat / 0x1000 * 0x40 + c.toNat / 0x40 % 0x40) * 0x40 + c.toNat % 0x40 =
        c.toNat := by omega
    rw [List.cons_append, List.cons_append, List.cons_append, List.nil_append,
      decodeFrom_lead (lead_three (by omega)), decodeFrom_inside_more hc1, hx1,
      decodeFrom_inside_last hc2 (by rw [hx2, hn]; exact finish_toNat c (by omega))]
  · obtain ⟨hc1, hx1⟩ := cont_byte (c.toNat / 0x1000)
    obtain ⟨hc2, hx2⟩ := cont_byte (c.toNat / 0x40)
    obtain ⟨hc3, hx3⟩ := cont_byte c.toNat
    have hn : ((c.toNat / 0x40000 * 0x40 + c.toNat / 0x1000 % 0x40) * 0x40 +
        c.toNat / 0x40 % 0x40) * 0x40 + c.toNat % 0x40 = c.toNat := by omega
    rw [List.cons_append, List.cons_append, List.cons_append, List.cons_append, List.nil_append,
      decodeFrom_lead (lead_four (by omega)), decodeFrom_inside_more hc1, hx1,
      decodeFrom_inside_more hc2, hx2,
      decodeFrom_inside_last hc3 (by rw [hx3, hn]; exact finish_toNat c (by omega))]

/-- A character cut off by the end of the data does not decode. -/
theorem decodeFrom_take_encodeChar {c : Char} {j : Nat} (h0 : 0 < j)
    (hj : j < (encodeChar c).length) : decodeFrom .start ((encodeChar c).take j) = none := by
  have hv : c.toNat < 0x110000 := by have := c.valid; simp only [Char.toNat] at *; omega
  dsimp only [encodeChar] at hj ⊢
  split_ifs at hj ⊢ with h1 h2 h3 <;> simp only [List.length_cons, List.length_nil] at hj
  · omega
  · obtain rfl : j = 1 := by omega
    rw [List.take, List.take_zero, decodeFrom_lead (lead_two (by omega))]; rfl
  · have hc1 := (cont_byte (c.toNat / 0x40)).1
    obtain rfl | rfl : j = 1 ∨ j = 2 := by omega
    · rw [List.take, List.take_zero, decodeFrom_lead (lead_three (by omega))]; rfl
    · rw [List.take, List.take, List.take_zero, decodeFrom_lead (lead_three (by omega)),
        decodeFrom_inside_more hc1]; rfl
  · have hc1 := (cont_byte (c.toNat / 0x1000)).1
    have hc2 := (cont_byte (c.toNat / 0x40)).1
    obtain rfl | rfl | rfl : j = 1 ∨ j = 2 ∨ j = 3 := by omega
    · rw [List.take, List.take_zero, decodeFrom_lead (lead_four (by omega))]; rfl
    · rw [List.take, List.take, List.take_zero, decodeFrom_lead (lead_four (by omega)),
        decodeFrom_inside_more hc1]; rfl
    · rw [List.take, List.take, List.take, List.take_zero,
        decodeFrom_lead (lead_four (by omega)), decodeFrom_inside_more hc1,
        decodeFrom_inside_more hc2]; rfl

/-- The first `k` bytes of an encoding decode to the characters that fit whole, and raise when
the cut falls inside a character. -/
theorem decode_take_encode (cs : List Char) (k : Nat) :
    decode ((encode cs).take k) = utf8Cut cs k := by
  induction cs generalizing k with
  | nil => simp only [encode, List.flatMap_nil, List.take_nil]; rfl
  | cons c cs ih =>
    rw [encode_cons, List.take_append_eq_append_take, utf8Cut, decode]
    split_ifs with h0 h1
    · subst h0; simp only [List.take_zero, Nat.zero_sub, List.append_nil]; rfl
    · rw [Nat.sub_eq_zero_of_le h1.le, List.take_zero, List.append_nil,
        decodeFrom_take_encodeChar (Nat.pos_of_ne_zero h0) h1]
    · rw [List.take_of_length_le (Nat.le_of_not_lt h1), decodeFrom_encodeChar_append, ← decode,
        ih]

theorem decode_encode (cs : List Char) : decode (encode cs) = some cs := by
  induction cs with
  | nil => rfl
  | cons c cs ih => rw [encode_cons, decode, decodeFrom_encodeChar_append, ← decode, ih]; rfl

/-- A file `write_text` wrote whole reads back as the text after universal newlines. -/
theorem readBytes_encode (s : String) : readBytes (encode s.data) = .ok (readText s) := by
  rw [readBytes, decode_encode]; rfl

/-- What a read returns is already read back. -/
theorem readText_of_readBytes {bs : List UInt8} {t : String} (h : readBytes bs = .ok t) :
    readText t = t := by
  rw [readBytes] at h
  cases hd : decode bs with
  | none => rw [hd, readChars] at h; cases h
  | some cs => rw [hd, readChars] at h; cases h; exact readText_readText _

end Clawbot.Python

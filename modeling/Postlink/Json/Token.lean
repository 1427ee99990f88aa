import Postlink.Json.Basic

/-!
# Tokens of JSON text

Text is a list of bytes. A token is a punctuation mark, a string or another leaf; blanks separate
tokens and mean nothing. Numbers have no leading zeros and no bare point or exponent mark; a string
holds no control character, and its escapes are well formed even where they make no text.

Main statement: reading a token never lengthens the rest of the text (`length_token?_le`), so
reading token after token ends.
-/

namespace Postlink.Json

/-- A token of JSON text. -/
inductive Token where
  /-- An opening bracket. -/
  | arrOpen
  /-- A closing bracket. -/
  | arrClose
  /-- An opening brace. -/
  | objOpen
  /-- A closing brace. -/
  | objClose
  /-- A comma. -/
  | comma
  /-- A colon. -/
  | colon
  /-- A string, `none` when it is no text. -/
  | text (s : Option String)
  /-- A number, a truth value or `null`. -/
  | leaf (j : Json)

/-- A part of a string: a byte, or a UTF-16 unit written as an escape. -/
inductive Piece where
  /-- One byte of UTF-8. -/
  | byte (b : UInt8)
  /-- One unit of UTF-16. -/
  | unit (u : Nat)
  deriving DecidableEq, Repr

/-- Space, tab, line feed and carriage return. -/
def isBlank (b : UInt8) : Bool := b == 32 || b == 9 || b == 10 || b == 13

/-- The value of a hexadecimal digit of either case. -/
def hexDigit? (b : UInt8) : Option Nat :=
  let n := b.toNat
  if 48 ≤ n ∧ n ≤ 57 then some (n - 48)
  else if 97 ≤ n ∧ n ≤ 102 then some (n - 87)
  else if 65 ≤ n ∧ n ≤ 70 then some (n - 55)
  else none

/-- The unit that four hexadecimal digits write. -/
def hexUnit? (a b c d : UInt8) : Option Nat := do
  return 4096 * (← hexDigit? a) + 256 * (← hexDigit? b) + 16 * (← hexDigit? c) + (← hexDigit? d)

/-- The byte that a one-letter escape stands for. -/
def escaped? (b : UInt8) : Option UInt8 :=
  if b == 34 || b == 92 || b == 47 then some b
  else if b == 98 then some 8
  else if b == 102 then some 12
  else if b == 110 then some 10
  else if b == 114 then some 13
  else if b == 116 then some 9
  else none

/-- The pieces of a string up to its closing quote, after those already `done` in reverse, and what
follows the quote. -/
def pieces? (done : List Piece) : List UInt8 → Option (List Piece × List UInt8)
  | [] => none
  | 34 :: rest => some (done.reverse, rest)
  | 92 :: 117 :: a :: b :: c :: d :: rest =>
      match hexUnit? a b c d with
      | none => none
      | some u => pieces? (.unit u :: done) rest
  | 92 :: e :: rest =>
      match escaped? e with
      | none => none
      | some b => pieces? (.byte b :: done) rest
  | b :: rest => if b < 32 then none else pieces? (.byte b :: done) rest

/-- The bytes that pieces stand for. Units in the surrogate range have to come in pairs, the leading
one first. -/
def bytes? (done : List UInt8) : List Piece → Option (List UInt8)
  | [] => some done.reverse
  | .byte b :: rest => bytes? (b :: done) rest
  | .unit u :: .unit v :: rest =>
      if u < 0xd800 || 0xdfff < u then
        bytes? ((String.utf8EncodeChar (Char.ofNat u)).reverse ++ done) (.unit v :: rest)
      else if u < 0xdc00 && 0xdc00 ≤ v && v ≤ 0xdfff then
        let c := Char.ofNat (0x10000 + 1024 * (u - 0xd800) + (v - 0xdc00))
        bytes? ((String.utf8EncodeChar c).reverse ++ done) rest
      else none
  | .unit u :: rest =>
      if u < 0xd800 || 0xdfff < u then
        bytes? ((String.utf8EncodeChar (Char.ofNat u)).reverse ++ done) rest
      else none

/-- The text that pieces spell, if they spell one. -/
def spell? (ps : List Piece) : Option String :=
  (bytes? [] ps).bind fun bs => String.fromUTF8? ⟨bs.toArray⟩

/-- The digits at the start of a text and what follows them. -/
def spanDigits : List UInt8 → List Digit × List UInt8
  | [] => ([], [])
  | b :: rest =>
      match Digit.ofByte? b with
      | none => ([], b :: rest)
      | some d => (d :: (spanDigits rest).1, (spanDigits rest).2)

/-- The fraction at the start of a text: nothing, or a point and at least one digit. -/
def fraction? : List UInt8 → Option (List Digit × List UInt8)
  | 46 :: rest => if (spanDigits rest).1.isEmpty then none else some (spanDigits rest)
  | rest => some ([], rest)

/-- The sign of an exponent: whether it is negative, and what follows it. -/
def exponentSign : List UInt8 → Bool × List UInt8
  | 43 :: rest => (false, rest)
  | 45 :: rest => (true, rest)
  | rest => (false, rest)

/-- The integer with a sign and digits. -/
def signed (negative : Bool) (ds : List Digit) : Int :=
  if negative then -(Digit.value ds : Int) else Digit.value ds

/-- The digits of an exponent after its mark. -/
def exponentDigits? (s : List UInt8) : Option (Option Int × List UInt8) :=
  let sign := exponentSign s
  let span := spanDigits sign.2
  if span.1.isEmpty then none else some (some (signed sign.1 span.1), span.2)

/-- The exponent at the start of a text: nothing, or a mark, an optional sign and a digit or
more. -/
def exponent? : List UInt8 → Option (Option Int × List UInt8)
  | 101 :: rest => exponentDigits? rest
  | 69 :: rest => exponentDigits? rest
  | rest => some (none, rest)

/-- Digits before a point: one or more, and a leading zero stands alone. -/
def isWhole (ds : List Digit) : Bool :=
  ds.length == 1 || (1 < ds.length && ds.head? != some Digit.zero)

/-- The number at the start of a text, its sign already read. -/
def decimal? (negative : Bool) (s : List UInt8) : Option (Decimal × List UInt8) :=
  let span := spanDigits s
  if isWhole span.1 then
    (fraction? span.2).bind fun f =>
      (exponent? f.2).map fun e => (⟨negative, span.1, f.1, e.1⟩, e.2)
  else none

/-- The token that starts with a byte, and what follows it. -/
def token? (b : UInt8) (rest : List UInt8) : Option (Token × List UInt8) :=
  if b == 91 then some (.arrOpen, rest)
  else if b == 93 then some (.arrClose, rest)
  else if b == 123 then some (.objOpen, rest)
  else if b == 125 then some (.objClose, rest)
  else if b == 44 then some (.comma, rest)
  else if b == 58 then some (.colon, rest)
  else if b == 34 then (pieces? [] rest).map fun r => (.text (spell? r.1), r.2)
  else if b == 45 then (decimal? true rest).map fun r => (.leaf (.num r.1), r.2)
  else match b, rest with
    | 110, 117 :: 108 :: 108 :: rest => some (.leaf .null, rest)
    | 116, 114 :: 117 :: 101 :: rest => some (.leaf (.bool true), rest)
    | 102, 97 :: 108 :: 115 :: 101 :: rest => some (.leaf (.bool false), rest)
    | b, rest => (decimal? false (b :: rest)).map fun r => (.leaf (.num r.1), r.2)

/-- Reading the pieces of a string leaves no more bytes than there were. -/
theorem length_pieces?_le {done : List Piece} {s : List UInt8} {r : List Piece × List UInt8}
    (h : pieces? done s = some r) : r.2.length ≤ s.length := by
  fun_induction pieces? done s <;> grind

/-- Reading digits leaves no more bytes than there were. -/
theorem length_spanDigits_le (s : List UInt8) : (spanDigits s).2.length ≤ s.length := by
  induction s with
  | nil => simp [spanDigits]
  | cons b rest ih =>
      simp only [spanDigits]
      split
      · simp
      · simp only [List.length_cons]; omega

/-- Reading a fraction leaves no more bytes than there were. -/
theorem length_fraction?_le {s : List UInt8} {r : List Digit × List UInt8}
    (h : fraction? s = some r) : r.2.length ≤ s.length := by
  unfold fraction? at h
  split at h
  · rename_i rest
    obtain ⟨_, h⟩ := Option.ite_none_left_eq_some.1 h
    cases h
    exact Nat.le_succ_of_le (length_spanDigits_le rest)
  · cases h; exact Nat.le_refl _

/-- Reading the digits of an exponent leaves no more bytes than there were. -/
theorem length_exponentDigits?_le {s : List UInt8} {r : Option Int × List UInt8}
    (h : exponentDigits? s = some r) : r.2.length ≤ s.length := by
  have sign : (exponentSign s).2.length ≤ s.length := by
    unfold exponentSign
    split <;> simp
  obtain ⟨_, h⟩ := Option.ite_none_left_eq_some.1 h
  cases h
  exact Nat.le_trans (length_spanDigits_le _) sign

/-- Reading an exponent leaves no more bytes than there were. -/
theorem length_exponent?_le {s : List UInt8} {r : Option Int × List UInt8}
    (h : exponent? s = some r) : r.2.length ≤ s.length := by
  unfold exponent? at h
  split at h
  · exact Nat.le_succ_of_le (length_exponentDigits?_le h)
  · exact Nat.le_succ_of_le (length_exponentDigits?_le h)
  · cases h; exact Nat.le_refl _

/-- What follows a number is no longer than what follows its first digits. -/
theorem length_decimal?_le_span {negative : Bool} {s : List UInt8} {r : Decimal × List UInt8}
    (h : decimal? negative s = some r) :
    isWhole (spanDigits s).1 ∧ r.2.length ≤ (spanDigits s).2.length := by
  obtain ⟨hw, h⟩ := Option.ite_none_right_eq_some.1 h
  obtain ⟨f, hf, h⟩ := Option.bind_eq_some_iff.1 h
  obtain ⟨e, he, rfl⟩ := Option.map_eq_some_iff.1 h
  exact ⟨hw, Nat.le_trans (length_exponent?_le he) (length_fraction?_le hf)⟩

/-- Reading what follows the sign of a number leaves no more bytes than there were. -/
theorem length_decimal?_le {negative : Bool} {s : List UInt8} {r : Decimal × List UInt8}
    (h : decimal? negative s = some r) : r.2.length ≤ s.length :=
  Nat.le_trans (length_decimal?_le_span h).2 (length_spanDigits_le s)

/-- A number consumes the digit that it starts with. -/
theorem length_decimal?_cons_le {negative : Bool} {b : UInt8} {s : List UInt8}
    {r : Decimal × List UInt8} (h : decimal? negative (b :: s) = some r) :
    r.2.length ≤ s.length := by
  obtain ⟨hw, hr⟩ := length_decimal?_le_span h
  simp only [spanDigits] at hw hr
  split at hw
  · simp [isWhole] at hw
  · rename_i hd
    simp only [hd] at hr
    exact Nat.le_trans hr (length_spanDigits_le s)

/-- After a token the rest of the text is no longer than before it. -/
theorem length_token?_le {b : UInt8} {s : List UInt8} {r : Token × List UInt8}
    (h : token? b s = some r) : r.2.length ≤ s.length := by
  unfold token? at h
  repeat' split at h
  all_goals first
    | (cases h; exact Nat.le_refl _)
    | (cases h; simp only [List.length_cons]; omega)
    | (obtain ⟨q, hq, rfl⟩ := Option.map_eq_some_iff.1 h; exact length_pieces?_le hq)
    | (obtain ⟨q, hq, rfl⟩ := Option.map_eq_some_iff.1 h; exact length_decimal?_le hq)
    | (obtain ⟨q, hq, rfl⟩ := Option.map_eq_some_iff.1 h; exact length_decimal?_cons_le hq)

end Postlink.Json

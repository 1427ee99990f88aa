import Mathlib.Data.List.Basic
import Postlink.Json.Reader
import Postlink.Json.Writer

/-!
# Tokens are read as they are written

The bytes of a number or a string are one token, whatever follows them that cannot continue a
number, and the token holds the number or string that was written.
-/

namespace Postlink

namespace Json

/-- The bytes of a text are those of its characters. -/
theorem utf8_ofList (cs : List Char) :
    utf8 (String.ofList cs) = cs.flatMap String.utf8EncodeChar := by
  simp [utf8, List.utf8Encode]

theorem utf8_eq_flatMap (s : String) : utf8 s = s.toList.flatMap String.utf8EncodeChar := by
  rw [← utf8_ofList, String.ofList_toList]

theorem utf8_append (s t : String) : utf8 (s ++ t) = utf8 s ++ utf8 t := by
  simp [utf8]

/-- An encoded text is decoded to the text. -/
theorem fromUTF8?_utf8 (s : String) : String.fromUTF8? ⟨(utf8 s).toArray⟩ = some s := by
  have hbytes : (⟨(utf8 s).toArray⟩ : ByteArray) = s.toByteArray := by simp [utf8]
  rw [hbytes, String.fromUTF8?, dif_pos s.isValidUTF8]
  rfl

end Json

namespace Digit

/-- The byte that writes a digit. -/
def byte (d : Digit) : UInt8 := UInt8.ofNat (48 + d.val)

/-- A digit is read from its byte. -/
theorem ofByte?_byte (d : Digit) : ofByte? d.byte = some d := by
  revert d
  decide

/-- The character of a digit is one byte. -/
theorem utf8EncodeChar_char (d : Digit) : String.utf8EncodeChar d.char = [d.byte] := by
  revert d
  decide

/-- Only zero is written with a leading zero. -/
theorem head?_ofNat_ne_zero {n : Nat} (h : n ≠ 0) : (ofNat n).head? ≠ some zero := by
  induction n using Nat.strongRecOn with
  | ind n ih =>
      rw [ofNat]
      split
      · rename_i hlt
        rw [List.head?_cons, Ne, Option.some.injEq, Fin.ext_iff]
        simpa [zero, Nat.mod_eq_of_lt hlt] using h
      · rename_i hge
        rw [List.head?_append_of_ne_nil _ (ofNat_ne_nil _)]
        exact ih (n / 10) (by omega) (by omega)

end Digit

/-- Digits are written one byte each. -/
theorem Decimal.utf8_digitsText (ds : List Digit) :
    Json.utf8 (digitsText ds) = ds.map Digit.byte := by
  rw [digitsText, Json.utf8_ofList, List.flatMap_map]
  simp only [Digit.utf8EncodeChar_char]
  induction ds with
  | nil => rfl
  | cons d ds ih => rw [List.flatMap_cons, ih, List.map_cons, List.singleton_append]

namespace Json

/-- Digits that do not start with a zero are a whole part. -/
theorem isWhole_of_head? {ds : List Digit} (hne : ds ≠ []) (hhead : ds.head? ≠ some Digit.zero) :
    isWhole ds = true := by
  have hlength := List.length_pos_iff.2 hne
  simp only [isWhole, Bool.or_eq_true, Bool.and_eq_true, beq_iff_eq, bne_iff_ne, decide_eq_true_eq]
  by_cases hone : ds.length = 1
  · exact Or.inl hone
  · exact Or.inr ⟨by omega, hhead⟩

/-- The digits of a number form a whole part. -/
theorem isWhole_ofNat (n : Nat) : isWhole (Digit.ofNat n) = true := by
  by_cases hn : n = 0
  · rw [hn, Digit.ofNat, if_pos (by decide)]
    decide
  · exact isWhole_of_head? (Digit.ofNat_ne_nil n) (Digit.head?_ofNat_ne_zero hn)

/-- A text whose first byte is no digit. -/
def NoDigit (s : List UInt8) : Prop := ∀ b ∈ s.head?, Digit.ofByte? b = none

/-- Digits are read up to the first byte that is none. -/
theorem spanDigits_append {s : List UInt8} (h : NoDigit s) (ds : List Digit) :
    spanDigits (ds.map Digit.byte ++ s) = (ds, s) := by
  induction ds with
  | nil =>
      cases s with
      | nil => rfl
      | cons b s => simp [spanDigits, h b rfl]
  | cons d ds ih =>
      rw [List.map_cons, List.cons_append, spanDigits, Digit.ofByte?_byte]
      simp only [ih]

/-- What may follow a value: the end of a line, a comma or a closing mark. -/
def Ends (s : List UInt8) : Prop := ∀ b ∈ s.head?, b ∈ [10, 44, 93, 125]

/-- A value is not followed by a digit. -/
theorem Ends.noDigit {s : List UInt8} (h : Ends s) : NoDigit s := by
  intro b hb
  have hmark := h b hb
  simp only [List.mem_cons, List.not_mem_nil, or_false] at hmark
  rcases hmark with rfl | rfl | rfl | rfl <;> rfl

/-- A value is followed by none but a few bytes. -/
theorem Ends.head?_ne {s : List UInt8} (h : Ends s) {b : UInt8} (hb : b ∉ [10, 44, 93, 125]) :
    s.head? ≠ some b := fun he => hb (h b he)

/-- The bytes of a fraction, with its point if there is one. -/
def fractionBytes (ds : List Digit) : List UInt8 :=
  if ds.isEmpty then [] else 46 :: ds.map Digit.byte

/-- The bytes of an exponent, with its mark and sign if there is one. -/
def exponentBytes : Option Int → List UInt8
  | none => []
  | some e => 101 :: (if e < 0 then 45 else 43) :: (Digit.ofNat e.natAbs).map Digit.byte

/-- The text of an exponent, as bytes. -/
theorem utf8_exponentText (e : Int) :
    utf8 (Decimal.exponentText true e) = exponentBytes (some e) := by
  have hmark : utf8 "e" = [101] := by decide
  have hsign : utf8 (if e < 0 then "-" else if true then "+" else "") =
      [if e < 0 then 45 else 43] := by
    split <;> decide
  rw [Decimal.exponentText, utf8_append, utf8_append, Decimal.utf8_digitsText, hmark, hsign]
  rfl

/-- The bytes of a number without its sign. -/
def magnitude (d : Decimal) : List UInt8 :=
  d.whole.map Digit.byte ++ (fractionBytes d.fraction ++ exponentBytes d.exponent)

/-- The text of a number, as bytes. -/
theorem utf8_text (d : Decimal) :
    utf8 (d.text true) = if d.negative then 45 :: magnitude d else magnitude d := by
  have hsign : utf8 (if d.negative then "-" else "") = if d.negative then [45] else [] := by
    split <;> decide
  have hfraction : utf8 (if d.fraction.isEmpty then "" else "." ++ Decimal.digitsText d.fraction) =
      fractionBytes d.fraction := by
    rw [fractionBytes]
    split
    · decide
    · rw [utf8_append, Decimal.utf8_digitsText]
      rfl
  rw [Decimal.text, utf8_append, utf8_append, utf8_append, hsign,
    Decimal.utf8_digitsText, hfraction, magnitude]
  cases d.exponent with
  | none =>
      have hempty : utf8 "" = [] := by decide
      split <;> simp [hempty, exponentBytes]
  | some e => split <;> simp [utf8_exponentText]

/-- A fraction is read from its bytes. -/
theorem fraction?_append {s : List UInt8} (h : NoDigit s) (hpoint : s.head? ≠ some 46)
    (ds : List Digit) : fraction? (fractionBytes ds ++ s) = some (ds, s) := by
  cases ds with
  | nil =>
      show fraction? s = some ([], s)
      unfold fraction?
      split
      · exact absurd rfl hpoint
      · rfl
  | cons d ds =>
      show (if (spanDigits ((d :: ds).map Digit.byte ++ s)).1.isEmpty then none
        else some (spanDigits ((d :: ds).map Digit.byte ++ s))) = _
      rw [spanDigits_append h]
      rfl

/-- A whole number is read from its sign and the digits of its size. -/
theorem signed_ofNat_natAbs (e : Int) : signed (decide (e < 0)) (Digit.ofNat e.natAbs) = e := by
  rw [signed, Digit.value_ofNat]
  split
  · rename_i h
    have := of_decide_eq_true h
    omega
  · rename_i h
    have : ¬ e < 0 := fun hlt => h (decide_eq_true hlt)
    omega

/-- An exponent is read from its bytes. -/
theorem exponent?_append {s : List UInt8} (h : Ends s) (e : Option Int) :
    exponent? (exponentBytes e ++ s) = some (e, s) := by
  cases e with
  | none =>
      show exponent? s = some (none, s)
      unfold exponent?
      split
      · exact absurd rfl (h.head?_ne (by decide))
      · exact absurd rfl (h.head?_ne (by decide))
      · rfl
  | some e =>
      have hsign : exponentSign ((if e < 0 then 45 else 43) ::
          ((Digit.ofNat e.natAbs).map Digit.byte ++ s)) =
          (decide (e < 0), (Digit.ofNat e.natAbs).map Digit.byte ++ s) := by
        split
        · rename_i hneg
          rw [decide_eq_true hneg]
          rfl
        · rename_i hneg
          rw [decide_eq_false hneg]
          rfl
      show exponentDigits? ((if e < 0 then 45 else 43) ::
        ((Digit.ofNat e.natAbs).map Digit.byte ++ s)) = _
      rw [exponentDigits?, hsign]
      simp only [spanDigits_append h.noDigit, signed_ofNat_natAbs]
      rw [if_neg]
      simpa using Digit.ofNat_ne_nil e.natAbs

/-- A number is read up to its end. -/
theorem decimal?_append {d : Decimal} (hd : isWhole d.whole = true) {s : List UInt8} (h : Ends s) :
    decimal? d.negative (magnitude d ++ s) = some (d, s) := by
  have hexponent : NoDigit (exponentBytes d.exponent ++ s) ∧
      (exponentBytes d.exponent ++ s).head? ≠ some 46 := by
    cases d.exponent with
    | none => exact ⟨h.noDigit, h.head?_ne (by decide)⟩
    | some e =>
        have hmark : (exponentBytes (some e) ++ s).head? = some 101 := rfl
        rw [NoDigit, hmark]
        refine ⟨fun b hb => ?_, by decide⟩
        cases hb
        rfl
  have hfraction : NoDigit (fractionBytes d.fraction ++ (exponentBytes d.exponent ++ s)) := by
    cases d.fraction with
    | nil => exact hexponent.1
    | cons _ _ =>
        intro b hb
        cases hb
        decide
  rw [decimal?, magnitude, List.append_assoc, List.append_assoc, spanDigits_append hfraction]
  simp only [hd, if_true, fraction?_append hexponent.1 hexponent.2, Option.bind_some,
    exponent?_append h, Option.map_some]

/-- Some bytes are a token, and what follows them is not part of it. -/
def Lexes (p : List UInt8) (t : Token) (s : List UInt8) : Prop :=
  ∃ b r, p = b :: r ∧ isBlank b = false ∧ token? b (r ++ s) = some (t, s)

/-- A digit starts a number. -/
theorem token?_byte (d : Digit) (s : List UInt8) :
    token? d.byte s = (decimal? false (d.byte :: s)).map fun r => (.leaf (.num r.1), r.2) := by
  match d with
  | 0 | 1 | 2 | 3 | 4 | 5 | 6 | 7 | 8 | 9 => rfl

theorem isBlank_byte (d : Digit) : isBlank d.byte = false := by
  revert d
  decide

/-- The text of a number is a token. -/
theorem lexes_text {d : Decimal} (hd : isWhole d.whole = true) {s : List UInt8} (h : Ends s) :
    Lexes (utf8 (d.text true)) (.leaf (.num d)) s := by
  have hread := decimal?_append hd h
  rw [utf8_text]
  cases hneg : d.negative with
  | true =>
      rw [hneg] at hread
      refine ⟨45, magnitude d, rfl, rfl, ?_⟩
      show (decimal? true (magnitude d ++ s)).map _ = _
      rw [hread]
      rfl
  | false =>
      rw [hneg] at hread
      -- A number without a sign starts with its first digit.
      obtain ⟨k, r, hfirst⟩ : ∃ (k : Digit) (r : List UInt8), magnitude d = k.byte :: r := by
        cases hwhole : d.whole with
        | nil => rw [hwhole] at hd; cases hd
        | cons k ds => exact ⟨k, _, by rw [magnitude, hwhole, List.map_cons, List.cons_append]⟩
      refine ⟨k.byte, r, hfirst, isBlank_byte k, ?_⟩
      rw [hfirst, List.cons_append] at hread
      rw [token?_byte, hread]
      rfl

/-- Each byte of a character is the character itself or lies outside ASCII. -/
theorem toNat_eq_or_le_of_mem_utf8EncodeChar {c : Char} {b : UInt8}
    (h : b ∈ String.utf8EncodeChar c) : b.toNat = c.toNat ∨ 128 ≤ b.toNat := by
  have hbyte : ∀ n, (UInt8.ofNat n).toNat = n % 256 := fun _ => UInt8.toNat_ofNat'
  have hval : c.toNat = c.val.toNat := rfl
  simp only [String.utf8EncodeChar] at h
  split at h
  · rw [List.mem_singleton.1 h, hbyte]
    omega
  · right
    split at h
    · simp only [List.mem_cons, List.not_mem_nil, or_false] at h
      rcases h with rfl | rfl <;> rw [hbyte] <;> omega
    · split at h
      · simp only [List.mem_cons, List.not_mem_nil, or_false] at h
        rcases h with rfl | rfl | rfl <;> rw [hbyte] <;> omega
      · simp only [List.mem_cons, List.not_mem_nil, or_false] at h
        rcases h with rfl | rfl | rfl | rfl <;> rw [hbyte] <;> omega

/-- Pieces stand for some bytes, whatever comes after them. -/
def Spells (ps : List Piece) (bs : List UInt8) : Prop :=
  ∀ done more, bytes? done (ps ++ more) = bytes? (bs.reverse ++ done) more

/-- Bytes that are taken as they are spell themselves. -/
theorem spells_bytes (bs : List UInt8) : Spells (bs.map .byte) bs := by
  intro done more
  induction bs generalizing done with
  | nil => rfl
  | cons b bs ih =>
      rw [List.map_cons, List.cons_append, bytes?, ih, List.reverse_cons, List.append_assoc]
      rfl

/-- A unit below the surrogates stands for its character. -/
theorem spells_unit {c : Char} (h : c.toNat < 0xd800) :
    Spells [.unit c.toNat] (String.utf8EncodeChar c) := by
  intro done more
  rw [List.singleton_append]
  cases more with
  | nil => simp [bytes?, h, Char.ofNat_toNat]
  | cons p more =>
      cases p with
      | byte b => simp [bytes?, h, Char.ofNat_toNat]
      | unit v => simp [bytes?, h, Char.ofNat_toNat]

/-- Pieces one after the other spell the bytes one after the other. -/
theorem Spells.append {ps qs : List Piece} {bs cs : List UInt8} (h : Spells ps bs)
    (h' : Spells qs cs) : Spells (ps ++ qs) (bs ++ cs) := by
  intro done more
  rw [List.append_assoc, h, h', List.reverse_append, List.append_assoc]

/-- Bytes inside a string are read as some pieces, whatever comes after them. -/
def ReadsAs (p : List UInt8) (ps : List Piece) : Prop :=
  ∀ done s, pieces? done (p ++ s) = pieces? (ps.reverse ++ done) s

/-- Bytes that are neither control characters nor marks stand for themselves. -/
theorem readsAs_bytes {bs : List UInt8} (h : ∀ b ∈ bs, 32 ≤ b.toNat ∧ b ≠ 34 ∧ b ≠ 92) :
    ReadsAs bs (bs.map .byte) := by
  intro done s
  induction bs generalizing done with
  | nil => rfl
  | cons b bs ih =>
      obtain ⟨hlow, hquote, hslash⟩ := h b (List.mem_cons_self ..)
      have hplain : ¬ b < 32 := by
        rw [UInt8.lt_iff_toNat_lt]
        show ¬ b.toNat < 32
        omega
      rw [List.cons_append, pieces?]
      · rw [if_neg hplain, ih fun b' hb' => h b' (List.mem_cons_of_mem _ hb')]
        simp
      · exact hquote
      · intro _ _ _ _ _ hb
        exact absurd hb hslash
      · intro _ _ hb
        exact absurd hb hslash

/-- Bytes one after the other are read as the pieces one after the other. -/
theorem ReadsAs.append {p q : List UInt8} {ps qs : List Piece} (h : ReadsAs p ps)
    (h' : ReadsAs q qs) : ReadsAs (p ++ q) (ps ++ qs) := by
  intro done s
  rw [List.append_assoc, h, h', List.reverse_append, List.append_assoc]

/-- A hexadecimal digit in lower case, as a byte. -/
def hexByte (n : Nat) : UInt8 := UInt8.ofNat (if n < 10 then 48 + n else 87 + n)

/-- A hexadecimal digit is one byte and is read from it. -/
theorem utf8EncodeChar_hexChar :
    ∀ n < 16, String.utf8EncodeChar (hexChar n) = [hexByte n] ∧ hexDigit? (hexByte n) = some n := by
  decide

/-- A numbered escape is read as its unit. -/
theorem readsAs_unit {n : Nat} (h : n < 32) :
    ReadsAs (['\\', 'u', '0', '0', hexChar (n / 16), hexChar (n % 16)].flatMap
      String.utf8EncodeChar) [.unit n] := by
  obtain ⟨hhigh, hhigh'⟩ := utf8EncodeChar_hexChar (n / 16) (by omega)
  obtain ⟨hlow, hlow'⟩ := utf8EncodeChar_hexChar (n % 16) (by omega)
  have hunit : hexUnit? 48 48 (hexByte (n / 16)) (hexByte (n % 16)) = some n := by
    have hzero : hexDigit? 48 = some 0 := by decide
    simp only [hexUnit?, hzero, hhigh', hlow', Option.pure_def, Option.bind_eq_bind,
      Option.bind_some, Option.some.injEq]
    omega
  intro done s
  simp only [List.flatMap_cons, List.flatMap_nil, hhigh, hlow]
  show pieces? done (92 :: 117 :: 48 :: 48 :: hexByte (n / 16) :: hexByte (n % 16) :: s) = _
  rw [pieces?, hunit]
  rfl

/-- What is written for a character is read as pieces that stand for the character. -/
theorem exists_pieces (c : Char) : ∃ ps, Spells ps (String.utf8EncodeChar c) ∧
    ReadsAs ((escape c).flatMap String.utf8EncodeChar) ps := by
  unfold escape
  split
  · subst c
    exact ⟨[.byte 34], spells_bytes [34], fun _ _ => rfl⟩
  rename_i hquote
  split
  · subst c
    exact ⟨[.byte 92], spells_bytes [92], fun _ _ => rfl⟩
  rename_i hslash
  split
  · subst c
    exact ⟨[.byte 8], spells_bytes [8], fun _ _ => rfl⟩
  split
  · subst c
    exact ⟨[.byte 12], spells_bytes [12], fun _ _ => rfl⟩
  split
  · subst c
    exact ⟨[.byte 10], spells_bytes [10], fun _ _ => rfl⟩
  split
  · subst c
    exact ⟨[.byte 13], spells_bytes [13], fun _ _ => rfl⟩
  split
  · subst c
    exact ⟨[.byte 9], spells_bytes [9], fun _ _ => rfl⟩
  split
  · rename_i hlow
    exact ⟨[.unit c.toNat], spells_unit (by omega), readsAs_unit hlow⟩
  · rename_i hlow
    rw [List.flatMap_singleton]
    refine ⟨_, spells_bytes _, readsAs_bytes fun b hb => ?_⟩
    have hquote' : c.toNat ≠ 34 := fun he => hquote (Char.toNat_inj.1 he)
    have hslash' : c.toNat ≠ 92 := fun he => hslash (Char.toNat_inj.1 he)
    have hbyte := toNat_eq_or_le_of_mem_utf8EncodeChar hb
    refine ⟨by omega, ?_, ?_⟩
    · rintro rfl
      have : (34 : UInt8).toNat = 34 := rfl
      omega
    · rintro rfl
      have : (92 : UInt8).toNat = 92 := rfl
      omega

/-- The text of a string is read as pieces that stand for its bytes. -/
theorem exists_pieces_flatMap (cs : List Char) :
    ∃ ps, Spells ps (cs.flatMap String.utf8EncodeChar) ∧
      ReadsAs ((cs.flatMap escape).flatMap String.utf8EncodeChar) ps := by
  induction cs with
  | nil => exact ⟨[], fun _ _ => rfl, fun _ _ => rfl⟩
  | cons c cs ih =>
      obtain ⟨ps, hps, hread⟩ := exists_pieces c
      obtain ⟨qs, hqs, hread'⟩ := ih
      rw [List.flatMap_cons, List.flatMap_cons, List.flatMap_append]
      exact ⟨ps ++ qs, hps.append hqs, hread.append hread'⟩

/-- A string in quotes is one token, whatever comes after it. -/
theorem lexes_quote (s : String) (rest : List UInt8) :
    Lexes (utf8 (quote s)) (.text (some s)) rest := by
  obtain ⟨ps, hps, hread⟩ := exists_pieces_flatMap s.toList
  have hmark : utf8 "\"" = [34] := by decide
  refine ⟨34, (s.toList.flatMap escape).flatMap String.utf8EncodeChar ++ [34], ?_, rfl, ?_⟩
  · rw [quote, utf8_append, utf8_append, hmark, utf8_ofList]
    rfl
  · have hspell : spell? ps = some s := by
      have hbytes := hps [] []
      rw [List.append_nil, List.append_nil, bytes?, List.reverse_reverse,
        ← utf8_eq_flatMap] at hbytes
      rw [spell?, hbytes]
      exact fromUTF8?_utf8 s
    rw [List.append_assoc]
    show (pieces? [] _).map _ = _
    rw [hread, List.append_nil, List.singleton_append, pieces?, List.reverse_reverse,
      Option.map_some, hspell]

end Json

end Postlink

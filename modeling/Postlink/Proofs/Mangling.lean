import Postlink.Intrinsic

/-!
# Telling mangled types apart

A mangled type shows where it ends, unless what follows could continue it (`Ty.Ends`): a width ends
with its digits, and parameter types end at an `f` that starts none. So mangled types that stand one
after another can be read back (`Ty.letters_append_inj`). No name of an operation goes on with a dot
to become another one, so the name of a declaration gives away the operation and its overload types
(`Intrinsic.eq_of_declName_eq`). Both are thus unambiguous (`Intrinsic.unambiguous_names`).
-/

namespace Postlink

namespace Ty

/-- A text that does not continue a mangled type. -/
def Ends (cs : List Char) : Prop := ∀ c ∈ cs.head?, c.isDigit = false ∧ c ≠ '_'

/-- The characters of a mangled type. -/
def letters (t : Ty) : List Char := t.mangle.toList

/-- The characters of mangled types one after another. -/
def lettersAll (ts : List Ty) : List Char := (mangleAll ts).toList

theorem toList_toString (n : Nat) : (toString n).toList = Nat.toDigits 10 n := by
  rw [Nat.toString_eq_ofList_toDigits, String.toList_ofList]

theorem letters_int (n : Nat) : (int n).letters = 'i' :: Nat.toDigits 10 n := by
  rw [letters, mangle, String.toList_append, toList_toString]
  rfl

theorem letters_float (n : Nat) : (float n).letters = 'f' :: Nat.toDigits 10 n := by
  rw [letters, mangle, String.toList_append, toList_toString]
  rfl

theorem letters_ptr (t : Ty) : (ptr t).letters = 'p' :: '0' :: t.letters := by
  rw [letters, mangle, String.toList_append]
  rfl

theorem letters_func (r : Ty) (ps : List Ty) :
    (func r ps).letters = 'f' :: '_' :: (r.letters ++ (lettersAll ps ++ ['f'])) := by
  rw [letters, mangle, String.toList_append, String.toList_append, String.toList_append,
    List.append_assoc, List.append_assoc]
  rfl

theorem lettersAll_cons (t : Ty) (ts : List Ty) :
    lettersAll (t :: ts) = t.letters ++ lettersAll ts := by
  rw [lettersAll, mangleAll, String.toList_append]
  rfl

/-- The digits of a number start with a digit. -/
theorem exists_toDigits (n : Nat) : ∃ d ds, Nat.toDigits 10 n = d :: ds ∧ d.isDigit = true := by
  cases h : Nat.toDigits 10 n with
  | nil => exact absurd h Nat.toDigits_ne_nil
  | cons d ds =>
      refine ⟨d, ds, rfl, Nat.isDigit_of_mem_toDigits (b := 10) (n := n) (by decide) (by decide) ?_⟩
      rw [h]
      exact List.mem_cons_self ..

/-- A number ends with its digits. -/
theorem toDigits_append_inj {a b : Nat} {xs ys : List Char} (hx : Ends xs) (hy : Ends ys)
    (h : Nat.toDigits 10 a ++ xs = Nat.toDigits 10 b ++ ys) : a = b ∧ xs = ys := by
  have hdigits : ∀ n, ∀ c ∈ Nat.toDigits 10 n, c.isDigit = true := fun n c hc =>
    Nat.isDigit_of_mem_toDigits (by decide) (by decide) hc
  have hrest : ∀ {cs : List Char}, Ends cs → cs.takeWhile Char.isDigit = [] := by
    intro cs hcs
    cases cs with
    | nil => rfl
    | cons c cs => rw [List.takeWhile_cons_of_neg (by rw [(hcs c rfl).1]; exact Bool.false_ne_true)]
  have hsame : Nat.toDigits 10 a = Nat.toDigits 10 b := by
    have htake := congrArg (List.takeWhile Char.isDigit) h
    rwa [List.takeWhile_append_of_pos (hdigits a), List.takeWhile_append_of_pos (hdigits b),
      hrest hx, hrest hy, List.append_nil, List.append_nil] at htake
  refine ⟨?_, ?_⟩
  · rw [← Nat.ofDigitChars_ten_toDigits (n := a), hsame, Nat.ofDigitChars_ten_toDigits]
  · rw [hsame] at h
    exact List.append_cancel_left h

/-- The first two characters that a mangled type can have. -/
def Starts : Ty → Char → Char → Prop
  | .void, c, d => c = 'i' ∧ d = 's'
  | .int _, c, d => c = 'i' ∧ d.isDigit = true
  | .float _, c, d => c = 'f' ∧ d.isDigit = true
  | .ptr _, c, d => c = 'p' ∧ d = '0'
  | .func _ _, c, d => c = 'f' ∧ d = '_'

/-- A mangled type has at least two characters, by which its kind is known. -/
theorem exists_letters (t : Ty) : ∃ c d cs, t.letters = c :: d :: cs ∧ t.Starts c d := by
  cases t with
  | void => exact ⟨'i', 's', "Void".toList, rfl, rfl, rfl⟩
  | int n =>
      obtain ⟨d, ds, hn, hd⟩ := exists_toDigits n
      exact ⟨'i', d, ds, by rw [letters_int, hn], rfl, hd⟩
  | float n =>
      obtain ⟨d, ds, hn, hd⟩ := exists_toDigits n
      exact ⟨'f', d, ds, by rw [letters_float, hn], rfl, hd⟩
  | ptr t => exact ⟨'p', '0', _, letters_ptr t, rfl, rfl⟩
  | func r ps => exact ⟨'f', '_', _, letters_func r ps, rfl, rfl⟩

/-- A mangled type continues none. -/
theorem ends_letters (t : Ty) (xs : List Char) : Ends (t.letters ++ xs) := by
  obtain ⟨c, d, cs, ht, hstarts⟩ := t.exists_letters
  rw [ht]
  intro a ha
  cases ha
  cases t <;> rw [hstarts.1] <;> decide

/-- What follows the result type of a function ends it. -/
theorem ends_lettersAll (ts : List Ty) (xs : List Char) : Ends (lettersAll ts ++ 'f' :: xs) := by
  cases ts with
  | nil =>
      intro c hc
      cases hc
      decide
  | cons t ts =>
      rw [lettersAll_cons, List.append_assoc]
      exact t.ends_letters _

/-- The mark at the end of a function type starts no type. -/
theorem mark_ne_letters {xs ys : List Char} (hx : Ends xs) (t : Ty) :
    'f' :: xs ≠ t.letters ++ ys := by
  obtain ⟨c, d, cs, ht, hstarts⟩ := t.exists_letters
  intro h
  rw [ht, List.cons_append, List.cons_append, List.cons.injEq] at h
  obtain ⟨rfl, rfl⟩ := h
  have hd := hx d rfl
  cases t with
  | void => cases hstarts.1
  | int n => cases hstarts.1
  | float n => exact absurd (hstarts.2.symm.trans hd.1) (by decide)
  | ptr t => cases hstarts.1
  | func r ps => exact hd.2 hstarts.2

/-- Types whose mangled forms start alike are built alike. -/
theorem starts_of_append_eq {s t : Ty} {xs ys : List Char} (h : s.letters ++ xs = t.letters ++ ys) :
    ∃ c d, s.Starts c d ∧ t.Starts c d := by
  obtain ⟨c, d, cs, hs, hsstarts⟩ := s.exists_letters
  obtain ⟨c', d', cs', ht, htstarts⟩ := t.exists_letters
  simp only [hs, ht, List.cons_append, List.cons.injEq] at h
  obtain ⟨rfl, rfl, _⟩ := h
  exact ⟨c, d, hsstarts, htstarts⟩

mutual

/-- Mangled types can be told apart, and where they end. -/
theorem letters_append_inj (s t : Ty) {xs ys : List Char} (hx : Ends xs) (hy : Ends ys)
    (h : s.letters ++ xs = t.letters ++ ys) : s = t ∧ xs = ys := by
  obtain ⟨c, d, hs, ht⟩ := starts_of_append_eq h
  cases s with
  | void =>
      cases t with
      | void => exact ⟨rfl, List.append_cancel_left h⟩
      | int n => exact absurd (hs.2 ▸ ht.2) (by decide)
      | _ => exact absurd (hs.1.symm.trans ht.1) (by decide)
  | int n =>
      cases t with
      | int k =>
          rw [letters_int, letters_int, List.cons_append, List.cons_append, List.cons.injEq] at h
          exact (toDigits_append_inj hx hy h.2).imp_left (congrArg int)
      | void => exact absurd (ht.2 ▸ hs.2) (by decide)
      | _ => exact absurd (hs.1.symm.trans ht.1) (by decide)
  | float n =>
      cases t with
      | float k =>
          rw [letters_float, letters_float, List.cons_append, List.cons_append,
            List.cons.injEq] at h
          exact (toDigits_append_inj hx hy h.2).imp_left (congrArg float)
      | func r ps => exact absurd (ht.2 ▸ hs.2) (by decide)
      | _ => exact absurd (hs.1.symm.trans ht.1) (by decide)
  | ptr s =>
      cases t with
      | ptr t =>
          simp only [letters_ptr, List.cons_append, List.cons.injEq, true_and] at h
          exact (letters_append_inj s t hx hy h).imp_left (congrArg ptr)
      | _ => exact absurd (hs.1.symm.trans ht.1) (by decide)
  | func r ps =>
      cases t with
      | func q qs =>
          simp only [letters_func, List.cons_append, List.append_assoc, List.cons.injEq, true_and,
            List.nil_append] at h
          obtain ⟨rfl, hrest⟩ :=
            letters_append_inj r q (ends_lettersAll ps xs) (ends_lettersAll qs ys) h
          exact (lettersAll_append_inj ps qs hx hy hrest).imp_left (congrArg (func r))
      | float n => exact absurd (hs.2 ▸ ht.2) (by decide)
      | _ => exact absurd (hs.1.symm.trans ht.1) (by decide)

/-- A list of parameters ends where no further type starts, so the types are determined. -/
theorem lettersAll_append_inj (ss ts : List Ty) {xs ys : List Char} (hx : Ends xs) (hy : Ends ys)
    (h : lettersAll ss ++ 'f' :: xs = lettersAll ts ++ 'f' :: ys) : ss = ts ∧ xs = ys := by
  cases ss with
  | nil =>
      cases ts with
      | nil => exact ⟨rfl, (List.cons.inj h).2⟩
      | cons t ts =>
          rw [lettersAll_cons, List.append_assoc] at h
          exact absurd h (mark_ne_letters hx t)
  | cons s ss =>
      cases ts with
      | nil =>
          rw [lettersAll_cons, List.append_assoc] at h
          exact absurd h.symm (mark_ne_letters hy s)
      | cons t ts =>
          rw [lettersAll_cons, lettersAll_cons, List.append_assoc, List.append_assoc] at h
          obtain ⟨rfl, hrest⟩ :=
            letters_append_inj s t (ends_lettersAll ss xs) (ends_lettersAll ts ys) h
          exact (lettersAll_append_inj ss ts hx hy hrest).imp_left (congrArg (s :: ·))

end

/-- Different types are mangled differently. -/
theorem mangle_injective : Function.Injective mangle := by
  intro s t h
  have hends : Ends [] := by
    intro c hc
    cases hc
  have hletters : s.letters ++ [] = t.letters ++ [] := by rw [letters, letters, h]
  exact (letters_append_inj s t hends hends hletters).1

end Ty

namespace Intrinsic

/-- The part of a declaration's name that stands for its overload types. -/
def suffix (tys : List Ty) : List Char := tys.flatMap fun t => '.' :: t.letters

theorem toList_declName (op : Intrinsic) (tys : List Ty) :
    (op.declName tys).toList = "llvm.".toList ++ (op.baseName.toList ++ suffix tys) := by
  have htype : ∀ t : Ty, ("." ++ t.mangle).toList = '.' :: t.letters := by
    intro t
    rw [String.toList_append]
    rfl
  rw [declName, text, String.toList_append, String.toList_append, String.toList_join, suffix,
    List.flatMap_map, List.append_assoc]
  simp only [htype]

/-- Overload types end at the next dot. -/
theorem ends_suffix (tys : List Ty) : Ty.Ends (suffix tys) := by
  cases tys with
  | nil =>
      intro c hc
      cases hc
  | cons t tys =>
      intro c hc
      cases hc
      decide

/-- The suffix of a declaration's name determines the overload types. -/
theorem suffix_inj {tys tys' : List Ty} (h : suffix tys = suffix tys') : tys = tys' := by
  induction tys generalizing tys' with
  | nil =>
      cases tys' with
      | nil => rfl
      | cons t' tys' => cases h
  | cons t tys ih =>
      cases tys' with
      | nil => cases h
      | cons t' tys' =>
          obtain ⟨rfl, hrest⟩ := Ty.letters_append_inj t t' (ends_suffix tys) (ends_suffix tys')
            (List.cons.inj h).2
          rw [ih hrest]

/-- A name that ends with its dot is not the start of another one. -/
theorem eq_of_dotted_isPrefix_dotted {op op' : Intrinsic}
    (h : op.baseName.toList ++ ['.'] <+: op'.baseName.toList ++ ['.']) : op = op' := by
  have hall : ∀ op ∈ all, ∀ op' ∈ all,
      op.baseName.toList ++ ['.'] <+: op'.baseName.toList ++ ['.'] → op = op' := by
    decide +kernel
  exact hall op op.mem_all op' op'.mem_all h

/-- With one more dot at the end, a dot stands behind the name in any case. -/
theorem dotted_isPrefix_append (op : Intrinsic) (tys : List Ty) :
    op.baseName.toList ++ ['.'] <+: (op.baseName.toList ++ suffix tys) ++ ['.'] := by
  rw [List.append_assoc, List.prefix_append_right_inj]
  cases tys with
  | nil => exact List.prefix_refl _
  | cons t tys => exact ⟨_, rfl⟩

/-- The name of a declaration tells the operation and its overload types. -/
theorem eq_of_declName_eq {op op' : Intrinsic} {tys tys' : List Ty}
    (h : op.declName tys = op'.declName tys') : op = op' ∧ tys = tys' := by
  have hletters := congrArg String.toList h
  rw [toList_declName, toList_declName] at hletters
  replace hletters := List.append_cancel_left hletters
  have hop : op = op' := by
    have hdotted := dotted_isPrefix_append op tys
    rw [hletters] at hdotted
    rcases List.prefix_or_prefix_of_prefix hdotted (dotted_isPrefix_append op' tys') with hle | hle
    · exact eq_of_dotted_isPrefix_dotted hle
    · exact (eq_of_dotted_isPrefix_dotted hle).symm
  subst hop
  exact ⟨rfl, suffix_inj (List.append_cancel_left hletters)⟩

/-- Mangled types and names of declarations are unambiguous. -/
theorem unambiguous_names :
    Function.Injective Ty.mangle ∧
      Function.Injective fun decl : Intrinsic × List Ty => decl.1.declName decl.2 := by
  refine ⟨Ty.mangle_injective, ?_⟩
  rintro ⟨op, tys⟩ ⟨op', tys'⟩ h
  obtain ⟨rfl, rfl⟩ := eq_of_declName_eq h
  rfl

/-- One letter opens a float, opens a function and closes it. -/
example : fma.declName [.func (.float 1) [.func .void [], .float 16], .int 1] =
    "llvm.fma.f_f1f_isVoidff16f.i1" := by
  decide

end Intrinsic

end Postlink

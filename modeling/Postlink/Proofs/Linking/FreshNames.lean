import Postlink.Linking
import Postlink.Proofs.Lookup
import Mathlib.Order.Bounds.Basic

/-!
# Which name a clashing definition takes

A clashing definition takes a numbered name. The first number tried is the least one that is free in
the destination, variables included; if a function of the source has that name, the least number is
taken that no function of either module has (`Module.Picks`). A numbered name gives away its base,
so definitions that take new names do not get into each other's way.
-/

namespace Postlink

namespace Module

theorem toList_numbered (base : String) (n : Nat) :
    (numbered base n).toList = base.toList ++ '.' :: Nat.toDigits 10 n := by
  simp only [numbered, String.toList_append, Nat.toString_eq_ofList_toDigits, String.toList_ofList,
    List.append_assoc]
  rfl

theorem dot_notMem_toDigits (n : Nat) : '.' ∉ Nat.toDigits 10 n := by
  intro h
  have hdigit := Nat.isDigit_of_mem_toDigits (b := 10) (by decide) (by decide) h
  exact absurd hdigit (by decide)

/-- The base is what stands before the last dot. -/
theorem base_eq_of_numbered_eq {base base' : String} {a b : Nat}
    (h : numbered base a = numbered base' b) : base = base' := by
  have hsplit := congrArg String.toList h
  rw [toList_numbered, toList_numbered, List.append_eq_append_iff] at hsplit
  -- Whatever one base has in addition starts with the dot of the other name, and then there is a
  -- dot
  -- among its digits.
  have hnil : ∀ {more : List Char} {j k : Nat},
      '.' :: Nat.toDigits 10 j = more ++ '.' :: Nat.toDigits 10 k → more = [] := by
    intro more j k hmore
    cases more with
    | nil => rfl
    | cons c cs =>
        rw [List.cons_append, List.cons.injEq] at hmore
        refine absurd ?_ (dot_notMem_toDigits j)
        rw [hmore.2]
        exact List.mem_append_right _ (List.mem_cons_self ..)
  rcases hsplit with ⟨more, hbase, hrest⟩ | ⟨more, hbase, hrest⟩
  · rw [hnil hrest, List.append_nil] at hbase
    exact (String.toList_inj.1 hbase).symm
  · rw [hnil hrest, List.append_nil] at hbase
    exact String.toList_inj.1 hbase

/-- A name is free if no function and no variable has it. -/
theorem taken_eq_false_iff {m : Module} {name : String} : m.taken name = false ↔
    m.func? name = none ∧ name ∉ m.globals.map Global.name := by
  rw [← Bool.not_eq_true, taken_iff, List.mem_append, not_or, ← isSome_func?_iff]
  simp

/-- The first candidate with a property has the least number. -/
theorem exists_least_of_find? {base n : String} {count : Nat} {p : String → Bool}
    (h : (candidates base count).find? p = some n) :
    ∃ k, n = numbered base k ∧ IsLeast {k | 0 < k ∧ p (numbered base k) = true} k := by
  rw [candidates, List.find?_map] at h
  obtain ⟨k, hk, rfl⟩ := Option.map_eq_some_iff.1 h
  obtain ⟨hp, hmem, hleast⟩ := List.find?_range'_eq_some.1 hk
  refine ⟨k, rfl, ⟨?_, hp⟩, fun j hj => ?_⟩
  · exact (List.mem_range'_1.1 hmem).1
  · by_contra hlt
    have hnot := hleast j hj.1 (Nat.lt_of_not_le hlt)
    rw [Function.comp_apply, hj.2] at hnot
    cases hnot

/-- A base that is taken gets the least number that is free. -/
theorem least_freeName {m : Module} {base : String} (h : m.taken base = true) :
    ∃ k, m.freeName base = numbered base k ∧
      IsLeast {k | 0 < k ∧ m.taken (numbered base k) = false} k := by
  have hfree := taken_freeName base m
  rw [freeName, if_pos h] at hfree ⊢
  cases hfind : (candidates base (m.functions.length + m.globals.length)).find? fun n =>
    !m.taken n with
  | none =>
      rw [hfind, Option.getD_none, h] at hfree
      cases hfree
  | some n =>
      obtain ⟨k, rfl, hk⟩ := exists_least_of_find? hfind
      refine ⟨k, rfl, ?_⟩
      simpa only [Bool.not_eq_true'] using hk

/-- The new name of a clashing definition is in neither module. -/
theorem freshName_isFresh (dest src : Module) (name : String) :
    dest.func? (freshName dest src name) = none ∧ src.func? (freshName dest src name) = none := by
  let tries := dest.freeName name
    :: candidates name (dest.functions.length + src.functions.length + 1)
  let free := fun n => !(src.func? n).isSome && !(dest.func? n).isSome
  have hfound : ∃ n, tries.find? free = some n := by
    have hcount : (src.functions.map Func.name ++ dest.functions.map Func.name).length <
        dest.functions.length + src.functions.length + 1 := by
      rw [List.length_append, List.length_map, List.length_map]
      omega
    obtain ⟨n, hn, hnew⟩ := exists_candidate_not_mem name hcount
    rw [← Option.isSome_iff_exists, List.find?_isSome]
    refine ⟨n, List.mem_cons_of_mem _ hn, ?_⟩
    simpa [free, func?_eq_none_iff] using hnew
  obtain ⟨n, hn⟩ := hfound
  have hfresh : freshName dest src name = n := by
    change (tries.find? free).getD name = n
    rw [hn]
    rfl
  have hfree := List.find?_some hn
  simp only [free, Bool.and_eq_true, Bool.not_eq_true', Option.isSome_eq_false_iff,
    Option.isNone_iff_eq_none] at hfree
  rw [hfresh]
  exact ⟨hfree.2, hfree.1⟩

/-- The number that a clashing definition of a source gets. -/
def Picks (dest src : Module) (name : String) (k : Nat) : Prop :=
  ∃ first, IsLeast {k | 0 < k ∧ dest.taken (numbered name k) = false} first ∧
    (src.func? (numbered name first) = none ∧ k = first ∨
      src.func? (numbered name first) ≠ none ∧
        IsLeast {k | 0 < k ∧ dest.func? (numbered name k) = none ∧
          src.func? (numbered name k) = none} k)

/-- There is one such number at most. -/
theorem Picks.unique {dest src : Module} {name : String} {k l : Nat} (hk : dest.Picks src name k)
    (hl : dest.Picks src name l) : k = l := by
  obtain ⟨first, hfirst, hk⟩ := hk
  obtain ⟨first', hfirst', hl⟩ := hl
  obtain rfl := hfirst.unique hfirst'
  rcases hk with ⟨hnone, rfl⟩ | ⟨hsome, hk⟩
  · rcases hl with ⟨_, rfl⟩ | ⟨hsome, _⟩
    · rfl
    · exact absurd hnone hsome
  · rcases hl with ⟨hnone, _⟩ | ⟨_, hl⟩
    · exact absurd hnone hsome
    · exact hk.unique hl

/-- Only those functions of the source count whose names are the base with a number and new to the
destination. -/
theorem Picks.congr {dest src src' : Module} {name : String}
    (hsame : ∀ k, dest.func? (numbered name k) = none →
      (src.func? (numbered name k) = none ↔ src'.func? (numbered name k) = none)) {k : Nat}
    (h : dest.Picks src name k) : dest.Picks src' name k := by
  obtain ⟨first, hfirst, hk⟩ := h
  have hnew := (taken_eq_false_iff.1 hfirst.1.2).1
  have hset : {k | 0 < k ∧ dest.func? (numbered name k) = none ∧
      src.func? (numbered name k) = none} =
      {k | 0 < k ∧ dest.func? (numbered name k) = none ∧ src'.func? (numbered name k) = none} := by
    ext j
    exact and_congr_right fun _ => and_congr_right fun hj => hsame j hj
  rw [hset, Ne, hsame first hnew] at hk
  exact ⟨first, hfirst, hk⟩

/-- A clashing definition takes the name with that number. -/
theorem exists_picks {dest : Module} (src : Module) {name : String}
    (h : (dest.func? name).isSome = true) :
    ∃ k, freshName dest src name = numbered name k ∧ dest.Picks src name k := by
  have htaken : dest.taken name = true := by
    rw [taken, h]
    rfl
  obtain ⟨first, hname, hfirst⟩ := least_freeName htaken
  have hnew := (freshName_isFresh dest src name).1
  have hfree := (taken_eq_false_iff.1 (taken_freeName name dest)).1
  rw [freshName] at hnew ⊢
  rw [List.find?_cons] at hnew ⊢
  rw [hfree, hname] at hnew ⊢
  cases hsrc : src.func? (numbered name first) with
  | none => exact ⟨first, by simp, first, hfirst, Or.inl ⟨hsrc, rfl⟩⟩
  | some f =>
      simp only [hsrc, Option.isSome_some, Bool.not_true, Bool.false_and] at hnew ⊢
      cases hfind : (candidates name (dest.functions.length + src.functions.length + 1)).find?
          fun n => !(src.func? n).isSome && !(dest.func? n).isSome with
      | none =>
          rw [hfind, Option.getD_none] at hnew
          rw [hnew] at h
          cases h
      | some n =>
          obtain ⟨k, rfl, hk⟩ := exists_least_of_find? hfind
          refine ⟨k, rfl, first, hfirst, Or.inr ⟨by simp [hsrc], ?_⟩⟩
          simpa [and_comm] using hk

end Module

end Postlink

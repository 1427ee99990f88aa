import Postlink.Proofs.Linking.FreshNames
import Mathlib.Computability.Partrec

/-!
# Which name is free

`Module.freeName` tries one numbered name for each symbol of a module. A search that tries one
number after the other without a limit (`Module.searchName`) comes to an end and finds the same
name: the least number whose name is free is at most the number of symbols, since the base is a
symbol itself and no symbol takes more than one number away (`Module.searchName_eq`).
-/

namespace Postlink

namespace Module

/-- The names of the functions and of the variables. -/
def symbols (m : Module) : List String := m.functions.map Func.name ++ m.globals.map Global.name

/-- Try one number after the other until the numbered name is free. -/
def searchNumber (base : String) (m : Module) : Part Nat :=
  (Nat.rfind fun k => Part.some (!m.taken (numbered base (k + 1)))).map (· + 1)

/-- The base if it is free, and otherwise what the search without a limit finds. -/
def searchName (base : String) (m : Module) : Part String :=
  if m.taken base then (m.searchNumber base).map (numbered base) else Part.some base

variable {m : Module} {base name : String}

/-- A name is free if no symbol has it. -/
theorem taken_eq_false_iff_notMem : m.taken name = false ↔ name ∉ m.symbols := by
  rw [← Bool.not_eq_true, taken_iff, symbols]

/-- The candidates are the base with the first few numbers. -/
theorem mem_candidates {count : Nat} :
    name ∈ candidates base count ↔ ∃ k, 0 < k ∧ k ≤ count ∧ name = numbered base k := by
  simp only [candidates, List.mem_map, List.mem_range'_1]
  constructor
  · rintro ⟨k, ⟨hpos, hlt⟩, rfl⟩
    exact ⟨k, hpos, by omega, rfl⟩
  · rintro ⟨k, hpos, hle, rfl⟩
    exact ⟨k, ⟨hpos, by omega⟩, rfl⟩

/-- The search ends at the least number that is free, and nowhere else. -/
theorem mem_searchNumber_iff {k : Nat} : k ∈ m.searchNumber base ↔
    IsLeast {k | 0 < k ∧ m.taken (numbered base k) = false} k := by
  simp only [searchNumber, Part.mem_map_iff]
  constructor
  · rintro ⟨j, hj, rfl⟩
    obtain ⟨hfree, hbelow⟩ := Nat.mem_rfind.1 hj
    refine ⟨⟨j.succ_pos, by simpa using hfree⟩, ?_⟩
    rintro i ⟨hpos, hi⟩
    by_contra hlt
    obtain ⟨i, rfl⟩ := Nat.exists_eq_succ_of_ne_zero hpos.ne'
    have htaken := hbelow (show i < j by omega)
    rw [hi] at htaken
    simp at htaken
  · rintro ⟨⟨hpos, hfree⟩, hleast⟩
    obtain ⟨j, rfl⟩ := Nat.exists_eq_succ_of_ne_zero hpos.ne'
    refine ⟨j, Nat.mem_rfind.2 ⟨by simpa using hfree, fun {i} hi => ?_⟩, rfl⟩
    have htaken : m.taken (numbered base (i + 1)) = true := by
      by_contra hnot
      have hle : j + 1 ≤ i + 1 := hleast ⟨i.succ_pos, Bool.of_not_eq_true hnot⟩
      omega
    simp [htaken]

/-- A module has no room for more taken numbers than it has symbols besides the base. -/
theorem le_of_isLeast (h : m.taken base = true) {k : Nat}
    (hk : IsLeast {k | 0 < k ∧ m.taken (numbered base k) = false} k) :
    k ≤ m.functions.length + m.globals.length := by
  obtain ⟨n, hn, hfree⟩ := exists_candidate_free h
  obtain ⟨j, hpos, hle, rfl⟩ := mem_candidates.1 hn
  exact le_trans (hk.2 ⟨hpos, hfree⟩) hle

/-- A free name is found for every base: no function and no variable has it, it is the base if that
is free, and otherwise the base with the least number that is free, which is at most the number of
symbols. The search without a limit ends with this name. -/
theorem searchName_eq (base : String) (m : Module) :
    m.searchName base = Part.some (m.freeName base) ∧
    (∀ f ∈ m.functions, f.name ≠ m.freeName base) ∧ (∀ g ∈ m.globals, g.name ≠ m.freeName base) ∧
    (base ∉ m.symbols → m.freeName base = base) ∧
    (base ∈ m.symbols → ∃ n ≤ m.functions.length + m.globals.length,
      m.freeName base = numbered base n ∧ IsLeast {n | 1 ≤ n ∧ numbered base n ∉ m.symbols} n) := by
  have hnew := taken_eq_false_iff_notMem.1 (taken_freeName base m)
  rw [symbols, List.mem_append, not_or] at hnew
  refine ⟨?_, fun f hf heq => hnew.1 (heq ▸ List.mem_map_of_mem hf),
    fun g hg heq => hnew.2 (heq ▸ List.mem_map_of_mem hg), fun hbase => ?_, fun hbase => ?_⟩
  · cases hbase : m.taken base with
    | false => rw [searchName, freeName, hbase, if_neg Bool.false_ne_true,
        if_neg Bool.false_ne_true]
    | true =>
        obtain ⟨k, hname, hk⟩ := least_freeName hbase
        rw [searchName, if_pos hbase, Part.eq_some_iff.2 (mem_searchNumber_iff.2 hk),
          Part.map_some, hname]
  · rw [freeName, taken_eq_false_iff_notMem.2 hbase, if_neg Bool.false_ne_true]
  · have htaken : m.taken base = true := taken_iff.2 hbase
    obtain ⟨k, hname, hk⟩ := least_freeName htaken
    refine ⟨k, le_of_isLeast htaken hk, hname, ?_⟩
    simp only [taken_eq_false_iff_notMem] at hk
    exact hk

/-- A module whose functions and variables take turns at the first numbers of a name. -/
def crowded : Module :=
  { name := "m"
    functions := [.declare "foo" ⟨.void, []⟩, .declare "foo.3" ⟨.void, []⟩,
      .declare "foo.1" ⟨.void, []⟩]
    globals := [⟨"foo.2", .int 32, none, .external⟩, ⟨"foo.5", .int 32, none, .external⟩] }

/-- The search passes three numbers and stops at the gap before the fifth. -/
theorem searchName_eq_crowded :
    "foo" ∈ crowded.symbols ∧ crowded.searchName "foo" = Part.some "foo.4" ∧
    IsLeast {n | 1 ≤ n ∧ numbered "foo" n ∉ crowded.symbols} 4 ∧
    "bar" ∉ crowded.symbols ∧ crowded.searchName "bar" = Part.some "bar" := by
  have htaken : "foo" ∈ crowded.symbols := by decide
  have hbar : "bar" ∉ crowded.symbols := by decide
  have hfour : crowded.freeName "foo" = numbered "foo" 4 := by decide +kernel
  obtain ⟨hfound, _, _, _, hnumber⟩ := searchName_eq "foo" crowded
  obtain ⟨n, _, hname, hleast⟩ := hnumber htaken
  obtain rfl : 4 = n := numbered_inj (hfour.symm.trans hname)
  obtain ⟨hbase, _, _, hself, _⟩ := searchName_eq "bar" crowded
  rw [hself hbar] at hbase
  rw [hfour] at hfound
  exact ⟨htaken, hfound, hleast, hbar, hbase⟩

end Module

end Postlink

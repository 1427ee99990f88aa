import Postlink.Importing
import Postlink.Proofs.Lookup

/-!
# Functions that share a name

A name means the first function that carries it, and changing or removing a function by its name
reaches that one only. What an operation does to a module in which names are not distinct is
therefore told by the functions of each name in order (`Module.namesakes`): changing a function
replaces the first of them, and removing one takes the first away.
-/

namespace Postlink

/-- Removing the first element with a key takes one away from those that have it. -/
theorem filter_eraseP_key {α κ : Type} [DecidableEq κ] (key : α → κ) (n k : κ) (as : List α) :
    (as.eraseP fun a => key a = n).filter (fun a => key a = k) =
      if n = k then (as.filter fun a => key a = k).tail else as.filter fun a => key a = k := by
  induction as with
  | nil => simp
  | cons a as ih =>
      by_cases hn : key a = n
      · rw [List.eraseP_cons_of_pos (by simpa using hn)]
        by_cases hk : n = k
        · rw [if_pos hk, List.filter_cons_of_pos (by simpa using hn.trans hk), List.tail_cons]
        · rw [if_neg hk, List.filter_cons_of_neg (by simpa [hn] using hk)]
      · rw [List.eraseP_cons_of_neg (by simpa using hn)]
        by_cases hk : key a = k
        · have hne : n ≠ k := fun h => hn (hk.trans h.symm)
          rw [if_neg hne] at ih ⊢
          rw [List.filter_cons_of_pos (by simpa using hk),
            List.filter_cons_of_pos (by simpa using hk), ih]
        · rw [List.filter_cons_of_neg (by simpa using hk),
            List.filter_cons_of_neg (by simpa using hk), ih]

namespace Module

variable {m : Module}

/-- The functions with a name, in order. -/
def namesakes (name : String) (m : Module) : List Func := m.functions.filter fun f => f.name = name

/-- Whether the body of the function with a name is still in an archive. -/
def stores (name : String) (m : Module) : Bool := (m.func? name).any Func.isStored

/-- Whether the body of the function with a name is loaded. -/
def loads (name : String) (m : Module) : Bool := (m.func? name).any fun f => f.body.isLoaded

/-- A name is defined if its first function has a body. -/
theorem defines_eq_any (m : Module) (name : String) :
    m.defines name = (m.func? name).any fun f => !f.isDeclared := by
  unfold defines
  cases m.func? name <;> rfl

/-- A name is stored if the body of its first function is. -/
theorem stores_iff {name : String} :
    m.stores name = true ↔ ∃ f, m.func? name = some f ∧ f.isStored = true :=
  Option.any_eq_true _ _

/-- A body is there if there is a definition, and it is not stored. -/
theorem loads_iff {name : String} :
    m.loads name = true ↔ m.defines name = true ∧ m.stores name = false := by
  rw [loads, defines_eq_any, stores]
  cases m.func? name with
  | none => simp
  | some f => simp [Func.isLoaded_iff]

/-- A name means the first of its functions. -/
theorem head?_namesakes (m : Module) (name : String) : (m.namesakes name).head? = m.func? name :=
  List.head?_filter

theorem mem_namesakes_iff {name : String} {f : Func} :
    f ∈ m.namesakes name ↔ f ∈ m.functions ∧ f.name = name := by
  rw [namesakes, List.mem_filter, decide_eq_true_iff]

/-- The first of the functions with a name is the one that the name means. -/
theorem namesakes_eq_cons {name : String} {f : Func} (h : m.func? name = some f) :
    m.namesakes name = f :: (m.namesakes name).tail := by
  rw [← head?_namesakes] at h
  exact (List.cons_head?_tail (Option.mem_def.2 h)).symm

/-- No function has a name that means none. -/
theorem namesakes_eq_nil {name : String} (h : m.func? name = none) : m.namesakes name = [] := by
  rw [← head?_namesakes] at h
  exact List.head?_eq_none_iff.1 h

/-- Where names are distinct, no name has two functions. -/
theorem DistinctNames.tail_namesakes (h : m.DistinctNames) (name : String) :
    (m.namesakes name).tail = [] := by
  cases hm : m.namesakes name with
  | nil => rfl
  | cons f fs =>
      have hdistinct : ((m.namesakes name).map Func.name).Nodup :=
        h.sublist (List.filter_sublist.map Func.name)
      cases fs with
      | nil => rfl
      | cons g gs =>
          have hname : ∀ b ∈ m.namesakes name, b.name = name :=
            fun b hb => (mem_namesakes_iff.1 hb).2
          rw [hm] at hname hdistinct
          rw [List.map_cons, List.nodup_cons, hname f (List.mem_cons_self ..)] at hdistinct
          refine absurd ?_ hdistinct.1
          rw [← hname g (List.mem_cons_of_mem _ (List.mem_cons_self ..))]
          exact List.mem_map_of_mem (List.mem_cons_self ..)

/-- Changing a function by its name replaces the first of that name. -/
theorem namesakes_modifyFunc {name : String} {f g : Func} (hf : m.func? name = some f)
    (hg : g.name = name) (n : String) : (m.modifyFunc name fun _ => g).namesakes n =
      if n = name then g :: (m.namesakes n).tail else m.namesakes n :=
  filter_modifyFirst_key hf hg n

/-- Replacing the function of a name changes what this name means, and no other. -/
theorem func?_modifyFunc {name : String} {f g : Func} (hf : m.func? name = some f)
    (hg : g.name = name) (n : String) :
    (m.modifyFunc name fun _ => g).func? n = if n = name then some g else m.func? n := by
  rw [← head?_namesakes, namesakes_modifyFunc hf hg]
  split
  · rfl
  · exact m.head?_namesakes n

/-- An added function is found if none of its name was there. -/
theorem func?_addFunc (f : Func) (m : Module) (n : String) :
    (m.addFunc f).func? n = (m.func? n).or (if f.name = n then some f else none) := by
  rw [func?, addFunc, List.find?_append, ← func?, List.find?_singleton]
  by_cases h : f.name = n <;> simp [h]

/-- Changes that keep names do not change which function a name means. -/
theorem func?_mapFuncs {k : Func → Func} (hk : ∀ f, (k f).name = f.name) (m : Module) (n : String) :
    (m.mapFuncs k).func? n = (m.func? n).map k := by
  rw [func?, functions_mapFuncs, List.find?_map]
  simp only [Function.comp_def, hk]
  rfl

/-- Removing a function takes away the first one of its name. -/
theorem namesakes_eraseFunc (name : String) (m : Module) (n : String) :
    (m.eraseFunc name).namesakes n =
      if name = n then (m.namesakes n).tail else m.namesakes n :=
  filter_eraseP_key Func.name name n m.functions

/-- Removing functions by name takes the first one away for each time that its name occurs. -/
theorem namesakes_foldl_eraseFunc (names : List String) (m : Module) (n : String) :
    (names.foldl (fun m name => m.eraseFunc name) m).namesakes n =
      (m.namesakes n).drop (names.count n) := by
  induction names generalizing m with
  | nil => rfl
  | cons name names ih =>
      rw [List.foldl_cons, ih, namesakes_eraseFunc]
      by_cases hname : name = n
      · rw [if_pos hname, hname, List.count_cons_self, ← List.drop_one, List.drop_drop,
          Nat.add_comm]
      · rw [if_neg hname, List.count_cons_of_ne hname]

/-- Where something names a function, all of its name are kept. Otherwise as many go, from the first
one on, as have no loaded body. -/
theorem namesakes_dropUnused (m : Module) (n : String) : m.dropUnused.namesakes n =
    (m.namesakes n).drop (if m.useCount n = 0 then
      (m.namesakes n).countP fun f => f.isDeclared || f.isStored else 0) := by
  rw [dropUnused, namesakes_foldl_eraseFunc]
  congr 1
  rw [unused, List.count, List.countP_map, List.countP_filter, namesakes, List.countP_filter]
  by_cases huse : m.useCount n = 0
  · rw [if_pos huse]
    refine List.countP_congr fun f _ => ?_
    by_cases hname : f.name = n <;> simp [hname, huse]
  · rw [if_neg huse, List.countP_eq_zero]
    intro f _
    by_cases hname : f.name = n <;> simp [hname, huse]

/-- Dropping what is unused adds no function. -/
theorem mem_namesakes_of_dropUnused {name : String} {f : Func}
    (h : f ∈ m.dropUnused.namesakes name) : f ∈ m.namesakes name := by
  rw [namesakes_dropUnused] at h
  exact List.mem_of_mem_drop h

end Module

end Postlink

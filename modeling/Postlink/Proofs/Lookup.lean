import Postlink.Proofs.Bodies
import Postlink.Erasure
import Mathlib.Data.List.Perm.Subperm

/-!
# Functions found by name

A name means the first function that carries it. Where names are distinct that function is the only
one, so changing it by name is a map over the functions and removing it by name is a filter. Staged
removal is then independent of the order in which things were staged (`carryOut_module`). A name
that no symbol has is always found (`taken_freeName`), as there are more candidates than symbols.
-/

namespace Postlink

section Runs

variable {ε α β : Type}

/-- A computation that succeeds has succeeded in its first part. -/
theorem bind_eq_ok {x : Except ε α} {f : α → Except ε β} {b : β} (h : x >>= f = .ok b) :
    ∃ a, x = .ok a ∧ f a = .ok b := by
  cases x with
  | error e => cases h
  | ok a => exact ⟨a, rfl, h⟩

/-- A result that was changed is the result of a computation that succeeds. -/
theorem map_eq_ok {x : Except ε α} {f : α → β} {b : β} (h : x.map f = .ok b) :
    ∃ a, x = .ok a ∧ f a = b := by
  cases x with
  | error e => cases h
  | ok a => exact ⟨a, rfl, Except.ok.inj h⟩

/-- A computation whose result has some property succeeds. -/
theorem exists_ok_of_any {x : Except ε α} {p : α → Bool} (h : x.toOption.any p = true) :
    ∃ a, x = .ok a ∧ p a = true := by
  cases x with
  | error e => cases h
  | ok a => exact ⟨a, rfl, h⟩

/-- A computation that succeeds has a result. -/
theorem exists_ok_of_isOk {x : Except ε α} (h : x.isOk = true) : ∃ a, x = .ok a := by
  cases x with
  | error e => cases h
  | ok a => exact ⟨a, rfl⟩

/-- A computation of whose result something is known succeeds. -/
theorem exists_ok_of_map {x : Except ε α} {f : α → β} {b : β} (h : x.toOption.map f = some b) :
    ∃ a, x = .ok a ∧ f a = b := by
  cases x with
  | error e => cases h
  | ok a => exact ⟨a, rfl, Option.some.inj h⟩

/-- Steps that change nothing change nothing together. -/
theorem foldlM_eq_self {step : β → α → Except ε β} {as : List α} {b : β}
    (h : ∀ a ∈ as, step b a = .ok b) : as.foldlM step b = .ok b := by
  induction as with
  | nil => rfl
  | cons a as ih =>
      rw [List.foldlM_cons, h a (List.mem_cons_self ..)]
      exact ih fun c hc => h c (List.mem_cons_of_mem _ hc)

/-- What every step keeps, a run that succeeds keeps. -/
theorem foldlM_induction {step : β → α → Except ε β} {motive : β → Prop}
    {as : List α} {b c : β} (start : motive b)
    (next : ∀ s a s', a ∈ as → motive s → step s a = .ok s' → motive s')
    (h : as.foldlM step b = .ok c) : motive c := by
  induction as generalizing b with
  | nil =>
      cases h
      exact start
  | cons a as ih =>
      rw [List.foldlM_cons] at h
      obtain ⟨d, hd, h⟩ := bind_eq_ok h
      refine ih (next b a d (List.mem_cons_self ..) start hd) ?_ h
      intro s a' s' ha'
      exact next s a' s' (List.mem_cons_of_mem _ ha')

/-- A run that succeeds, followed by what has been done. -/
theorem foldlM_done_induction {step : β → α → Except ε β} {motive : List α → β → Prop}
    {done as : List α} {b c : β} (start : motive done b)
    (next : ∀ done a s s', a ∈ as → motive done s → step s a = .ok s' → motive (done ++ [a]) s')
    (h : as.foldlM step b = .ok c) : motive (done ++ as) c := by
  induction as generalizing b done with
  | nil =>
      cases h
      rwa [List.append_nil]
  | cons a as ih =>
      rw [List.foldlM_cons] at h
      obtain ⟨d, hd, h⟩ := bind_eq_ok h
      rw [List.append_cons]
      refine ih (next done a b d (List.mem_cons_self ..) start hd) ?_ h
      intro done' a' s s' ha'
      exact next done' a' s s' (List.mem_cons_of_mem _ ha')

/-- What a step at each position keeps, a run over all positions keeps. -/
theorem foldlM_range_induction {step : α → Nat → Except ε α} {motive : Nat → α → Prop} {n : Nat}
    {a b : α} (start : motive 0 a)
    (next : ∀ k < n, ∀ c d, motive k c → step c k = .ok d → motive (k + 1) d)
    (h : (List.range n).foldlM step a = .ok b) : motive n b := by
  induction n generalizing b with
  | zero =>
      cases h
      exact start
  | succ n ih =>
      rw [List.range_succ, List.foldlM_append] at h
      obtain ⟨c, hc, h⟩ := bind_eq_ok h
      rw [List.foldlM_cons] at h
      obtain ⟨d, hd, h⟩ := bind_eq_ok h
      cases h
      have hbefore := ih (fun k hk => next k (Nat.lt_succ_of_lt hk)) hc
      exact next n (Nat.lt_succ_self n) c b hbefore hd

/-- A run whose steps all succeed succeeds, and keeps what they keep. -/
theorem exists_foldlM_of_mem {step : β → α → Except ε β} {motive : β → Prop} {as : List α} {b : β}
    (start : motive b) (next : ∀ s, ∀ a ∈ as, motive s → ∃ s', step s a = .ok s' ∧ motive s') :
    ∃ c, as.foldlM step b = .ok c ∧ motive c := by
  induction as generalizing b with
  | nil => exact ⟨b, rfl, start⟩
  | cons a as ih =>
      obtain ⟨d, hd, hmotive⟩ := next b a (List.mem_cons_self ..) start
      obtain ⟨c, hc, hend⟩ := ih hmotive fun s a' ha' => next s a' (List.mem_cons_of_mem _ ha')
      refine ⟨c, ?_, hend⟩
      rw [List.foldlM_cons, hd]
      exact hc

/-- The same for steps that succeed whatever they are given. -/
theorem exists_foldlM {step : β → α → Except ε β} {motive : β → Prop} {b : β}
    (start : motive b) (next : ∀ s a, motive s → ∃ s', step s a = .ok s' ∧ motive s')
    (as : List α) : ∃ c, as.foldlM step b = .ok c ∧ motive c :=
  exists_foldlM_of_mem start fun s a _ => next s a

/-- The same where every step spends a part of what there is. -/
theorem exists_foldlM_spend {step : β → α → Except ε β} {motive : Nat → β → Prop} {cost top : Nat}
    (next : ∀ n s, ∀ a : α, motive n s → n + cost < top → ∃ s', step s a = .ok s' ∧
      motive (n + cost) s') (as : List α) {n : Nat} {b : β} (start : motive n b)
    (hroom : n + as.length * cost < top) :
    ∃ c, as.foldlM step b = .ok c ∧ motive (n + as.length * cost) c := by
  induction as generalizing n b with
  | nil => exact ⟨b, rfl, by simpa using start⟩
  | cons a as ih =>
      have hlength : n + (a :: as).length * cost = n + cost + as.length * cost := by
        rw [List.length_cons, Nat.succ_mul, Nat.add_comm (as.length * cost), Nat.add_assoc]
      rw [hlength] at hroom ⊢
      obtain ⟨d, hd, hmotive⟩ := next n b a start (Nat.lt_of_le_of_lt (Nat.le_add_right _ _) hroom)
      obtain ⟨c, hc, hend⟩ := ih hmotive hroom
      refine ⟨c, ?_, hend⟩
      rw [List.foldlM_cons, hd]
      exact hc

/-- The same for a run over positions, by how far it has come. -/
theorem exists_foldlM_range {step : α → Nat → Except ε α} {motive : Nat → α → Prop} {a : α}
    (start : motive 0 a) (next : ∀ k c, motive k c → ∃ d, step c k = .ok d ∧ motive (k + 1) d)
    (n : Nat) : ∃ b, (List.range n).foldlM step a = .ok b ∧ motive n b := by
  induction n with
  | zero => exact ⟨a, rfl, start⟩
  | succ n ih =>
      obtain ⟨c, hc, hmotive⟩ := ih
      obtain ⟨d, hd, hnext⟩ := next n c hmotive
      refine ⟨d, ?_, hnext⟩
      rw [List.range_succ, List.foldlM_append, hc]
      exact (bind_pure _).trans hd

end Runs

section Lists

variable {α : Type}

/-- Expanding some elements to nothing and the others to themselves is a filter. -/
theorem flatMap_ite_eq_filter (p : α → Prop) [DecidablePred p] (as : List α) :
    (as.flatMap fun a => if p a then [] else [a]) = as.filter fun a => ¬ p a := by
  induction as with
  | nil => rfl
  | cons a as ih =>
      rw [List.flatMap_cons, ih]
      by_cases h : p a <;> simp [h]

/-- What is left of a list without its repetitions has none. -/
theorem nodup_eraseDups [DecidableEq α] (as : List α) : as.eraseDups.Nodup := by
  induction hlength : as.length using Nat.strongRecOn generalizing as with
  | ind n ih =>
      cases as with
      | nil => exact List.nodup_nil
      | cons a as =>
          rw [List.length_cons] at hlength
          have hle := List.length_filter_le (fun b => !b == a) as
          rw [List.eraseDups_cons, List.nodup_cons, List.mem_eraseDups, List.mem_filter]
          exact ⟨fun hmem => by simp at hmem, ih _ (by omega) _ rfl⟩

/-- Two lists without repetitions have as many elements in common, counted on either. -/
theorem countP_mem_comm [DecidableEq α] {as bs : List α} (has : as.Nodup) (hbs : bs.Nodup) :
    as.countP (fun a => a ∈ bs) = bs.countP fun b => b ∈ as := by
  have hperm : (as.filter fun a => a ∈ bs).Perm (bs.filter fun b => b ∈ as) := by
    refine (List.perm_ext_iff_of_nodup (has.filter _) (hbs.filter _)).2 fun a => ?_
    simp only [List.mem_filter, decide_eq_true_eq]
    exact And.comm
  rw [List.countP_eq_length_filter, List.countP_eq_length_filter, hperm.length_eq]

end Lists

section FirstMatch

variable {α κ : Type} [DecidableEq κ] {key : α → κ} {name : κ}

/-- Where keys are distinct, searching for a key finds the element that carries it. -/
theorem find?_eq_some_iff_of_nodup {as : List α} (h : (as.map key).Nodup) {a : α} :
    as.find? (fun b => key b = name) = some a ↔ a ∈ as ∧ key a = name := by
  constructor
  · intro hf
    exact ⟨List.mem_of_find?_eq_some hf, by simpa using List.find?_some hf⟩
  · rintro ⟨ha, rfl⟩
    cases hf : as.find? (fun b => key b = key a) with
    | none =>
        have := List.find?_eq_none.1 hf a ha
        simp at this
    | some b =>
        have hb : key b = key a := by simpa using List.find?_some hf
        rw [List.inj_on_of_nodup_map h (List.mem_of_find?_eq_some hf) ha hb]

/-- Where keys are distinct, removing the first element with a key removes every one with it. -/
theorem eraseP_eq_filter {as : List α} (h : (as.map key).Nodup) :
    (as.eraseP fun a => key a = name) = as.filter fun a => key a ≠ name := by
  induction as with
  | nil => rfl
  | cons a as ih =>
      rw [List.map_cons, List.nodup_cons] at h
      by_cases ha : key a = name
      · have hne : ∀ b ∈ as, key b ≠ name := fun b hb he =>
          h.1 ((ha.trans he.symm) ▸ List.mem_map_of_mem hb)
        have hall : (as.filter fun b => key b ≠ name) = as :=
          List.filter_eq_self.2 fun b hb => by simpa using hne b hb
        simp [ha]
        simpa using hall.symm
      · simp [ha]
        simpa using ih h.2

end FirstMatch

namespace Module

/-- No two functions share a name. -/
def DistinctNames (m : Module) : Prop := (m.functions.map Func.name).Nodup

instance (m : Module) : Decidable m.DistinctNames :=
  inferInstanceAs (Decidable (m.functions.map Func.name).Nodup)

variable {m : Module}

/-- With distinct names, a name means the function that carries it. -/
theorem DistinctNames.func?_eq_some_iff (h : m.DistinctNames) {name : String} {f : Func} :
    m.func? name = some f ↔ f ∈ m.functions ∧ f.name = name :=
  find?_eq_some_iff_of_nodup h

/-- With distinct names, every function is found. -/
theorem DistinctNames.func?_eq (h : m.DistinctNames) {f : Func} (hf : f ∈ m.functions) :
    m.func? f.name = some f :=
  h.func?_eq_some_iff.2 ⟨hf, rfl⟩

/-- A function is found under its own name. -/
theorem mem_of_func? {name : String} {f : Func} (h : m.func? name = some f) :
    f ∈ m.functions ∧ f.name = name :=
  ⟨List.mem_of_find?_eq_some h, by simpa using List.find?_some h⟩

/-- A name without a function is carried by none. -/
theorem func?_eq_none_iff {name : String} :
    m.func? name = none ↔ ∀ f ∈ m.functions, f.name ≠ name := by
  simp [func?, List.find?_eq_none]

/-- A name has a function exactly when it is one of the names. -/
theorem isSome_func?_iff {name : String} :
    (m.func? name).isSome = true ↔ name ∈ m.functions.map Func.name := by
  rw [func?, List.find?_isSome, List.mem_map]
  simp

/-- With distinct names, changing a function by name is a map. -/
theorem DistinctNames.modifyFunc_functions (h : m.DistinctNames) (name : String) (g : Func → Func) :
    (m.modifyFunc name g).functions =
      m.functions.map fun f => if f.name = name then g f else f :=
  modifyFirst_eq_map h

/-- With distinct names, removing a function by name is a filter. -/
theorem DistinctNames.eraseFunc_functions (h : m.DistinctNames) (name : String) :
    (m.eraseFunc name).functions = m.functions.filter fun f => f.name ≠ name :=
  eraseP_eq_filter h

end Module

namespace Func

/-- The function without the instructions that are staged for removal from it. -/
def clear (staged : List (String × Nat)) (f : Func) : Func :=
  f.expand fun i => if (f.name, i.id) ∈ staged then [] else [i]

@[simp] theorem name_clear (staged : List (String × Nat)) (f : Func) :
    (f.clear staged).name = f.name := rfl

@[simp] theorem clear_nil (f : Func) : f.clear [] = f := by
  simp [clear]

/-- What is left is what was not staged. -/
theorem instrs_clear (staged : List (String × Nat)) (f : Func) :
    (f.clear staged).instrs = f.instrs.filter fun i => (f.name, i.id) ∉ staged := by
  rw [clear, instrs_expand, flatMap_ite_eq_filter]

/-- Removing staged instructions keeps identifiers distinct. -/
theorem nodup_clear {f : Func} (h : (f.instrs.map Instr.id).Nodup) (staged : List (String × Nat)) :
    ((f.clear staged).instrs.map Instr.id).Nodup := by
  rw [instrs_clear]
  exact h.sublist ((List.filter_sublist).map Instr.id)

/-- Staged instructions can be removed one after the other. -/
theorem clear_cons {f : Func} (target : String × Nat) (staged : List (String × Nat)) :
    f.clear (target :: staged) = (f.clear [target]).clear staged := by
  rw [clear, clear, clear, expand_expand]
  apply expand_congr
  intro i _
  by_cases h : (f.name, i.id) = target <;> by_cases hs : (f.name, i.id) ∈ staged <;>
    simp [h, hs]

/-- Removing one instruction by its identifier clears it. -/
theorem eraseInstr_eq_clear {f : Func} (h : (f.instrs.map Instr.id).Nodup) (k : Nat) :
    f.eraseInstr k = f.clear [(f.name, k)] := by
  rw [eraseInstr_eq_expand h, clear]
  apply expand_congr
  intro i _
  by_cases hk : i.id = k <;> simp [hk]

/-- Only the function's own staged instructions count. -/
theorem clear_congr {f : Func} {staged staged' : List (String × Nat)}
    (h : ∀ i ∈ f.instrs, (f.name, i.id) ∈ staged ↔ (f.name, i.id) ∈ staged') :
    f.clear staged = f.clear staged' := by
  rw [clear, clear]
  apply expand_congr
  intro i hi
  simp only [h i hi]

/-- Removing instructions that are not there changes nothing. -/
theorem clear_of_forall {f : Func} {staged : List (String × Nat)}
    (h : ∀ i ∈ f.instrs, (f.name, i.id) ∉ staged) : f.clear staged = f := by
  refine (clear_congr fun i hi => ?_).trans f.clear_nil
  simpa using h i hi

end Func

namespace Module

/-- Different numbers are written differently. -/
theorem numbered_inj {base : String} {a b : Nat} (h : numbered base a = numbered base b) :
    a = b := by
  simp only [numbered, String.append_right_inj, Nat.toString_eq_ofList_toDigits,
    String.ofList_inj] at h
  have hvalue := congrArg (fun ds => Nat.ofDigitChars 10 ds 0) h
  simpa only [Nat.ofDigitChars_ten_toDigits] using hvalue

/-- A numbered name differs from its base. -/
theorem numbered_ne_self (base : String) (n : Nat) : numbered base n ≠ base := by
  intro h
  have hlength := congrArg String.length h
  simp only [numbered, String.length_append] at hlength
  have hdot : ".".length = 1 := rfl
  omega

theorem nodup_candidates (base : String) (count : Nat) : (candidates base count).Nodup :=
  List.Nodup.map_on (fun _ _ _ _ h => numbered_inj h) List.nodup_range'

/-- Candidates are distinct, so a shorter list of names cannot hold them all. -/
theorem exists_candidate_not_mem (base : String) {names : List String} {count : Nat}
    (h : names.length < count) : ∃ n ∈ candidates base count, n ∉ names := by
  by_contra hnone
  push Not at hnone
  have hlength := ((nodup_candidates base count).subperm hnone).length_le
  rw [candidates, List.length_map, List.length_range'] at hlength
  omega

/-- A name is taken if a function or a variable has it. -/
theorem taken_iff {m : Module} {name : String} : m.taken name = true ↔
    name ∈ m.functions.map Func.name ++ m.globals.map Global.name := by
  rw [taken, Bool.or_eq_true, isSome_func?_iff, List.mem_append, global?, List.find?_isSome]
  simp

/-- A candidate is free if the base is taken: it is one of the symbols and no candidate. -/
theorem exists_candidate_free {m : Module} {base : String} (h : m.taken base = true) :
    ∃ n ∈ candidates base (m.functions.length + m.globals.length), m.taken n = false := by
  rw [taken_iff] at h
  let symbols := m.functions.map Func.name ++ m.globals.map Global.name
  have hcount : (symbols.erase base).length < m.functions.length + m.globals.length := by
    have hpos := List.length_pos_of_mem h
    rw [List.length_erase_of_mem h]
    simp only [List.length_append, List.length_map] at hpos ⊢
    omega
  obtain ⟨n, hn, hnew⟩ := exists_candidate_not_mem base hcount
  refine ⟨n, hn, ?_⟩
  rw [← Bool.not_eq_true, taken_iff]
  obtain ⟨k, _, rfl⟩ := List.mem_map.1 hn
  rwa [List.mem_erase_of_ne (numbered_ne_self base k)] at hnew

/-- A free name is no symbol of the module. -/
theorem taken_freeName (base : String) (m : Module) : m.taken (m.freeName base) = false := by
  unfold freeName
  split
  · rename_i hbase
    obtain ⟨n, hn, hfree⟩ := exists_candidate_free hbase
    have hfind : ((candidates base (m.functions.length + m.globals.length)).find?
        fun n => !m.taken n).isSome = true := by
      rw [List.find?_isSome]
      exact ⟨n, hn, by rw [hfree, Bool.not_false]⟩
    obtain ⟨k, hk⟩ := Option.isSome_iff_exists.1 hfind
    rw [hk, Option.getD_some]
    simpa using List.find?_some hk
  · rename_i hbase
    exact Bool.of_not_eq_true hbase

/-- A free name is no name of a function. -/
theorem freeName_notMem (base : String) (m : Module) :
    m.freeName base ∉ m.functions.map Func.name := by
  have hfree := taken_freeName base m
  rw [← Bool.not_eq_true, taken_iff, List.mem_append, not_or] at hfree
  exact hfree.1

/-- Every function that a loaded body names is a function of the module. -/
def Closed (m : Module) : Prop :=
  ∀ f ∈ m.functions, ∀ o ∈ f.operands, ∀ name ∈ o.func?, (m.func? name).isSome = true

instance (m : Module) : Decidable m.Closed :=
  inferInstanceAs (Decidable (∀ f ∈ m.functions, ∀ o ∈ f.operands, ∀ name ∈ o.func?,
    (m.func? name).isSome = true))

/-- No function has two instructions with one identifier. -/
def DistinctIds (m : Module) : Prop := ∀ f ∈ m.functions, (f.instrs.map Instr.id).Nodup

instance (m : Module) : Decidable m.DistinctIds :=
  inferInstanceAs (Decidable (∀ f ∈ m.functions, (f.instrs.map Instr.id).Nodup))

/-- Every function's identifiers are distinct and below its counter. -/
def Numbered (m : Module) : Prop := ∀ f ∈ m.functions, f.Numbered

instance (m : Module) : Decidable m.Numbered :=
  inferInstanceAs (Decidable (∀ f ∈ m.functions, f.Numbered))

/-- The module with only the functions that satisfy a condition. -/
def keep (p : Func → Bool) (m : Module) : Module := { m with functions := m.functions.filter p }

@[simp] theorem functions_mapFuncs (g : Func → Func) (m : Module) :
    (m.mapFuncs g).functions = m.functions.map g := rfl

/-- Changes that agree on the functions of a module give the same module. -/
theorem mapFuncs_congr {m : Module} {g k : Func → Func} (h : ∀ f ∈ m.functions, g f = k f) :
    m.mapFuncs g = m.mapFuncs k := by
  rw [mapFuncs, List.map_congr_left h, mapFuncs]

/-- A change that changes no function of the module. -/
theorem mapFuncs_eq_self {m : Module} {g : Func → Func} (h : ∀ f ∈ m.functions, g f = f) :
    m.mapFuncs g = m := by
  rw [mapFuncs, List.map_congr_left h, List.map_id']

/-- With distinct names, changing a function by name changes only that function. -/
theorem DistinctNames.modifyFunc_eq {m : Module} (h : m.DistinctNames) (name : String)
    (g : Func → Func) :
    m.modifyFunc name g = m.mapFuncs fun f => if f.name = name then g f else f := by
  rw [Module.mapFuncs, ← h.modifyFunc_functions]
  rfl

/-- A function in the place of one that looks the same. -/
theorem map_setFunc {β : Type} {look : Func → β} {m : Module} {index : Nat} {f g : Func}
    (hf : m.functions[index]? = some f) (h : look g = look f) :
    (m.setFunc index g).functions.map look = m.functions.map look := by
  obtain ⟨hlt, rfl⟩ := List.getElem?_eq_some_iff.1 hf
  have hlt' : index < (m.functions.map look).length := by rwa [List.length_map]
  have hself : look g = (m.functions.map look)[index] := by rw [List.getElem_map, h]
  rw [setFunc, List.map_set, hself, List.set_getElem_self]

/-- Changes that keep names keep them distinct. -/
theorem DistinctNames.mapFuncs {m : Module} (h : m.DistinctNames) {g : Func → Func}
    (hg : ∀ f, (g f).name = f.name) : (m.mapFuncs g).DistinctNames := by
  rw [DistinctNames, functions_mapFuncs, List.map_map]
  rwa [show Func.name ∘ g = Func.name from funext hg]

/-- A function under a new name keeps names distinct. -/
theorem DistinctNames.addFunc {m : Module} (h : m.DistinctNames) {f : Func}
    (hnew : f.name ∉ m.functions.map Func.name) : (m.addFunc f).DistinctNames := by
  rw [DistinctNames, Module.addFunc, List.map_append, List.map_singleton, ← List.concat_eq_append]
  exact h.concat hnew

/-- Leaving out functions keeps names distinct. -/
theorem DistinctNames.keep {m : Module} (h : m.DistinctNames) (p : Func → Bool) :
    (m.keep p).DistinctNames :=
  List.Nodup.sublist ((List.filter_sublist).map Func.name) h

/-- Removing staged instructions keeps identifiers distinct. -/
theorem DistinctIds.clear {m : Module} (h : m.DistinctIds) (staged : List (String × Nat)) :
    (m.mapFuncs (Func.clear staged)).DistinctIds := by
  intro f hf
  obtain ⟨g, hg, rfl⟩ := List.mem_map.1 hf
  exact Func.nodup_clear (h g hg) staged

end Module

namespace Erasure

@[simp] theorem instrs_addFunc (name : String) (e : Erasure) :
    (addFunc name e).instrs = e.instrs := by
  unfold addFunc
  split <;> rfl

/-- Staging a function adds its name to those staged. -/
theorem mem_functions_addFunc {name n : String} {e : Erasure} :
    n ∈ (addFunc name e).functions ↔ n ∈ e.functions ∨ n = name := by
  unfold addFunc
  split
  · rename_i hmem
    refine ⟨Or.inl, ?_⟩
    rintro (hn | rfl)
    · exact hn
    · exact hmem
  · simp

/-- Removing one staged instruction clears it from every function. -/
theorem eraseInstr_fst {s : Module × Nat} (hnames : s.1.DistinctNames) (hids : s.1.DistinctIds)
    (target : String × Nat) : (eraseInstr s target).1 = s.1.mapFuncs (Func.clear [target]) := by
  unfold eraseInstr
  split
  · rename_i hnone
    have hself : ∀ f ∈ s.1.functions, f.clear [target] = f := by
      intro f hf
      refine Func.clear_of_forall fun i hi he => ?_
      rw [List.mem_singleton] at he
      subst he
      obtain ⟨j, hj⟩ := Func.exists_instr?_of_mem hi
      simp [hnames.func?_eq hf, hj] at hnone
    rw [Module.mapFuncs_eq_self hself]
  · have hclear : ∀ f ∈ s.1.functions,
        (if f.name = target.1 then f.eraseInstr target.2 else f) = f.clear [target] := by
      intro f hf
      by_cases hname : f.name = target.1
      · rw [if_pos hname, Func.eraseInstr_eq_clear (hids f hf), hname]
      · rw [if_neg hname, Func.clear_of_forall]
        intro i _ he
        exact hname (congrArg Prod.fst (List.mem_singleton.1 he))
    rw [← Module.mapFuncs_congr hclear, ← hnames.modifyFunc_eq]

/-- Removing staged instructions one by one clears them all, in whatever order they come. -/
theorem foldl_eraseInstr_fst {s : Module × Nat} (hnames : s.1.DistinctNames)
    (hids : s.1.DistinctIds) (staged : List (String × Nat)) :
    (staged.foldl eraseInstr s).1 = s.1.mapFuncs (Func.clear staged) := by
  induction staged generalizing s with
  | nil =>
      have hself : ∀ f ∈ s.1.functions, f.clear [] = f := fun f _ => Func.clear_nil f
      rw [Module.mapFuncs_eq_self hself, List.foldl_nil]
  | cons target staged ih =>
      have hstep := eraseInstr_fst hnames hids target
      have hnames' := hnames.mapFuncs (g := Func.clear [target]) fun f => f.name_clear _
      have hids' := hids.clear [target]
      rw [← hstep] at hnames' hids'
      rw [List.foldl_cons, ih hnames' hids', hstep]
      simp only [Module.mapFuncs, List.map_map]
      congr 1
      exact List.map_congr_left fun f _ => (Func.clear_cons target staged).symm

/-- Removing one staged function leaves the others. -/
theorem eraseFunc_fst {s : Module × Nat} (hnames : s.1.DistinctNames) (name : String) :
    (eraseFunc s name).1 = s.1.keep fun f => f.name ≠ name := by
  unfold eraseFunc
  split
  · rename_i hnone
    have hall : (s.1.functions.filter fun f => f.name ≠ name) = s.1.functions :=
      List.filter_eq_self.2 fun f hf => by simpa using Module.func?_eq_none_iff.1 hnone f hf
    rw [Module.keep, hall]
  · rw [Module.keep, ← hnames.eraseFunc_functions name]
    rfl

/-- Removing staged functions one by one leaves those that were not staged. -/
theorem foldl_eraseFunc_fst {s : Module × Nat} (hnames : s.1.DistinctNames)
    (names : List String) : (names.foldl eraseFunc s).1 = s.1.keep fun f => f.name ∉ names := by
  induction names generalizing s with
  | nil => simp [Module.keep]
  | cons name names ih =>
      have hstep := eraseFunc_fst hnames name
      have hnames' := hnames.keep fun f => f.name ≠ name
      rw [← hstep] at hnames'
      rw [List.foldl_cons, ih hnames', hstep]
      simp only [Module.keep, List.filter_filter]
      congr 1
      apply List.filter_congr
      intro f _
      by_cases h : f.name = name <;> simp [h]

/-- Carrying out a staged removal clears the instructions and then leaves out the functions. -/
theorem carryOut_module {m : Module} (hnames : m.DistinctNames) (hids : m.DistinctIds)
    (e : Erasure) :
    (e.carryOut m).module =
      (m.mapFuncs (Func.clear e.instrs)).keep fun f => f.name ∉ e.functions := by
  have hclear := foldl_eraseInstr_fst (s := (m, 0)) hnames hids e.instrs
  have hnames' := hnames.mapFuncs (g := Func.clear e.instrs) fun f => f.name_clear _
  rw [← hclear] at hnames' ⊢
  exact foldl_eraseFunc_fst hnames' e.functions

end Erasure

end Postlink

import Postlink.Proofs.Demand.Closure
import Postlink.Proofs.Namesakes

/-!
# What a visit changes

In the course of a walk, functions change in two ways: stored bodies are decoded, and calls adopt
conventions. That leaves the modules what they are once all bodies are decoded (`Module.Opens`),
also if several functions share a name. Each step of a walk visits one function, and loads its body
first if a request asked for it (`Demand.Attended`).
-/

namespace Postlink

namespace Func

/-- Before it is decoded, a body calls nothing. -/
theorem callees_of_isStored {f : Func} (h : f.isStored = true) : f.callees = [] := by
  rw [callees, instrs_of_isStored h]
  rfl

/-- Decoding and conventions do not make a definition. -/
theorem isDeclared_of_opened {f g : Func} (h : g.opened.neutral = f.opened.neutral) :
    g.isDeclared = f.isDeclared := by
  rw [← g.isDeclared_opened, ← isDeclared_neutral, h, isDeclared_neutral, isDeclared_opened]

end Func

namespace Module

/-- A function whose body is stored has one. -/
theorem defines_of_stores {m : Module} {name : String} (h : m.stores name = true) :
    m.defines name = true := by
  obtain ⟨f, hf, hstored⟩ := stores_iff.1 h
  exact defines_iff.2 ⟨f, hf, Func.isDeclared_of_isStored hstored⟩

/-- The names that the function with a name calls, once its body is decoded. -/
def callees (name : String) (m : Module) : List String :=
  (m.func? name).elim [] fun f => f.opened.callees

/-- The same functions, some of them with their bodies decoded, up to conventions. Only the first
function of a name can differ. -/
structure Opens (m m' : Module) : Prop where
  /-- The first function of a name is the same, apart from its convention and what is decoded. -/
  heads : ∀ name, (m'.func? name).map (fun f => f.opened.neutral) =
    (m.func? name).map fun f => f.opened.neutral
  /-- The others are untouched. -/
  tails : ∀ name, (m'.namesakes name).tail = (m.namesakes name).tail
  /-- No body is stored that was not. -/
  stored : ∀ name, m'.stores name = true → m.stores name = true

namespace Opens

variable {m m' : Module}

theorem refl (m : Module) : m.Opens m := ⟨fun _ => rfl, fun _ => rfl, fun _ h => h⟩

/-- What is found after decoding some bodies was there before. -/
theorem exists_func? (h : m.Opens m') {name : String} {g : Func} (hg : m'.func? name = some g) :
    ∃ f, m.func? name = some f ∧ g.opened.neutral = f.opened.neutral := by
  have hhead := h.heads name
  rw [hg, Option.map_some, eq_comm, Option.map_eq_some_iff] at hhead
  obtain ⟨f, hf, hsame⟩ := hhead
  exact ⟨f, hf, hsame.symm⟩

/-- What was there is found after decoding some bodies. -/
theorem exists_func?' (h : m.Opens m') {name : String} {f : Func} (hf : m.func? name = some f) :
    ∃ g, m'.func? name = some g ∧ g.opened.neutral = f.opened.neutral := by
  have hhead := h.heads name
  rw [hf, Option.map_some, Option.map_eq_some_iff] at hhead
  exact hhead

/-- Decoding bodies removes no function. -/
theorem func?_eq_none (h : m.Opens m') {name : String} (hg : m'.func? name = none) :
    m.func? name = none := by
  have hhead := h.heads name
  rw [hg, Option.map_none, eq_comm, Option.map_eq_none_iff] at hhead
  exact hhead

/-- Decoding bodies does not change what is defined. -/
theorem defines_eq (h : m.Opens m') (name : String) : m'.defines name = m.defines name := by
  rw [defines_eq_any, defines_eq_any]
  cases hg : m'.func? name with
  | none => rw [h.func?_eq_none hg]
  | some g =>
      obtain ⟨f, hf, hsame⟩ := h.exists_func? hg
      rw [hf, Option.any_some, Option.any_some, Func.isDeclared_of_opened hsame]

/-- Function by function, those of a name are the same. -/
theorem map_namesakes (h : m.Opens m') (name : String) :
    (m'.namesakes name).map (fun f => f.opened.neutral) =
      (m.namesakes name).map fun f => f.opened.neutral := by
  cases hg : m'.func? name with
  | none => rw [namesakes_eq_nil hg, namesakes_eq_nil (h.func?_eq_none hg)]
  | some g =>
      obtain ⟨f, hf, hsame⟩ := h.exists_func? hg
      rw [namesakes_eq_cons hg, namesakes_eq_cons hf, List.map_cons, List.map_cons, h.tails, hsame]

/-- Of the functions of a name, the same ones are definitions. -/
theorem map_isDeclared_namesakes (h : m.Opens m') (name : String) :
    (m'.namesakes name).map Func.isDeclared = (m.namesakes name).map Func.isDeclared := by
  have hmap := congrArg (List.map Func.isDeclared) (h.map_namesakes name)
  simpa only [List.map_map, Function.comp_def, Func.isDeclared_neutral, Func.isDeclared_opened]
    using hmap

/-- Functions of one name keep their linkages. -/
theorem exists_linkage (h : m.Opens m') {name : String} {g : Func} (hg : g ∈ m'.namesakes name) :
    ∃ f ∈ m.namesakes name, f.linkage = g.linkage := by
  have hmem : g.opened.neutral ∈ (m'.namesakes name).map fun f => f.opened.neutral :=
    List.mem_map_of_mem hg
  rw [h.map_namesakes] at hmem
  obtain ⟨f, hf, hsame⟩ := List.mem_map.1 hmem
  refine ⟨f, hf, ?_⟩
  rw [← f.linkage_opened, ← Func.linkage_neutral, hsame, Func.linkage_neutral, Func.linkage_opened]

/-- Decoding and conventions do not change what is called. -/
theorem mem_callees_iff (h : m.Opens m') (name callee : String) :
    callee ∈ m'.callees name ↔ callee ∈ m.callees name := by
  rw [callees, callees]
  cases hg : m'.func? name with
  | none => rw [h.func?_eq_none hg]
  | some g =>
      obtain ⟨f, hf, hsame⟩ := h.exists_func? hg
      rw [hf, Option.elim_some, Option.elim_some, Func.mem_callees_iff_neutral, hsame,
        ← Func.mem_callees_iff_neutral]

/-- What a function calls whose body is there. -/
theorem mem_callees_of_func? (h : m.Opens m') {name : String} {g : Func}
    (hg : m'.func? name = some g) (hstored : g.isStored = false) (callee : String) :
    callee ∈ g.callees ↔ callee ∈ m.callees name := by
  rw [← h.mem_callees_iff, callees, hg, Option.elim_some, Func.opened_eq_self hstored]

/-- A function in the place of one that is the same apart from its convention and what is
decoded. -/
theorem modifyFunc (h : m.Opens m') {name : String} {f g : Func} (hf : m'.func? name = some f)
    (hname : g.name = name) (hg : g.opened.neutral = f.opened.neutral)
    (hstored : g.isStored = true → f.isStored = true) :
    m.Opens (m'.modifyFunc name fun _ => g) := by
  refine ⟨fun n => ?_, fun n => ?_, fun n => ?_⟩
  · rw [func?_modifyFunc hf hname, ← h.heads n]
    split
    · rename_i hn
      rw [hn, hf, Option.map_some, Option.map_some, hg]
    · rfl
  · rw [namesakes_modifyFunc hf hname, ← h.tails n]
    split <;> rfl
  · rw [stores, func?_modifyFunc hf hname]
    split
    · rename_i hn
      intro hst
      apply h.stored n
      rw [stores, hn, hf]
      exact hstored hst
    · exact h.stored n

end Opens

/-- Changing the function of a name changes whether its body is stored, and that of no other. -/
theorem stores_modifyFunc {m : Module} {name : String} {f g : Func} (hf : m.func? name = some f)
    (hname : g.name = name) (n : String) : (m.modifyFunc name fun _ => g).stores n =
      if n = name then g.isStored else m.stores n := by
  rw [stores, func?_modifyFunc hf hname]
  split <;> rfl

end Module

namespace Demand

variable {program library : Module} {d : Demand}

/-- A change on one side leaves the other side alone. -/
theorem module_modifyFunc (d : Demand) (side : Side) (name : String) (k : Func → Func) (s : Side) :
    (d.modifyFunc side name k).module s =
      if s = side then (d.module s).modifyFunc name k else d.module s := by
  cases side <;> cases s <;> rfl

/-- A change to a function is no visit. -/
theorem visited_modifyFunc (d : Demand) (side : Side) (name : String) (k : Func → Func) :
    (d.modifyFunc side name k).visited = d.visited := by
  cases side <;> rfl

/-- Following the calls of a function for the first time. -/
theorem visit_of_not_mem {side : Side} {name : String} {f : Func} (hnew : (side, name) ∉ d.visited)
    (hf : (d.module side).func? name = some f) : d.visit side name =
      ({ d.modifyFunc side name (fun _ => f.adoptConvention) with
          visited := (side, name) :: d.visited },
        f.callees.map fun callee => ⟨side, f.conv, callee⟩) := by
  unfold visit
  rw [if_neg hnew]
  cases side <;> simp only [module] at hf <;> simp only [module, hf] <;> rfl

/-- Visiting a name without a function only records the visit. -/
theorem visit_of_none {side : Side} {name : String} (hnew : (side, name) ∉ d.visited)
    (hf : (d.module side).func? name = none) :
    d.visit side name = ({ d with visited := (side, name) :: d.visited }, []) := by
  unfold visit
  rw [if_neg hnew]
  cases side <;> simp only [module] at hf <;> simp only [module, hf]

/-- A second visit does nothing. -/
theorem visit_of_mem {side : Side} {name : String} (hv : (side, name) ∈ d.visited) :
    d.visit side name = (d, []) := if_pos hv

/-- A visit adds its name to those visited. -/
theorem mem_visited_visit {side : Side} {name : String} {v : Side × String} :
    v ∈ (d.visit side name).1.visited ↔ v = (side, name) ∨ v ∈ d.visited := by
  by_cases hv : (side, name) ∈ d.visited
  · rw [visit_of_mem hv]
    exact ⟨Or.inr, fun h => h.elim (fun he => he ▸ hv) id⟩
  · cases hf : (d.module side).func? name with
    | none => rw [visit_of_none hv hf, List.mem_cons]
    | some f => rw [visit_of_not_mem hv hf, List.mem_cons]

/-- The requests of a visit are the calls of a function that was not visited before. -/
theorem mem_requests_visit {side : Side} {name : String} {r : Request} :
    r ∈ (d.visit side name).2 ↔ (side, name) ∉ d.visited ∧
      ∃ f, (d.module side).func? name = some f ∧
      ∃ callee ∈ f.callees, r = ⟨side, f.conv, callee⟩ := by
  by_cases hv : (side, name) ∈ d.visited
  · rw [visit_of_mem hv]
    exact ⟨fun h => absurd h List.not_mem_nil, fun h => absurd hv h.1⟩
  · cases hf : (d.module side).func? name with
    | none =>
        rw [visit_of_none hv hf]
        refine ⟨fun h => absurd h List.not_mem_nil, ?_⟩
        rintro ⟨_, f, hf', _⟩
        cases hf'
    | some f =>
        rw [visit_of_not_mem hv hf, List.mem_map]
        constructor
        · rintro ⟨callee, hcallee, rfl⟩
          exact ⟨hv, f, rfl, callee, hcallee, rfl⟩
        · rintro ⟨_, f', hf', callee, hcallee, rfl⟩
          cases hf'
          exact ⟨callee, hcallee, rfl⟩

section Opening

variable (h : ∀ s, (origin program library s).Opens (d.module s)) {side : Side} {name : String}

include h

/-- A function can be replaced by one that is the same once decoded. -/
theorem opens_modifyFunc {f g : Func} (hf : (d.module side).func? name = some f)
    (hname : g.name = name) (hg : g.opened.neutral = f.opened.neutral)
    (hstored : g.isStored = true → f.isStored = true) (s : Side) :
    (origin program library s).Opens ((d.modifyFunc side name fun _ => g).module s) := by
  rw [module_modifyFunc]
  split
  · rename_i hs
    subst hs
    exact (h s).modifyFunc hf hname hg hstored
  · exact h s

/-- A visit decodes at most some bodies. -/
theorem opens_visit (s : Side) :
    (origin program library s).Opens ((d.visit side name).1.module s) := by
  by_cases hv : (side, name) ∈ d.visited
  · rw [visit_of_mem hv]
    exact h s
  · cases hf : (d.module side).func? name with
    | none =>
        rw [visit_of_none hv hf]
        cases s
        · exact h .program
        · exact h .library
    | some f =>
        rw [visit_of_not_mem hv hf]
        have hsame : f.adoptConvention.isStored = f.isStored := Func.isStored_mapInstrs _ f
        have hopens := opens_modifyFunc h hf (g := f.adoptConvention) (Module.mem_of_func? hf).2
          (Func.neutral_opened_congr f.neutral_adoptConvention) (fun hst => hsame ▸ hst) s
        cases s
        · exact hopens
        · exact hopens

end Opening

/-- On both sides, a change to one function changes whether its body is stored, and that of no
other. -/
theorem stores_modifyFunc {side : Side} {name : String} {f g : Func}
    (hf : (d.module side).func? name = some f) (hname : g.name = name) (s : Side) (n : String) :
    ((d.modifyFunc side name fun _ => g).module s).stores n =
      if s = side ∧ n = name then g.isStored else (d.module s).stores n := by
  rw [module_modifyFunc]
  by_cases hs : s = side
  · subst hs
    rw [if_pos rfl, Module.stores_modifyFunc hf hname]
    simp only [true_and]
  · rw [if_neg hs, if_neg fun h => hs h.1]

/-- A visit loads nothing. -/
theorem stores_visit (side : Side) (name : String) (d : Demand) (s : Side) (n : String) :
    ((d.visit side name).1.module s).stores n = (d.module s).stores n := by
  by_cases hv : (side, name) ∈ d.visited
  · rw [visit_of_mem hv]
  · cases hf : (d.module side).func? name with
    | none =>
        rw [visit_of_none hv hf]
        cases s <;> rfl
    | some f =>
        rw [visit_of_not_mem hv hf]
        have hsame : f.adoptConvention.isStored = f.isStored := Func.isStored_mapInstrs _ f
        have hstores := stores_modifyFunc hf (g := f.adoptConvention) (Module.mem_of_func? hf).2 s n
        have hrest : ((d.modifyFunc side name fun _ => f.adoptConvention).module s).stores n =
            (d.module s).stores n := by
          rw [hstores]
          split
          · rename_i hsn
            obtain ⟨rfl, rfl⟩ := hsn
            rw [Module.stores, hf, hsame]
            rfl
          · rfl
        cases s
        · exact hrest
        · exact hrest

/-- Which calls are meant for the library. -/
theorem provider?_start_iff (program library : Module) (side : Side) (callee : String) :
    (start program library).provider? side callee = some .library ↔
      Needs program library side callee :=
  (Explored.start program library).provider?_eq (r := ⟨side, .c, callee⟩)

/-- What a request means is not stored if it needs nothing. -/
theorem stores_of_missing?_eq_none {r : Request} {target : Side} (h : d.missing? r = none)
    (hprovider : d.provider? r.side r.callee = some target) :
    (d.module target).stores r.callee = false := by
  cases hstores : (d.module target).stores r.callee with
  | false => rfl
  | true =>
      obtain ⟨f, hf, hstored⟩ := Module.stores_iff.1 hstores
      rw [missing?_eq_some_iff.2 ⟨hprovider, hf, hstored⟩] at h
      cases h

/-- A function is visited, after its body was loaded if need be. -/
structure Attended (program library : Module) (d : Demand) (side : Side) (name : String)
    (d' : Demand) (more : List Request) : Prop where
  /-- Bodies are decoded, and conventions change. -/
  opens : ∀ s, (origin program library s).Opens (d'.module s)
  /-- The function is visited now. -/
  visited_iff : ∀ v, v ∈ d'.visited ↔ v = (side, name) ∨ v ∈ d.visited
  /-- No other body is loaded. -/
  stores_eq : ∀ s n, ¬ (s = side ∧ n = name) → (d'.module s).stores n = (d.module s).stores n
  /-- What was loaded is loaded. -/
  loaded : ∀ s n, (d.module s).stores n = false → (d'.module s).stores n = false
  /-- The first time its calls are requested, if its body is there. -/
  asked : ∀ q ∈ more, (side, name) ∉ d.visited ∧ (d'.module side).stores name = false ∧
    q.side = side ∧ q.callee ∈ (origin program library side).callees name
  /-- Then all of them are requested. -/
  listed : (side, name) ∉ d.visited → (d'.module side).stores name = false →
    ∀ callee ∈ (origin program library side).callees name, ∃ q ∈ more, q.side = side ∧
    q.callee = callee

namespace Attended

/-- A visit attends to its name. -/
theorem of_visit (h : ∀ s, (origin program library s).Opens (d.module s)) (side : Side)
    (name : String) :
    Attended program library d side name (d.visit side name).1 (d.visit side name).2 := by
  have hbody : ∀ f, (d.module side).func? name = some f →
      (d.module side).stores name = f.isStored := by
    intro f hf
    rw [Module.stores, hf, Option.any_some]
  refine ⟨opens_visit h, fun v => mem_visited_visit, fun s n _ => stores_visit side name d s n,
    fun s n hn => (stores_visit side name d s n).trans hn, ?_, ?_⟩
  · intro q hq
    obtain ⟨hv, f, hf, callee, hcallee, rfl⟩ := mem_requests_visit.1 hq
    have hstored : f.isStored = false := by
      by_contra hstored
      rw [Func.callees_of_isStored (Bool.not_eq_false _ ▸ hstored)] at hcallee
      cases hcallee
    refine ⟨hv, ?_, rfl, ((h side).mem_callees_of_func? hf hstored callee).1 hcallee⟩
    rw [stores_visit, hbody f hf, hstored]
  · intro hv hstores callee hcallee
    rw [stores_visit] at hstores
    obtain ⟨g, hg, _⟩ : ∃ g, (origin program library side).func? name = some g ∧
        callee ∈ g.opened.callees := by
      rw [Module.callees] at hcallee
      cases hg : (origin program library side).func? name with
      | none => rw [hg] at hcallee; cases hcallee
      | some g =>
          rw [hg] at hcallee
          exact ⟨g, rfl, hcallee⟩
    obtain ⟨f, hf, _⟩ := (h side).exists_func?' hg
    rw [hbody f hf] at hstores
    have hmem := ((h side).mem_callees_of_func? hf hstores callee).2 hcallee
    exact ⟨_, mem_requests_visit.2 ⟨hv, f, hf, callee, hmem, rfl⟩, rfl, rfl⟩

/-- A request is served by loading what it means, and visiting it. -/
theorem of_supply (h : ∀ s, (origin program library s).Opens (d.module s)) {r : Request}
    {d' : Demand} {more : List Request} (hs : d.supply r = .ok (some (d', more))) :
    ∃ side, d.provider? r.side r.callee = some side ∧ (d.module side).stores r.callee = true ∧
      (d'.module side).stores r.callee = false ∧
      Attended program library d side r.callee d' more := by
  obtain ⟨side, g, g', hmissing, hload, hvisit⟩ := supply_eq_some hs
  obtain ⟨hprovider, hg, hstored⟩ := missing?_eq_some_iff.1 hmissing
  rw [Prod.mk.injEq] at hvisit
  obtain ⟨rfl, rfl⟩ := hvisit
  -- The function as it is when its body has been decoded.
  let c : Func := { g' with conv := r.conv }
  have hcstored : c.isStored = false := (Func.isStored_load hload : g'.isStored = false)
  have hcname : c.name = r.callee := (Func.name_load hload).trans (Module.mem_of_func? hg).2
  have hcneutral : c.opened.neutral = g.opened.neutral := by
    rw [Func.opened_eq_self hcstored, Func.opened_of_load hload]
    rfl
  let e : Demand := { (d.modifyFunc side r.callee fun _ => c) with loaded := d.loaded + 1 }
  have hmodule : ∀ s, e.module s = (d.modifyFunc side r.callee fun _ => c).module s := by
    intro s
    cases s <;> rfl
  have hopens : ∀ s, (origin program library s).Opens (e.module s) := by
    intro s
    rw [hmodule]
    exact opens_modifyFunc h hg hcname hcneutral (fun _ => hstored) s
  have hstores : ∀ s n, (e.module s).stores n =
      if s = side ∧ n = r.callee then false else (d.module s).stores n := by
    intro s n
    rw [hmodule, stores_modifyFunc hg hcname, hcstored]
  have hvisited : e.visited = d.visited := visited_modifyFunc d side r.callee _
  have ha := of_visit hopens side r.callee
  have hnow : (e.module side).stores r.callee = false := by
    rw [hstores, if_pos ⟨rfl, rfl⟩]
  refine ⟨side, hprovider, Module.stores_iff.2 ⟨g, hg, hstored⟩, ha.loaded _ _ hnow,
    ha.opens, ?_, ?_, ?_, ?_, ?_⟩
  · intro v
    rw [ha.visited_iff, hvisited]
  · intro s n hother
    rw [ha.stores_eq s n hother, hstores, if_neg hother]
  · intro s n hn
    refine ha.loaded s n ?_
    rw [hstores]
    split
    · rfl
    · exact hn
  · intro q hq
    rw [← hvisited]
    exact ha.asked q hq
  · rw [← hvisited]
    exact ha.listed

end Attended

end Demand

end Postlink

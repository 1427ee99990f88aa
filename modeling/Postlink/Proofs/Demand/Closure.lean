import Postlink.Demand.Walk
import Postlink.Proofs.Lookup
import Mathlib.Data.Set.Card

/-!
# The bodies that a walk loads

A program reaches a library definition if one of its bodies calls it and the program has no
definition of that name, or if the body of a definition that is reached calls it. The walk loads
these bodies and no others (`Demand.Explored.of_walk`). Apart from the bodies that are decoded it
changes conventions only, so functions are compared with their conventions set aside
(`Func.neutral`).
-/

namespace Postlink

namespace Func

/-- The function with the default convention, its own and that of its calls. -/
def neutral (f : Func) : Func := f.plain fun c => { c with conv := .c }

/-- The function with its body decoded, if it is stored and can be. -/
def opened (f : Func) : Func := f.load.toOption.getD f

@[simp] theorem name_neutral (f : Func) : f.neutral.name = f.name := rfl

@[simp] theorem linkage_neutral (f : Func) : f.neutral.linkage = f.linkage := rfl

/-- The neutral form does not depend on the convention. -/
@[simp] theorem neutral_with_conv (f : Func) (conv : Convention) :
    neutral { f with conv := conv } = f.neutral := rfl

/-- Passing the convention on to calls keeps the neutral form. -/
@[simp] theorem neutral_adoptConvention (f : Func) : f.adoptConvention.neutral = f.neutral :=
  f.plain_mapCall _ _

@[simp] theorem neutral_neutral (f : Func) : f.neutral.neutral = f.neutral := f.plain_plain _ _

theorem isStored_neutral (f : Func) : f.neutral.isStored = f.isStored :=
  isStored_mapInstrs _ f

theorem isDeclared_neutral (f : Func) : f.neutral.isDeclared = f.isDeclared := f.isDeclared_plain _

/-- Conventions do not change what is called. -/
theorem mem_callees_iff_neutral (f : Func) (callee : String) :
    callee ∈ f.callees ↔ ∃ i ∈ f.neutral.instrs, i.called? = some callee := by
  have hcalled : ∀ i : Instr,
      (i.mapCall fun c => { c with conv := .c }).called? = i.called? := by
    intro i
    cases i with
    | mk id name ty kind loc => cases kind <;> rfl
  rw [callees, List.mem_eraseDups, List.mem_filterMap, neutral, instrs_plain]
  simp [hcalled]

/-- The names that a function calls are those that one of its instructions calls. -/
theorem mem_callees_iff (f : Func) (callee : String) :
    callee ∈ f.callees ↔ ∃ i ∈ f.instrs, i.called? = some callee := by
  rw [callees, List.mem_eraseDups, List.mem_filterMap]

/-- What is not stored is decoded already. -/
theorem opened_eq_self {f : Func} (h : f.isStored = false) : f.opened = f := by
  unfold opened load
  split
  · rename_i s hs
    rw [isStored, hs] at h
    cases h
  · rfl

/-- What loading gives is the decoded function. -/
theorem opened_of_load {f g : Func} (h : f.load = .ok g) : f.opened = g := by
  rw [opened, h]
  rfl

@[simp] theorem name_opened (f : Func) : f.opened.name = f.name := by
  cases h : f.load with
  | error e => rw [opened, h]; rfl
  | ok g => rw [opened_of_load h, name_load h]

theorem linkage_opened (f : Func) : f.opened.linkage = f.linkage := by
  unfold opened load
  split
  · split <;> rfl
  · rfl

theorem isDeclared_opened (f : Func) : f.opened.isDeclared = f.isDeclared := by
  unfold opened load
  split
  · rename_i s hs
    split
    · rw [isDeclared, isDeclared, hs]
      rfl
    · rfl
  · rfl

/-- Decoding does not look at conventions. -/
theorem neutral_load {f f' g : Func} (hneutral : f.neutral = f'.neutral)
    (hstored : f.isStored = true) (h : f.load = .ok g) : g.neutral = f'.opened.neutral := by
  cases hbody : f.body with
  | declared => simp [isStored, hbody, Body.isStored] at hstored
  | loaded bs => simp [isStored, hbody, Body.isStored] at hstored
  | stored s =>
      have hbody' : f'.body = .stored s := by
        have hb := congrArg Func.body hneutral
        simp only [neutral, plain, mapInstrs, hbody] at hb
        cases hf : f'.body with
        | declared => rw [hf] at hb; cases hb
        | loaded bs => rw [hf] at hb; cases hb
        | stored s' => rw [hf] at hb; exact hb.symm
      rw [load, hbody] at h
      cases hread : Blocks.read? s.slice with
      | none => simp only [hread] at h; cases h
      | some bs =>
          simp only [hread, Except.ok.injEq] at h
          have hload : f'.load = .ok { f' with body := .loaded bs, nextId := none } := by
            rw [load, hbody']
            simp only [hread]
          rw [opened_of_load hload, ← h]
          simp only [neutral, plain, mapInstrs, Func.mk.injEq] at hneutral ⊢
          simp only [hneutral, and_self]

/-- A body that cannot be decoded stays as it is. -/
theorem opened_of_error {f : Func} {e : Fault} (h : f.load = .error e) : f.opened = f := by
  rw [opened, h]
  rfl

/-- Decoding once is enough. -/
@[simp] theorem opened_opened (f : Func) : f.opened.opened = f.opened := by
  cases h : f.load with
  | error e => rw [opened_of_error h, opened_of_error h]
  | ok g => rw [opened_of_load h, opened_eq_self (isStored_load h)]

/-- Decoding does not look at conventions. -/
theorem neutral_opened_congr {f g : Func} (h : f.neutral = g.neutral) :
    f.opened.neutral = g.opened.neutral := by
  cases hstored : f.isStored with
  | false =>
      have hstored' : g.isStored = false := by
        rw [← g.isStored_neutral, ← h, isStored_neutral, hstored]
      rw [opened_eq_self hstored, opened_eq_self hstored', h]
  | true =>
      have hstored' : g.isStored = true := by
        rw [← g.isStored_neutral, ← h, isStored_neutral, hstored]
      cases hf : f.load with
      | ok f' =>
          rw [opened_of_load hf]
          exact neutral_load h hstored hf
      | error e =>
          cases hg : g.load with
          | ok g' =>
              rw [opened_of_load hg]
              exact (neutral_load h.symm hstored' hg).symm
          | error e' => rw [opened_of_error hf, opened_of_error hg, h]

/-- Before it is decoded, a body shows no instructions. -/
theorem instrs_of_isStored {f : Func} (h : f.isStored = true) : f.instrs = [] := by
  rw [instrs, blocks_of_isStored h]
  rfl

end Func

namespace Module

/-- Every definition is still stored and can be decoded. -/
def Archived (m : Module) : Prop :=
  ∀ f ∈ m.functions, f.isDeclared = true ∨ f.isStored = true ∧ f.load.isOk = true

instance (m : Module) : Decidable m.Archived :=
  inferInstanceAs (Decidable (∀ f ∈ m.functions,
    f.isDeclared = true ∨ f.isStored = true ∧ f.load.isOk = true))

/-- A definition of an archived module can be decoded. -/
theorem Archived.exists_load {m : Module} (h : m.Archived) {f : Func} (hf : f ∈ m.functions)
    (hdef : f.isDeclared = false) : ∃ g, f.load = .ok g := by
  rcases h f hf with hdecl | ⟨_, hok⟩
  · rw [hdef] at hdecl
    cases hdecl
  · exact exists_ok_of_isOk hok

/-- The body of one function calls another by its name. -/
def Calls (m : Module) (caller callee : String) : Prop :=
  ∃ f ∈ m.functions, f.name = caller ∧ ∃ i ∈ f.opened.instrs, i.called? = some callee

end Module

/-- The library definitions that a program reaches by calls. -/
inductive Reached (program library : Module) : String → Prop where
  /-- The program calls it and has no definition of its own. -/
  | root {caller callee : String} (hcall : program.Calls caller callee)
      (hown : program.defines callee = false) (hdef : library.defines callee = true) :
      Reached program library callee
  /-- A definition that is reached calls it. -/
  | step {caller callee : String} (hcaller : Reached program library caller)
      (hcall : library.Calls caller callee) (hdef : library.defines callee = true) :
      Reached program library callee

namespace Module

variable {m : Module}

/-- Looking up a name does not look at conventions. -/
theorem map_neutral_func? (m : Module) (name : String) :
    (m.func? name).map Func.neutral =
      (m.functions.map Func.neutral).find? fun f => f.name = name := by
  rw [List.find?_map]
  rfl

/-- No body of a loaded module is stored. -/
theorem isStored_of_isLoaded (h : m.isLoaded = true) {f : Func} (hf : f ∈ m.functions) :
    f.isStored = false := by
  rw [isLoaded, Bool.not_eq_true', List.any_eq_false] at h
  exact Bool.of_not_eq_true (h f hf)

/-- Decoding does nothing in a loaded module. -/
theorem opened_of_isLoaded (h : m.isLoaded = true) {f : Func} (hf : f ∈ m.functions) :
    f.opened = f :=
  Func.opened_eq_self (isStored_of_isLoaded h hf)

/-- Modules that agree on neutral functions define the same names. -/
theorem defines_congr {m' : Module} {view : Func → Func} (hname : ∀ f, (view f).name = f.name)
    (hdecl : ∀ f, (view f).isDeclared = f.isDeclared)
    (h : m'.functions.map Func.neutral = m.functions.map fun f => (view f).neutral)
    (name : String) :
    (m'.func? name).map Func.neutral = (m.func? name).map (fun f => (view f).neutral) ∧
      m'.defines name = m.defines name := by
  have hfind : (m'.func? name).map Func.neutral =
      (m.func? name).map fun f => (view f).neutral := by
    rw [map_neutral_func?, h, List.find?_map]
    simp only [Function.comp_def, Func.name_neutral, hname]
    rfl
  refine ⟨hfind, ?_⟩
  unfold defines
  cases hm : m.func? name with
  | none =>
      rw [hm, Option.map_none, Option.map_eq_none_iff] at hfind
      rw [hfind]
  | some f =>
      rw [hm, Option.map_some, Option.map_eq_some_iff] at hfind
      obtain ⟨g, hg, hneutral⟩ := hfind
      rw [hg]
      simp only
      rw [← g.isDeclared_neutral, hneutral, Func.isDeclared_neutral, hdecl]

/-- A name is defined if a function with a body carries it. -/
theorem defines_iff {name : String} :
    m.defines name = true ↔ ∃ f, m.func? name = some f ∧ f.isDeclared = false := by
  unfold defines
  cases m.func? name <;> simp

end Module

namespace Demand

/-- The module on a side at the start. -/
def origin (program library : Module) : Side → Module
  | .program => program
  | .library => library

/-- Whether a call from a side is meant for the library. -/
def Needs (program library : Module) (side : Side) (callee : String) : Prop :=
  library.defines callee = true ∧ (side = .program → program.defines callee = false)

/-- What a library function looks like in the course of a walk. -/
def view (d : Demand) (f : Func) : Func :=
  if d.visited.contains (Side.library, f.name) then f.opened else f

/-- A walk with requests still to be served. -/
structure Explored (program library : Module) (d : Demand) (pending : List Request) : Prop where
  /-- In the program only functions have changed. -/
  program_eq : d.program = { program with functions := d.program.functions }
  /-- In the functions of the program only conventions have changed. -/
  program_neutral : d.program.functions.map Func.neutral = program.functions.map Func.neutral
  /-- In the library only functions have changed. -/
  library_eq : d.library = { library with functions := d.library.functions }
  /-- In the library the functions that were visited are decoded. -/
  library_neutral : d.library.functions.map Func.neutral =
    library.functions.map fun f => (d.view f).neutral
  /-- No function is visited twice. -/
  nodup : d.visited.Nodup
  /-- Only what is reached is visited. -/
  sound : ∀ name, (Side.library, name) ∈ d.visited → Reached program library name
  /-- Requests stand for calls in bodies that were visited. -/
  asked : ∀ r ∈ pending, ∃ caller, (r.side, caller) ∈ d.visited ∧
    (origin program library r.side).Calls caller r.callee
  /-- The calls in bodies that were visited have been served, or will be. -/
  served : ∀ side caller, (side, caller) ∈ d.visited →
    ∀ callee, (origin program library side).Calls caller callee →
    Needs program library side callee →
      (Side.library, callee) ∈ d.visited ∨ ∃ r ∈ pending, r.side = side ∧ r.callee = callee
  /-- What was loaded is counted. -/
  count : d.loaded = (d.visited.filter fun v => v.1 = .library).length

/-- What was visited is seen decoded. -/
theorem view_of_mem {d : Demand} {f : Func} (h : (Side.library, f.name) ∈ d.visited) :
    d.view f = f.opened :=
  if_pos (List.contains_iff_mem.2 h)

/-- What was not visited is seen as it was. -/
theorem view_of_not_mem {d : Demand} {f : Func} (h : (Side.library, f.name) ∉ d.visited) :
    d.view f = f :=
  if_neg fun hmem => h (List.contains_iff_mem.1 hmem)

theorem name_view (d : Demand) (f : Func) : (d.view f).name = f.name := by
  unfold view
  split
  · exact f.name_opened
  · rfl

theorem isDeclared_view (d : Demand) (f : Func) : (d.view f).isDeclared = f.isDeclared := by
  unfold view
  split
  · exact f.isDeclared_opened
  · rfl

/-- Nothing is explored at the start. -/
theorem Explored.start (program library : Module) :
    Explored program library (start program library) [] := by
  refine ⟨rfl, rfl, rfl, ?_, List.nodup_nil, ?_, ?_, ?_, rfl⟩
  · simp [Demand.start, view]
  · intro name h
    cases h
  · intro r hr
    cases hr
  · intro side caller h
    cases h

section Invariant

variable {program library : Module} {d d' : Demand} {pending : List Request} {r : Request}

/-- A function of the program is found during a walk as before it, up to conventions. -/
theorem Explored.program_func? (h : Explored program library d pending) (name : String) :
    (d.program.func? name).map Func.neutral = (program.func? name).map Func.neutral ∧
      d.program.defines name = program.defines name :=
  Module.defines_congr (fun _ => rfl) (fun _ => rfl) h.program_neutral name

/-- A function of the library is found during a walk as before it, up to conventions and
decoding. -/
theorem Explored.library_func? (h : Explored program library d pending) (name : String) :
    (d.library.func? name).map Func.neutral =
        (library.func? name).map (fun f => (d.view f).neutral) ∧
      d.library.defines name = library.defines name :=
  Module.defines_congr d.name_view d.isDeclared_view h.library_neutral name

/-- Names of the library stay distinct. -/
theorem Explored.library_distinctNames (h : Explored program library d pending)
    (hnames : library.DistinctNames) : d.library.DistinctNames := by
  have hmap := congrArg (List.map Func.name) h.library_neutral
  simp only [List.map_map, Function.comp_def, Func.name_neutral, d.name_view] at hmap
  rw [Module.DistinctNames, hmap]
  exact hnames

/-- Names of the program stay distinct. -/
theorem Explored.program_distinctNames (h : Explored program library d pending)
    (hnames : program.DistinctNames) : d.program.DistinctNames := by
  have hmap := congrArg (List.map Func.name) h.program_neutral
  simp only [List.map_map, Function.comp_def, Func.name_neutral] at hmap
  rw [Module.DistinctNames, hmap]
  exact hnames

/-- A call is meant for the library exactly if the library provides it. -/
theorem Explored.provider?_eq (h : Explored program library d pending) :
    d.provider? r.side r.callee = some .library ↔ Needs program library r.side r.callee := by
  have hp := (h.program_func? r.callee).2
  have hl := (h.library_func? r.callee).2
  unfold provider? Needs
  cases hside : r.side with
  | program =>
      simp only [module, hp, hl]
      cases program.defines r.callee <;> cases library.defines r.callee <;> simp
  | library =>
      simp only [module, hl]
      cases library.defines r.callee <;> simp

/-- A request that needs nothing is one that is not meant for the library or was served before. -/
theorem Explored.mem_visited_of_missing?_eq_none (h : Explored program library d pending)
    (harchived : library.Archived) (hmissing : d.missing? r = none)
    (hneeds : Needs program library r.side r.callee) : (Side.library, r.callee) ∈ d.visited := by
  obtain ⟨f, hf, hdef⟩ := Module.defines_iff.1 hneeds.1
  have hlib := (h.library_func? r.callee).1
  rw [hf, Option.map_some, Option.map_eq_some_iff] at hlib
  obtain ⟨g, hg, hneutral⟩ := hlib
  unfold missing? at hmissing
  rw [h.provider?_eq.2 hneeds] at hmissing
  simp only [module, hg] at hmissing
  -- What is not stored any more has been decoded, and that happens on a visit only.
  have hnot : g.isStored = false := by
    cases hg : g.isStored with
    | false => rfl
    | true => rw [hg] at hmissing; cases hmissing
  obtain ⟨hmem, hname⟩ := Module.mem_of_func? hf
  by_contra hvisited
  rw [← hname] at hvisited
  rw [view_of_not_mem hvisited] at hneutral
  rw [← g.isStored_neutral, hneutral, Func.isStored_neutral] at hnot
  rcases harchived f hmem with hdecl | ⟨hstored, _⟩
  · rw [hdef] at hdecl
    cases hdecl
  · rw [hnot] at hstored
    cases hstored

/-- A request needs a function loaded if the definition that it means is still stored. -/
theorem missing?_eq_some_iff {side : Side} {g : Func} : d.missing? r = some (side, g) ↔
    d.provider? r.side r.callee = some side ∧ (d.module side).func? r.callee = some g ∧
      g.isStored = true := by
  unfold missing?
  cases hprovider : d.provider? r.side r.callee with
  | none => simp
  | some side' =>
      dsimp only
      rw [Option.some.injEq]
      cases hfound : (d.module side').func? r.callee with
      | none =>
          refine iff_of_false nofun ?_
          rintro ⟨rfl, hg, _⟩
          rw [hfound] at hg
          cases hg
      | some g' =>
          rw [Option.ite_none_right_eq_some, Option.some.injEq, Prod.mk.injEq]
          constructor
          · rintro ⟨hstored, rfl, rfl⟩
            exact ⟨rfl, hfound, hstored⟩
          · rintro ⟨rfl, hg, hstored⟩
            rw [hfound, Option.some.injEq] at hg
            exact ⟨hg ▸ hstored, rfl, hg⟩

/-- A request that needs something needs a library function that was not visited. -/
theorem Explored.missing?_cases (h : Explored program library d pending)
    (hloaded : program.isLoaded = true) {side : Side} {g : Func}
    (hmissing : d.missing? r = some (side, g)) :
    side = .library ∧ Needs program library r.side r.callee ∧ d.library.func? r.callee = some g ∧
      g.isStored = true := by
  obtain ⟨hprovider, hg, hstored⟩ := missing?_eq_some_iff.1 hmissing
  cases side with
  | library => exact ⟨rfl, h.provider?_eq.1 hprovider, hg, hstored⟩
  | program =>
      -- No body of the program is stored.
      have hp := (h.program_func? r.callee).1
      simp only [module] at hg
      rw [hg, Option.map_some, eq_comm, Option.map_eq_some_iff] at hp
      obtain ⟨f, hf, hneutral⟩ := hp
      have hnot := Module.isStored_of_isLoaded hloaded (Module.mem_of_func? hf).1
      rw [← g.isStored_neutral, ← hneutral, Func.isStored_neutral, hnot] at hstored
      cases hstored

/-- What a body calls, seen on the function as it is in the course of the walk. -/
theorem calls_iff {m : Module} (hnames : m.DistinctNames) {f g : Func} (hf : f ∈ m.functions)
    (hneutral : g.neutral = f.opened.neutral) (callee : String) :
    m.Calls f.name callee ↔ callee ∈ g.callees := by
  rw [Func.mem_callees_iff_neutral, hneutral, ← Func.mem_callees_iff_neutral, Func.mem_callees_iff]
  constructor
  · rintro ⟨f', hf', hname, hcall⟩
    have hsame : f' = f := List.inj_on_of_nodup_map hnames hf' hf hname
    rwa [hsame] at hcall
  · intro hcall
    exact ⟨f, hf, rfl, hcall⟩

/-- Calls are still served after one more visit, if its own calls are requested and nothing is
forgotten that was requested before. -/
theorem Explored.served_cons (h : Explored program library d pending) {side : Side} {name : String}
    {next : List Request}
    (hnext : ∀ callee, (origin program library side).Calls name callee →
      ∃ r ∈ next, r.side = side ∧ r.callee = callee)
    (hkept : ∀ r ∈ pending, r ∈ next ∨ (Side.library, r.callee) = (side, name)) :
    ∀ side' caller, (side', caller) ∈ (side, name) :: d.visited →
      ∀ callee, (origin program library side').Calls caller callee →
        Needs program library side' callee → (Side.library, callee) ∈ (side, name) :: d.visited ∨
          ∃ r ∈ next, r.side = side' ∧ r.callee = callee := by
  intro side' caller hcaller callee hcall hneeds
  rcases List.mem_cons.1 hcaller with he | hcaller
  · cases he
    exact Or.inr (hnext callee hcall)
  · rcases h.served side' caller hcaller callee hcall hneeds with hdone | ⟨r, hr, rfl, rfl⟩
    · exact Or.inl (List.mem_cons_of_mem _ hdone)
    · rcases hkept r hr with hr | hvisited
      · exact Or.inr ⟨r, hr, rfl, rfl⟩
      · exact Or.inl (hvisited ▸ List.mem_cons_self)

/-- Following the calls of a function of the program. -/
theorem Explored.visit (h : Explored program library d []) (hloaded : program.isLoaded = true)
    (hnames : program.DistinctNames) (root : String) :
    Explored program library (d.visit .program root).1 (d.visit .program root).2 ∧
      (Side.program, root) ∈ (d.visit .program root).1.visited ∧
      ∀ v ∈ d.visited, v ∈ (d.visit .program root).1.visited := by
  unfold Demand.visit
  by_cases hvisited : (Side.program, root) ∈ d.visited
  · rw [if_pos hvisited]
    exact ⟨h, hvisited, fun v hv => hv⟩
  rw [if_neg hvisited]
  have hfind := (h.program_func? root).1
  have hnodup : ((Side.program, root) :: d.visited).Nodup := List.nodup_cons.2 ⟨hvisited, h.nodup⟩
  have hsound : ∀ name, (Side.library, name) ∈ (Side.program, root) :: d.visited →
      Reached program library name := by
    intro name hname
    rcases List.mem_cons.1 hname with he | hname
    · cases he
    · exact h.sound name hname
  have hcount : ((Side.program, root) :: d.visited).filter (fun v => v.1 = .library) =
      d.visited.filter fun v => v.1 = .library := by
    simp
  cases hf : d.program.func? root with
  | none =>
      simp only [module, hf]
      refine ⟨⟨h.program_eq, h.program_neutral, h.library_eq, ?_, hnodup, hsound, ?_, ?_, ?_⟩,
        List.mem_cons_self .., fun v hv => List.mem_cons_of_mem _ hv⟩
      · simpa [view] using h.library_neutral
      · intro r hr
        cases hr
      · -- There is no function of this name, so it calls nothing.
        refine h.served_cons (fun callee hcall => ?_) fun r hr => Or.inl hr
        obtain ⟨f, hfmem, hname, _⟩ := hcall
        rw [hf, Option.map_none, eq_comm, Option.map_eq_none_iff] at hfind
        exact absurd hname (Module.func?_eq_none_iff.1 hfind f hfmem)
      · rw [hcount]
        exact h.count
  | some g =>
      rw [hf, Option.map_some, eq_comm, Option.map_eq_some_iff] at hfind
      obtain ⟨f, hfound, hneutral⟩ := hfind
      obtain ⟨hfmem, hname⟩ := Module.mem_of_func? hfound
      have hcalls := calls_iff hnames hfmem (g := g) (by
        rw [Module.opened_of_isLoaded hloaded hfmem, hneutral])
      rw [hname] at hcalls
      simp only [module, hf]
      refine ⟨⟨?_, ?_, h.library_eq, ?_, hnodup, hsound, ?_, ?_, ?_⟩,
        List.mem_cons_self .., fun v hv => List.mem_cons_of_mem _ hv⟩
      · simp only [modifyFunc, Module.modifyFunc]
        rw [h.program_eq]
      · simp only [modifyFunc]
        exact (map_modifyFirst_const hf g.neutral_adoptConvention).trans h.program_neutral
      · simpa [modifyFunc, view] using h.library_neutral
      · intro r hr
        obtain ⟨callee, hcallee, rfl⟩ := List.mem_map.1 hr
        exact ⟨root, List.mem_cons_self .., (hcalls callee).2 hcallee⟩
      · refine h.served_cons (fun callee hcall => ?_) fun r hr => absurd hr List.not_mem_nil
        exact ⟨_, List.mem_map_of_mem ((hcalls callee).1 hcall), rfl, rfl⟩
      · simp only [modifyFunc]
        rw [hcount]
        exact h.count

/-- A request that needs nothing is done. -/
theorem Explored.skip (h : Explored program library d (r :: pending))
    (harchived : library.Archived) (hs : d.supply r = .ok none) :
    Explored program library d pending := by
  have hmissing : d.missing? r = none := by
    unfold supply at hs
    split at hs
    · assumption
    · split at hs
      · cases hs
      · cases hs
  refine ⟨h.program_eq, h.program_neutral, h.library_eq, h.library_neutral, h.nodup, h.sound,
    fun s hs => h.asked s (List.mem_cons_of_mem _ hs), ?_, h.count⟩
  intro side caller hcaller callee hcall hneeds
  rcases h.served side caller hcaller callee hcall hneeds with hdone | ⟨s, hs, rfl, rfl⟩
  · exact Or.inl hdone
  · rcases List.mem_cons.1 hs with rfl | hs
    · exact Or.inl (h.mem_visited_of_missing?_eq_none harchived hmissing hneeds)
    · exact Or.inr ⟨s, hs, rfl, rfl⟩

/-- A definition that is still stored was not visited. -/
theorem not_mem_visited_of_isStored (harchived : library.Archived) {name : String} {f g : Func}
    (hf : library.func? name = some f) (hdef : f.isDeclared = false)
    (hg : g.neutral = (d.view f).neutral) (hstored : g.isStored = true) :
    (Side.library, name) ∉ d.visited := by
  obtain ⟨hmem, rfl⟩ := Module.mem_of_func? hf
  intro hvisited
  rw [view_of_mem hvisited] at hg
  obtain ⟨f', hload⟩ := harchived.exists_load hmem hdef
  rw [Func.opened_of_load hload] at hg
  rw [← g.isStored_neutral, hg, Func.isStored_neutral, Func.isStored_load hload] at hstored
  cases hstored

/-- Supplying a request decodes the function that it needs and follows its calls. -/
theorem supply_eq_some {more : List Request} (hs : d.supply r = .ok (some (d', more))) :
    ∃ side g g', d.missing? r = some (side, g) ∧ g.load = .ok g' ∧
      (d', more) = visit side r.callee
        { (d.modifyFunc side r.callee fun _ => { g' with conv := r.conv }) with
          loaded := d.loaded + 1 } := by
  unfold supply at hs
  split at hs
  · cases hs
  · rename_i side g hmissing
    split at hs
    · cases hs
    · rename_i g' hg'
      simp only [Except.ok.injEq, Option.some.injEq] at hs
      refine ⟨side, g, g', hmissing, hg', ?_⟩
      rw [← hs]
      cases side <;> rfl

/-- Following the calls of a library function that was just decoded. -/
theorem visit_library {name : String} {c g : Func} (hfound : d.library.func? name = some g)
    (hname : c.name = name) (hnew : (Side.library, name) ∉ d.visited) :
    visit .library name { (d.modifyFunc .library name fun _ => c) with loaded := d.loaded + 1 } =
      ({ d with
          library := d.library.modifyFunc name fun _ => c.adoptConvention
          visited := (Side.library, name) :: d.visited
          loaded := d.loaded + 1 },
        c.callees.map fun callee => ⟨.library, c.conv, callee⟩) := by
  have hp : (fun f : Func => decide (f.name = name)) c = true := by simp [hname]
  have hfind : (d.library.modifyFunc name fun _ => c).func? name = some c :=
    find?_modifyFirst_const hfound hp
  have htwice : ((d.library.modifyFunc name fun _ => c).modifyFunc name
      fun _ => c.adoptConvention) = d.library.modifyFunc name fun _ => c.adoptConvention :=
    congrArg (fun fs => { d.library with functions := fs })
      (modifyFirst_modifyFirst_const (p := fun f : Func => decide (f.name = name)) hp _)
  simp only [Demand.visit, modifyFunc, hnew, if_false, module, hfind, htwice]

/-- A function that is decoded takes the place of the stored one. -/
theorem Explored.map_neutral_library (h : Explored program library d pending)
    (hnames : library.DistinctNames) {callee : String} {f c : Func}
    (hf : library.func? callee = some f) (hc : c.neutral = f.opened.neutral)
    (hvisited : d'.visited = (Side.library, callee) :: d.visited) :
    (d.library.modifyFunc callee fun _ => c).functions.map Func.neutral =
      library.functions.map fun g => (d'.view g).neutral := by
  have hdistinct := h.library_distinctNames hnames
  have hpush : ∀ g : Func, (if g.name = callee then c else g).neutral =
      if g.neutral.name = callee then c.neutral else g.neutral := by
    intro g
    rw [Func.name_neutral]
    split <;> rfl
  rw [hdistinct.modifyFunc_functions, List.map_map]
  simp only [Function.comp_def, hpush]
  have hlist : ∀ gs : List Func,
      gs.map (fun g => if g.neutral.name = callee then c.neutral else g.neutral) =
        (gs.map Func.neutral).map fun g => if g.name = callee then c.neutral else g := by
    intro gs
    rw [List.map_map]
    rfl
  rw [hlist, h.library_neutral, List.map_map]
  refine List.map_congr_left fun g hg => ?_
  simp only [Function.comp_apply, Func.name_neutral, d.name_view]
  obtain ⟨hfmem, hfname⟩ := Module.mem_of_func? hf
  by_cases hname : g.name = callee
  · have hsame : g = f := List.inj_on_of_nodup_map hnames hg hfmem (hname.trans hfname.symm)
    have hseen : (Side.library, g.name) ∈ d'.visited := by
      rw [hvisited, hname]
      exact List.mem_cons_self
    rw [if_pos hname, hc, view_of_mem hseen, hsame]
  · rw [if_neg hname, view, view, hvisited]
    simp [hname]

/-- Supplying a request decodes a library function, which was not visited before, and its calls
adopt the convention of the request. -/
theorem Explored.exists_decoded (h : Explored program library d pending)
    (hloaded : program.isLoaded = true) (harchived : library.Archived) {more : List Request}
    (hs : d.supply r = .ok (some (d', more))) :
    ∃ f g c : Func, Needs program library r.side r.callee ∧ library.func? r.callee = some f ∧
      d.library.func? r.callee = some g ∧ c.name = r.callee ∧ c.conv = r.conv ∧
      c.neutral = f.opened.neutral ∧ (Side.library, r.callee) ∉ d.visited ∧
      (d', more) = ({ d with
          library := d.library.modifyFunc r.callee fun _ => c.adoptConvention
          visited := (Side.library, r.callee) :: d.visited
          loaded := d.loaded + 1 },
        c.callees.map fun callee => ⟨.library, c.conv, callee⟩) := by
  obtain ⟨side, g, g', hmissing, hload, hvisit⟩ := supply_eq_some hs
  obtain ⟨rfl, hneeds, hfound, hstored⟩ := h.missing?_cases hloaded hmissing
  obtain ⟨f, hf, hdef⟩ := Module.defines_iff.1 hneeds.1
  obtain ⟨_, hfname⟩ := Module.mem_of_func? hf
  have hneutral : g.neutral = (d.view f).neutral := by
    have hlib := (h.library_func? r.callee).1
    rw [hf, hfound] at hlib
    exact Option.some.inj hlib
  have hnew := not_mem_visited_of_isStored harchived hf hdef hneutral hstored
  have hopened : g'.neutral = f.opened.neutral := by
    refine Func.neutral_load ?_ hstored hload
    rw [hneutral, view_of_not_mem (by rwa [hfname])]
  let c : Func := { g' with conv := r.conv }
  have hcname : c.name = r.callee :=
    (Func.name_load hload).trans (Module.mem_of_func? hfound).2
  exact ⟨f, g, c, hneeds, hf, hfound, hcname, rfl, (g'.neutral_with_conv r.conv).trans hopened,
    hnew, hvisit.trans (visit_library hfound hcname hnew)⟩

/-- Supplying a request visits one more function that is reached. -/
theorem Explored.load (h : Explored program library d (r :: pending))
    (hloaded : program.isLoaded = true) (hnames : library.DistinctNames)
    (harchived : library.Archived) {more : List Request}
    (hs : d.supply r = .ok (some (d', more))) :
    Explored program library d' (more ++ pending) ∧ ∀ v ∈ d.visited, v ∈ d'.visited := by
  obtain ⟨f, g, c, hneeds, hf, hfound, _, _, hopened, hnew, hpair⟩ :=
    h.exists_decoded hloaded harchived hs
  obtain ⟨hfmem, hfname⟩ := Module.mem_of_func? hf
  have hcneutral : c.adoptConvention.neutral = f.opened.neutral :=
    c.neutral_adoptConvention.trans hopened
  rw [Prod.mk.injEq] at hpair
  obtain ⟨rfl, rfl⟩ := hpair
  have hcalls := calls_iff hnames hfmem hopened
  rw [hfname] at hcalls
  have hreached : Reached program library r.callee := by
    obtain ⟨caller, hcaller, hcall⟩ := h.asked r (List.mem_cons_self ..)
    cases hside : r.side with
    | program =>
        rw [hside] at hcall
        exact .root hcall (hneeds.2 hside) hneeds.1
    | library =>
        rw [hside] at hcall hcaller
        exact .step (h.sound caller hcaller) hcall hneeds.1
  refine ⟨⟨h.program_eq, h.program_neutral, ?_, ?_, ?_, ?_, ?_, ?_, ?_⟩,
    fun v hv => List.mem_cons_of_mem _ hv⟩
  · simp only [Module.modifyFunc]
    rw [h.library_eq]
  · exact h.map_neutral_library hnames hf hcneutral rfl
  · exact List.nodup_cons.2 ⟨hnew, h.nodup⟩
  · intro name hname
    rcases List.mem_cons.1 hname with he | hname
    · cases he
      exact hreached
    · exact h.sound name hname
  · intro s hs
    rcases List.mem_append.1 hs with hs | hs
    · obtain ⟨callee, hcallee, rfl⟩ := List.mem_map.1 hs
      exact ⟨r.callee, List.mem_cons_self .., (hcalls callee).2 hcallee⟩
    · obtain ⟨caller, hcaller, hcall⟩ := h.asked s (List.mem_cons_of_mem _ hs)
      exact ⟨caller, List.mem_cons_of_mem _ hcaller, hcall⟩
  · refine h.served_cons (fun callee hcall => ?_) fun s hs => ?_
    · exact ⟨_, List.mem_append_left _ (List.mem_map_of_mem ((hcalls callee).1 hcall)), rfl, rfl⟩
    · rcases List.mem_cons.1 hs with rfl | hs
      · exact Or.inr rfl
      · exact Or.inl (List.mem_append_right _ hs)
  · simp [h.count]

end Invariant

/-- What holds before serving some requests and is kept by serving any one of them holds in the
end. -/
theorem serve_induction {motive : Demand → List Request → Prop}
    (skip : ∀ d r rest, motive d (r :: rest) → d.supply r = .ok none → motive d rest)
    (load : ∀ d r rest d' more, motive d (r :: rest) → d.supply r = .ok (some (d', more)) →
      motive d' (more ++ rest))
    {d e : Demand} {requests : List Request} (h : motive d requests)
    (hs : d.serve requests = .ok e) : motive e [] := by
  -- Loading leaves fewer stored bodies, and skipping fewer requests.
  induction hn : d.storedTotal using Nat.strong_induction_on generalizing d requests with
  | _ n deeper =>
      induction requests with
      | nil =>
          rw [serve_nil] at hs
          cases hs
          exact h
      | cons r rest ih =>
          rw [serve_cons] at hs
          cases hsupply : d.supply r with
          | error e => rw [hsupply] at hs; cases hs
          | ok result =>
              cases result with
              | none =>
                  rw [hsupply] at hs
                  exact ih (skip d r rest h hsupply) hs
              | some pair =>
                  rw [hsupply] at hs
                  have hless : pair.1.storedTotal < n := hn ▸ storedTotal_supply hsupply
                  exact deeper _ hless (load d r rest _ _ h hsupply) hs rfl

/-- A walk serves all that its first root leads to before it goes on. -/
theorem exists_serve_of_walk {d e : Demand} {root : String} {roots : List String}
    (h : d.walk (root :: roots) = .ok e) :
    ∃ d', serve (d.visit .program root).1 (d.visit .program root).2 = .ok d' ∧
      d'.walk roots = .ok e := by
  rw [Demand.walk] at h
  cases hserve : serve (d.visit .program root).1 (d.visit .program root).2 with
  | error fault => rw [hserve] at h; cases h
  | ok d' =>
      rw [hserve] at h
      exact ⟨d', rfl, h⟩

/-- What holds before a walk and is kept by each of its steps holds in the end. -/
theorem walk_induction {motive : Demand → List Request → Prop}
    (visit : ∀ d root, motive d [] →
      motive (d.visit .program root).1 (d.visit .program root).2)
    (skip : ∀ d r rest, motive d (r :: rest) → d.supply r = .ok none → motive d rest)
    (load : ∀ d r rest d' more, motive d (r :: rest) → d.supply r = .ok (some (d', more)) →
      motive d' (more ++ rest))
    {d e : Demand} {roots : List String} (h : motive d []) (hs : d.walk roots = .ok e) :
    motive e [] := by
  induction roots generalizing d with
  | nil =>
      cases hs
      exact h
  | cons root roots ih =>
      obtain ⟨d', hserve, hs⟩ := exists_serve_of_walk hs
      exact ih (serve_induction skip load (visit d root h) hserve) hs

section Walk

variable {program library : Module} (hloaded : program.isLoaded = true)
  (hprogram : program.DistinctNames) (hlibrary : library.DistinctNames)
  (harchived : library.Archived)

include hloaded hprogram hlibrary harchived

/-- A walk visits its roots, and serves all that they lead to. -/
theorem Explored.walk {d e : Demand} {roots : List String} (h : Explored program library d [])
    (hs : d.walk roots = .ok e) :
    Explored program library e [] ∧ (∀ root ∈ roots, (Side.program, root) ∈ e.visited) ∧
      ∀ v ∈ d.visited, v ∈ e.visited := by
  induction roots generalizing d with
  | nil =>
      cases hs
      exact ⟨h, fun root hroot => absurd hroot List.not_mem_nil, fun v hv => hv⟩
  | cons root roots ih =>
      obtain ⟨hvisit, hroot, hold⟩ := h.visit hloaded hprogram root
      obtain ⟨d', hserve, hs⟩ := exists_serve_of_walk hs
      have hserved : Explored program library d' [] ∧
          ∀ v ∈ (d.visit .program root).1.visited, v ∈ d'.visited := by
        refine serve_induction (motive := fun e pending => Explored program library e pending ∧
          ∀ v ∈ (d.visit .program root).1.visited, v ∈ e.visited) ?_ ?_
          ⟨hvisit, fun v hv => hv⟩ hserve
        · intro e r rest he hskip
          exact ⟨he.1.skip harchived hskip, he.2⟩
        · intro e r rest e' more he hload
          obtain ⟨he', hmore⟩ := he.1.load hloaded hlibrary harchived hload
          exact ⟨he', fun v hv => hmore v (he.2 v hv)⟩
      obtain ⟨hwalk, hroots, hkept⟩ := ih hserved.1 hs
      refine ⟨hwalk, ?_, ?_⟩
      · intro root' hroot'
        rcases List.mem_cons.1 hroot' with rfl | hroot'
        · exact hkept _ (hserved.2 _ hroot)
        · exact hroots root' hroot'
      · intro v hv
        exact hkept v (hserved.2 v (hold v hv))

/-- A walk from all functions of a program visits exactly what the program reaches. -/
theorem Explored.of_walk {d : Demand}
    (hs : (Demand.start program library).walk (program.functions.map Func.name) = .ok d) :
    Explored program library d [] ∧
      ∀ name, (Side.library, name) ∈ d.visited ↔ Reached program library name := by
  obtain ⟨hd, hroots, _⟩ :=
    (Explored.start program library).walk hloaded hprogram hlibrary harchived hs
  have hdone : ∀ side caller callee, (side, caller) ∈ d.visited →
      (origin program library side).Calls caller callee → Needs program library side callee →
        (Side.library, callee) ∈ d.visited := by
    intro side caller callee hcaller hcall hneeds
    rcases hd.served side caller hcaller callee hcall hneeds with hdone | ⟨r, hr, _⟩
    · exact hdone
    · cases hr
  refine ⟨hd, fun name => ⟨hd.sound name, ?_⟩⟩
  intro hreached
  induction hreached with
  | root hcall hown hdef =>
      obtain ⟨f, hf, hname, _⟩ := id hcall
      have hvisited := hroots _ (List.mem_map.2 ⟨f, hf, hname⟩)
      exact hdone .program _ _ hvisited hcall ⟨hdef, fun _ => hown⟩
  | step _ hcall hdef ih =>
      exact hdone .library _ _ ih hcall ⟨hdef, fun hside => by cases hside⟩

end Walk

/-- The number of bodies loaded is the number of definitions reached. -/
theorem Explored.loaded_eq {program library : Module} {d : Demand} {pending : List Request}
    (h : Explored program library d pending)
    (hvisited : ∀ name, (Side.library, name) ∈ d.visited ↔ Reached program library name) :
    d.loaded = Set.ncard {name | Reached program library name} := by
  let names := (d.visited.filter fun v => v.1 = .library).map Prod.snd
  have hmem : ∀ name, name ∈ names ↔ Reached program library name := by
    intro name
    rw [← hvisited, List.mem_map]
    constructor
    · rintro ⟨⟨side, name'⟩, hv, rfl⟩
      rw [List.mem_filter, decide_eq_true_iff] at hv
      obtain ⟨hv, rfl⟩ := hv
      exact hv
    · intro hv
      exact ⟨_, List.mem_filter.2 ⟨hv, by simp⟩, rfl⟩
  have hnodup : names.Nodup := by
    refine List.Nodup.map_on ?_ (h.nodup.filter _)
    intro v hv w hw hname
    rw [List.mem_filter, decide_eq_true_iff] at hv hw
    exact Prod.ext (hv.2.trans hw.2.symm) hname
  have hset : {name | Reached program library name} = ↑names.toFinset := by
    ext name
    simp [hmem]
  rw [hset, Set.ncard_coe_finset, List.toFinset_card_of_nodup hnodup, List.length_map]
  exact h.count

end Demand

end Postlink

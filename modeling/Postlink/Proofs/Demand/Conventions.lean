import Postlink.Proofs.Demand.Opening
import Postlink.Proofs.Linking.CallTyping

/-!
# The conventions that a walk hands on

A walk leaves the program's own conventions alone. A library body takes the convention of the first
request that needs it, and its calls hand that on, so each body that is loaded has the convention of
some function of the program that reaches it (`Demand.Granted`). On a visit all calls of a function
adopt its convention, whatever they call (`Func.Uniform`).
-/

namespace Postlink

/-- The library definitions that one function of a program reaches by calls. -/
inductive ReachedFrom (program library : Module) (root : String) : String → Prop where
  /-- The function calls it, and the program has no definition of its own. -/
  | call {callee : String} (hcall : program.Calls root callee)
      (hown : program.defines callee = false) (hdef : library.defines callee = true) :
      ReachedFrom program library root callee
  /-- A definition that is reached calls it. -/
  | step {caller callee : String} (hcaller : ReachedFrom program library root caller)
      (hcall : library.Calls caller callee) (hdef : library.defines callee = true) :
      ReachedFrom program library root callee

namespace Func

/-- Every call has the convention of the function that it stands in. -/
def Uniform (f : Func) : Prop := ∀ c ∈ f.calls, c.conv = f.conv

/-- A function that has passed its convention on is uniform. -/
theorem uniform_adoptConvention (f : Func) : f.adoptConvention.Uniform := by
  have hcalls : f.adoptConvention.calls = f.calls.map fun c => { c with conv := f.conv } := by
    refine calls_mapInstrs (fun i => ?_) f
    rcases i with ⟨id, name, ty, kind, loc⟩
    cases kind <;> rfl
  intro c hc
  rw [hcalls] at hc
  obtain ⟨c', _, rfl⟩ := List.mem_map.1 hc
  rfl

/-- Renaming keeps a function uniform. -/
theorem Uniform.renameBy {f : Func} (h : f.Uniform) (ρ : String → String) :
    (f.renameBy ρ).Uniform := by
  intro c hc
  rw [calls_renameBy] at hc
  obtain ⟨c', hc', rfl⟩ := List.mem_map.1 hc
  exact h c' hc'

/-- Recasting callees keeps a function uniform. -/
theorem Uniform.recast {f : Func} (h : f.Uniform) (dest fs : List Func) :
    (f.recast dest fs).Uniform := by
  intro c hc
  rw [calls_recast] at hc
  obtain ⟨c', hc', rfl⟩ := List.mem_map.1 hc
  have hconv : (c'.recast dest fs).conv = c'.conv := by
    rcases c'.recast_cases dest fs with heq | ⟨_, heq⟩
    · rw [heq]
    · rw [heq, Call.viaCast]
      split <;> rfl
  exact hconv.trans (h c' hc')

end Func

/-- A function that calls something has a body. -/
theorem Module.Calls.isDeclared_eq_false {m : Module} (hnames : m.DistinctNames) {f : Func}
    (hf : f ∈ m.functions) {callee : String} (h : m.Calls f.name callee) :
    f.isDeclared = false := by
  obtain ⟨g, hg, hname, i, hi, _⟩ := h
  obtain rfl : g = f := List.inj_on_of_nodup_map hnames hg hf hname
  rw [← g.isDeclared_opened]
  exact Func.isDeclared_of_mem hi

namespace Demand

variable {program library : Module} {d d' : Demand} {pending : List Request}

/-- The conventions that a function may have at the end of a walk: its own if it is one of the
program, and otherwise that of a definition of the program that reaches it. -/
def Granted (program library : Module) (side : Side) (name : String) (conv : Convention) : Prop :=
  match side with
  | .program => ∃ p, program.func? name = some p ∧ p.conv = conv
  | .library => ∃ p ∈ program.functions, p.isDeclared = false ∧
      ReachedFrom program library p.name name ∧ p.conv = conv

/-- A call hands a convention on to the library definition that it means. -/
theorem Granted.callee (hnames : program.DistinctNames) {side : Side} {caller callee : String}
    {conv : Convention} (h : Granted program library side caller conv)
    (hcall : (origin program library side).Calls caller callee)
    (hneeds : Needs program library side callee) :
    Granted program library .library callee conv := by
  cases side with
  | program =>
      obtain ⟨p, hp, hconv⟩ := h
      obtain ⟨hmem, rfl⟩ := Module.mem_of_func? hp
      exact ⟨p, hmem, hcall.isDeclared_eq_false hnames hmem, .call hcall (hneeds.2 rfl) hneeds.1,
        hconv⟩
  | library =>
      obtain ⟨p, hmem, hdef, hreached, hconv⟩ := h
      exact ⟨p, hmem, hdef, .step hreached hcall hneeds.1, hconv⟩

/-- Conventions in the course of a walk. -/
structure Attuned (program library : Module) (d : Demand) (pending : List Request) : Prop where
  /-- The program keeps its conventions, and the library functions that were visited have one that
  was handed on to them. -/
  granted : ∀ side name f, (d.module side).func? name = some f →
    side = .program ∨ (side, name) ∈ d.visited → Granted program library side name f.conv
  /-- In the functions that were visited calls have adopted it. -/
  uniform : ∀ side name f, (d.module side).func? name = some f →
    (side, name) ∈ d.visited → f.Uniform
  /-- A request hands on a convention. -/
  asked : ∀ r ∈ pending, Needs program library r.side r.callee →
    Granted program library .library r.callee r.conv

namespace Attuned

theorem start (program library : Module) : Attuned program library (start program library) [] := by
  refine ⟨fun side name f hf hseen => ?_, fun _ _ _ _ h => absurd h List.not_mem_nil,
    fun _ h => absurd h List.not_mem_nil⟩
  rcases hseen with rfl | hseen
  · exact ⟨f, hf, rfl⟩
  · cases hseen

/-- One more function is visited, under a convention that it may have. -/
theorem attend (h : Attuned program library d pending) (hnames : program.DistinctNames)
    {side : Side} {name : String} {g c : Func} (hg : (d.module side).func? name = some g)
    (hname : c.name = name) (hgranted : Granted program library side name c.conv)
    (hcalls : ∀ callee ∈ c.callees, (origin program library side).Calls name callee)
    (hmodule : ∀ s, d'.module s = (d.modifyFunc side name fun _ => c.adoptConvention).module s)
    (hvisited : d'.visited = (side, name) :: d.visited) :
    Attuned program library d'
    ((c.callees.map fun callee => ⟨side, c.conv, callee⟩) ++ pending) := by
  have hfound : ∀ s n, (d'.module s).func? n =
      if s = side ∧ n = name then some c.adoptConvention else (d.module s).func? n := by
    intro s n
    rw [hmodule, module_modifyFunc]
    by_cases hs : s = side
    · subst hs
      rw [if_pos rfl, Module.func?_modifyFunc hg (g := c.adoptConvention) hname]
      simp only [true_and]
    · rw [if_neg hs, if_neg fun hand => hs hand.1]
  have hold : ∀ s n, ¬ (s = side ∧ n = name) → (s, n) ∈ d'.visited → (s, n) ∈ d.visited := by
    intro s n hother hseen
    rw [hvisited] at hseen
    rcases List.mem_cons.1 hseen with he | hseen
    · cases he
      exact absurd ⟨rfl, rfl⟩ hother
    · exact hseen
  refine ⟨?_, ?_, ?_⟩
  · intro s n f hf hseen
    rw [hfound] at hf
    split at hf
    · rename_i hand
      obtain ⟨rfl, rfl⟩ := hand
      cases hf
      exact hgranted
    · rename_i hother
      exact h.granted s n f hf (hseen.imp_right (hold s n hother))
  · intro s n f hf hseen
    rw [hfound] at hf
    split at hf
    · cases hf
      exact c.uniform_adoptConvention
    · rename_i hother
      exact h.uniform s n f hf (hold s n hother hseen)
  · intro r hr hneeds
    rcases List.mem_append.1 hr with hr | hr
    · obtain ⟨callee, hcallee, rfl⟩ := List.mem_map.1 hr
      exact hgranted.callee hnames (hcalls callee hcallee) hneeds
    · exact h.asked r hr hneeds

/-- A visit to a function of the program. -/
theorem visit (h : Attuned program library d []) (hd : Explored program library d [])
    (hloaded : program.isLoaded = true) (hnames : program.DistinctNames) (root : String) :
    Attuned program library (d.visit .program root).1 (d.visit .program root).2 := by
  by_cases hseen : (Side.program, root) ∈ d.visited
  · rw [visit_of_mem hseen]
    exact h
  cases hg : (d.module .program).func? root with
  | none =>
      rw [visit_of_none hseen hg]
      refine ⟨?_, ?_, h.asked⟩
      · intro side name f hf hnow
        cases side with
        | program => exact h.granted .program name f hf (Or.inl rfl)
        | library =>
            refine h.granted .library name f hf (Or.inr ?_)
            simpa using hnow
      · intro side name f hf hnow
        have hmodule : (d.module side).func? name = some f := by cases side <;> exact hf
        refine h.uniform side name f hmodule ((List.mem_cons.1 hnow).resolve_left ?_)
        rintro ⟨⟩
        rw [hg] at hmodule
        cases hmodule
  | some g =>
      rw [visit_of_not_mem hseen hg]
      have hgranted := h.granted .program root g hg (Or.inl rfl)
      obtain ⟨p, hp, hneutral⟩ : ∃ p, program.func? root = some p ∧ p.neutral = g.neutral := by
        have hfind := (hd.program_func? root).1
        rw [show d.program.func? root = some g from hg, Option.map_some, eq_comm,
          Option.map_eq_some_iff] at hfind
        exact hfind
      obtain ⟨hmem, rfl⟩ := Module.mem_of_func? hp
      have hcalls := calls_iff hnames hmem (g := g) (by
        rw [Module.opened_of_isLoaded hloaded hmem, hneutral])
      rw [← List.append_nil (List.map _ _)]
      exact h.attend hnames hg (Module.mem_of_func? hg).2 hgranted (fun callee => (hcalls callee).2)
        (fun s => by cases s <;> rfl) rfl

/-- A request can be dropped. -/
theorem skip {r : Request} (h : Attuned program library d (r :: pending)) :
    Attuned program library d pending :=
  ⟨h.granted, h.uniform, fun q hq => h.asked q (List.mem_cons_of_mem _ hq)⟩

/-- A body that is loaded takes over the convention of the request. -/
theorem load {r : Request} (h : Attuned program library d (r :: pending))
    (hd : Explored program library d (r :: pending)) (hloaded : program.isLoaded = true)
    (hnames : program.DistinctNames) (hlibrary : library.DistinctNames)
    (harchived : library.Archived) {more : List Request}
    (hs : d.supply r = .ok (some (d', more))) : Attuned program library d' (more ++ pending) := by
  obtain ⟨f, g, c, hneeds, hf, hfound, hcname, hconv, hopened, _, hpair⟩ :=
    hd.exists_decoded hloaded harchived hs
  rw [Prod.mk.injEq] at hpair
  obtain ⟨rfl, rfl⟩ := hpair
  obtain ⟨hmem, hname⟩ := Module.mem_of_func? hf
  have hgranted := h.asked r (List.mem_cons_self ..) hneeds
  rw [← hconv] at hgranted
  have hcalls := calls_iff hlibrary hmem hopened
  rw [hname] at hcalls
  have hplace : (d.module .library).func? r.callee = some g := hfound
  exact h.skip.attend hnames hplace hcname hgranted (fun callee => (hcalls callee).2)
    (fun s => by cases s <;> rfl) rfl

/-- At the end of a walk the program has its own conventions, the library bodies that were loaded
have one that was handed on to them, and calls conform. -/
theorem of_walk (hloaded : program.isLoaded = true) (hnames : program.DistinctNames)
    (hlibrary : library.DistinctNames) (harchived : library.Archived)
    (hs : (Demand.start program library).walk (program.functions.map Func.name) = .ok d) :
    Attuned program library d [] := by
  have hboth : Explored program library d [] ∧ Attuned program library d [] := by
    refine walk_induction
      (motive := fun e rs => Explored program library e rs ∧ Attuned program library e rs)
      ?_ ?_ ?_ ⟨.start program library, .start program library⟩ hs
    · rintro e root ⟨he, h⟩
      exact ⟨(he.visit hloaded hnames root).1, h.visit he hloaded hnames root⟩
    · rintro e r rest ⟨he, h⟩ hskip
      exact ⟨he.skip harchived hskip, h.skip⟩
    · rintro e r rest e' more ⟨he, h⟩ hload
      exact ⟨(he.load hloaded hlibrary harchived hload).1,
        h.load he hloaded hnames hlibrary harchived hload⟩
  exact hboth.2

end Attuned

end Demand

end Postlink

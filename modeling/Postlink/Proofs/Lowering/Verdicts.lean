import Postlink.Lowering.Verdict
import Postlink.Proofs.Lookup

/-!
# What a verdict depends on

A verdict reads the callee's name, result type and intrinsic, and nothing else of the module. The
declarations that lowering adds carry names that no builtin has and no intrinsic that is recognised
by its tag, so adding them leaves every verdict as it was (`verdict_of_grows`). `Replacement` lists
the four forms that a replacement can take.
-/

namespace Postlink

/-- Whether calls are recognised by the intrinsic that the callee is declared as. -/
def Intrinsic.recognised : Intrinsic → Bool
  | .lifetimeStart => true
  | .lifetimeEnd => true
  | .ctlz => true
  | _ => false

/-- The forms of a replacement: which values of the old call it takes, and where it takes the result
of the step before. -/
inductive Replacement (site : DirectCall) : List Step → Prop where
  /-- One intrinsic on values of the call. -/
  | intrinsic {op : Intrinsic} {tys : List Ty} {os : List Operand} (hop : op.recognised = false)
      (hos : ∀ o ∈ os, o ∈ site.call.args) :
      Replacement site [.intrinsic op tys (os.map .value)]
  /-- One conversion of a value of the call. -/
  | convert {op : CastOp} {ty : Ty} {o : Operand} (ho : o ∈ site.call.args) :
      Replacement site [.convert op ty o]
  /-- An intrinsic on all values of the call, and another on its result. -/
  | intrinsicChain {op op' : Intrinsic} {tys tys' : List Ty} (hop : op.recognised = false)
      (hop' : op'.recognised = false) :
      Replacement site [.intrinsic op tys site.sources, .intrinsic op' tys' [.previous]]
  /-- An arithmetic operation on two values of the call, and an intrinsic on its result. -/
  | binaryChain {op : BinaryOp} {op' : Intrinsic} {ty : Ty} {tys' : List Ty} {lhs rhs : Operand}
      (hlhs : lhs ∈ site.call.args) (hrhs : rhs ∈ site.call.args)
      (hop' : op'.recognised = false) :
      Replacement site [.binary op ty lhs rhs, .intrinsic op' tys' [.previous]]

/-- A replacement is never empty. -/
theorem Replacement.ne_nil {site : DirectCall} {steps : List Step} (h : Replacement site steps) :
    steps ≠ [] := by
  cases h <;> exact List.cons_ne_nil _ _

/-- An argument that is there is one of the call's. -/
theorem DirectCall.mem_args_of_arg {site : DirectCall} {caller : String} {k : Nat}
    {a : Operand × Ty} (h : site.arg caller k = .ok a) : a.1 ∈ site.call.args := by
  unfold arg at h
  split at h
  · rename_i o t ho ht
    cases h
    exact List.mem_of_getElem? ho
  · cases h

namespace Builtins

/-- No listed builtin becomes an intrinsic that is recognised by its tag. -/
theorem oneStep_not_recognised : ∀ e ∈ oneStep, e.2.recognised = false := by
  decide +kernel

/-- No listed builtin becomes a pair with an intrinsic that is recognised by its tag. -/
theorem twoStep_not_recognised :
    ∀ e ∈ twoStep, e.2.1.recognised = false ∧ e.2.2.recognised = false := by
  decide +kernel

/-- An entry found under a key is an entry of the table. -/
theorem mem_of_lookup {β : Type} {table : List (String × β)} {name : String} {b : β}
    (h : table.lookup name = some b) : (name, b) ∈ table := by
  obtain ⟨l, r, rfl, _⟩ := List.lookup_eq_some_iff.1 h
  simp

/-- A recipe is an entry of one of the tables. -/
theorem mem_of_recipe? {name : String} {recipe : Recipe} (h : recipe? name = some recipe) :
    (∃ op, recipe = .one op ∧ (name, op) ∈ oneStep) ∨
      ∃ op op', recipe = .two op op' ∧ (name, op, op') ∈ twoStep := by
  unfold recipe? at h
  split at h
  · rename_i op hop
    cases h
    exact Or.inl ⟨op, rfl, mem_of_lookup hop⟩
  · obtain ⟨ops, hops, rfl⟩ := Option.map_eq_some_iff.1 h
    exact Or.inr ⟨ops.1, ops.2, rfl, mem_of_lookup hops⟩

/-- The intrinsics of a recipe are not recognised by their tags. -/
theorem recipe?_cases {name : String} {recipe : Recipe} (h : recipe? name = some recipe) :
    (∃ op, recipe = .one op ∧ op.recognised = false) ∨
      ∃ op op', recipe = .two op op' ∧ op.recognised = false ∧ op'.recognised = false := by
  rcases mem_of_recipe? h with ⟨op, rfl, hmem⟩ | ⟨op, op', rfl, hmem⟩
  · exact Or.inl ⟨op, rfl, oneStep_not_recognised _ hmem⟩
  · exact Or.inr ⟨op, op', rfl, twoStep_not_recognised _ hmem⟩

end Builtins

/-- What a recipe asks for is a replacement. -/
theorem Recipe.replacement_of_steps {caller name : String} {site : DirectCall} {ret : Ty}
    {recipe : Recipe} (hr : Builtins.recipe? name = some recipe) {steps : List Step}
    (h : recipe.steps caller site ret = .ok steps) : Replacement site steps := by
  rcases Builtins.recipe?_cases hr with ⟨op, rfl, hop⟩ | ⟨op, op', rfl, hop, hop'⟩
  · cases h
    exact .intrinsic hop fun o ho => ho
  · obtain ⟨a, _, rfl⟩ := map_eq_ok h
    exact .intrinsicChain hop hop'

/-- What a family asks for is a replacement. -/
theorem Family.replacement_of_steps {caller : String} {site : DirectCall} {ret : Ty}
    {family : Family} {steps : List Step} (h : family.steps caller site ret = .ok steps) :
    Replacement site steps := by
  unfold Family.steps at h
  split at h
  · cases h
  · rename_i lhs hlhs
    have hl := DirectCall.mem_args_of_arg hlhs
    have hrounded : ∀ op : BinaryOp, roundedSteps caller site op lhs = .ok steps →
        Replacement site steps := by
      intro op hop
      obtain ⟨rhs, hrhs, rfl⟩ := map_eq_ok hop
      exact .binaryChain hl (DirectCall.mem_args_of_arg hrhs) rfl
    cases family with
    | signedToFloat => cases h; exact .convert hl
    | unsignedToFloat => cases h; exact .convert hl
    | mulRoundToZero => exact hrounded _ h
    | addRoundToZero => exact hrounded _ h

/-- What a count of leading zeros becomes is a replacement. -/
theorem DirectCall.replacement_of_leadingZeros {caller : String} {site : DirectCall}
    {steps : List Step} (h : site.leadingZeros caller = .ok steps) : Replacement site steps := by
  unfold leadingZeros at h
  split at h
  · cases h
  · rename_i o t ho
    split at h
    · cases h
      have hmem : ∀ p ∈ [o], p ∈ site.call.args := fun p hp =>
        List.mem_singleton.1 hp ▸ mem_args_of_arg ho
      exact .intrinsic rfl hmem
    · cases h

namespace Module

/-- A call is replaced as a count of leading zeros, by a recipe, or by a family. -/
theorem steps_of_verdict {m : Module} {caller : String} {site : DirectCall} {steps : List Step}
    (h : m.verdict caller site = .ok (some (.replace steps))) :
    site.leadingZeros caller = .ok steps ∨
      (∃ ret recipe, Builtins.recipe? site.callee = some recipe ∧
        recipe.steps caller site ret = .ok steps) ∨
      ∃ ret family, Family.steps caller site ret family = .ok steps := by
  have hbyName : ∀ ret, site.byName caller ret = .ok (some (.replace steps)) →
      (∃ recipe, Builtins.recipe? site.callee = some recipe ∧
        recipe.steps caller site ret = .ok steps) ∨
      ∃ family, Family.steps caller site ret family = .ok steps := by
    intro ret h
    unfold DirectCall.byName at h
    split at h
    · rename_i recipe hrecipe
      obtain ⟨_, hsteps, heq⟩ := map_eq_ok h
      cases heq
      exact Or.inl ⟨recipe, hrecipe, hsteps⟩
    · split at h
      · rename_i family _
        obtain ⟨_, hsteps, heq⟩ := map_eq_ok h
        cases heq
        exact Or.inr ⟨family, hsteps⟩
      · cases h
  unfold verdict at h
  dsimp only at h
  split at h
  · cases h
  · cases h
  · obtain ⟨_, hsteps, heq⟩ := map_eq_ok h
    cases heq
    exact Or.inl hsteps
  · exact Or.inr ((hbyName _ h).imp (fun h => ⟨_, h⟩) fun h => ⟨_, h⟩)

/-- A verdict that replaces a call gives one of the forms of a replacement. -/
theorem replacement_of_verdict {m : Module} {caller : String} {site : DirectCall}
    {steps : List Step} (h : m.verdict caller site = .ok (some (.replace steps))) :
    Replacement site steps := by
  rcases steps_of_verdict h with hzeros | ⟨ret, recipe, hrecipe, hsteps⟩ | ⟨ret, family, hsteps⟩
  · exact DirectCall.replacement_of_leadingZeros hzeros
  · exact Recipe.replacement_of_steps hrecipe hsteps
  · exact Family.replacement_of_steps hsteps

end Module

/-- How many instructions a listed builtin becomes. -/
def Recipe.width : Recipe → Nat
  | .one _ => 1
  | .two _ _ => 2

/-- How many instructions a builtin of a family becomes. -/
def Family.width : Family → Nat
  | .signedToFloat => 1
  | .unsignedToFloat => 1
  | .mulRoundToZero => 2
  | .addRoundToZero => 2

/-- How many instructions a builtin becomes. -/
def Builtins.width? (name : String) : Option Nat :=
  match recipe? name with
  | some recipe => some recipe.width
  | none => (family? name).map Family.width

namespace Module

/-- How many instructions stand in for a call of a function that is lowered. -/
def width? (m : Module) (callee : String) : Option Nat :=
  match (m.func? callee).bind Func.intrinsic with
  | some .lifetimeStart => some 0
  | some .lifetimeEnd => some 0
  | some .ctlz => some 1
  | _ => Builtins.width? callee

/-- Whether a call marks a lifetime. -/
def marks (m : Module) (site : DirectCall) : Bool :=
  match (m.func? site.callee).bind Func.intrinsic with
  | some .lifetimeStart => true
  | some .lifetimeEnd => true
  | _ => false

/-- Whether a call is one of a count of leading zeros or of a builtin. -/
def replaces (m : Module) (site : DirectCall) : Bool := (m.width? site.callee).any (0 < ·)

end Module

/-- How many instructions stand in for a call. -/
def Verdict.width : Verdict → Nat
  | .drop => 0
  | .replace steps => steps.length

/-- A listed builtin becomes as many steps as its recipe says. -/
theorem Recipe.length_of_steps {caller : String} {site : DirectCall} {ret : Ty} {recipe : Recipe}
    {steps : List Step} (h : recipe.steps caller site ret = .ok steps) :
    steps.length = recipe.width := by
  cases recipe with
  | one op => cases h; rfl
  | two producer consumer =>
      obtain ⟨_, _, rfl⟩ := map_eq_ok h
      rfl

/-- A builtin of a family becomes as many steps as the family says. -/
theorem Family.length_of_steps {caller : String} {site : DirectCall} {ret : Ty} {family : Family}
    {steps : List Step} (h : family.steps caller site ret = .ok steps) :
    steps.length = family.width := by
  unfold Family.steps at h
  split at h
  · cases h
  · cases family with
    | signedToFloat => cases h; rfl
    | unsignedToFloat => cases h; rfl
    | _ =>
        obtain ⟨_, _, rfl⟩ := map_eq_ok h
        rfl

theorem DirectCall.length_of_leadingZeros {caller : String} {site : DirectCall} {steps : List Step}
    (h : site.leadingZeros caller = .ok steps) : steps.length = 1 := by
  unfold leadingZeros at h
  split at h
  · cases h
  · split at h
    · cases h; rfl
    · cases h

/-- A builtin that is lowered has the width of its verdict. -/
theorem DirectCall.width?_of_byName {caller : String} {site : DirectCall} {ret : Ty}
    {verdict : Option Verdict} (h : site.byName caller ret = .ok verdict) :
    Builtins.width? site.callee = verdict.map Verdict.width := by
  rw [byName] at h
  rw [Builtins.width?]
  cases hrecipe : Builtins.recipe? site.callee with
  | some recipe =>
      rw [hrecipe] at h
      obtain ⟨steps, hsteps, rfl⟩ := map_eq_ok h
      exact congrArg some (Recipe.length_of_steps hsteps).symm
  | none =>
      rw [hrecipe] at h
      cases hfamily : Builtins.family? site.callee with
      | some family =>
          simp only [hfamily] at h
          obtain ⟨steps, hsteps, rfl⟩ := map_eq_ok h
          exact congrArg some (Family.length_of_steps hsteps).symm
      | none =>
          simp only [hfamily] at h
          cases h
          rfl

theorem Builtins.width?_ne_zero (name : String) : width? name ≠ some 0 := by
  unfold width?
  split
  · rename_i recipe _
    cases recipe <;> simp [Recipe.width]
  · cases family? name with
    | none => simp
    | some family => cases family <;> simp [Family.width]

namespace Module

/-- A verdict gives as many instructions as the callee's tag and name ask for. -/
theorem width?_of_verdict {m : Module} {caller : String} {site : DirectCall}
    {verdict : Option Verdict} (h : m.verdict caller site = .ok verdict) :
    m.width? site.callee = verdict.map Verdict.width := by
  unfold Module.verdict at h
  dsimp only at h
  unfold width?
  generalize (m.func? site.callee).bind Func.intrinsic = tag at h ⊢
  cases tag with
  | none => exact DirectCall.width?_of_byName h
  | some op =>
      cases op with
      | lifetimeStart => cases h; rfl
      | lifetimeEnd => cases h; rfl
      | ctlz =>
          obtain ⟨steps, hsteps, rfl⟩ := map_eq_ok h
          exact congrArg some (DirectCall.length_of_leadingZeros hsteps).symm
      | _ => exact DirectCall.width?_of_byName h

/-- A call is left alone if neither the tag nor the name of its callee asks for anything. -/
theorem width?_eq_none_iff {m : Module} {callee : String} :
    m.width? callee = none ↔ (∀ f ∈ m.func? callee, ∀ op ∈ f.intrinsic, op.recognised = false) ∧
      Builtins.recipe? callee = none ∧ Builtins.family? callee = none := by
  have htag : (∀ f ∈ m.func? callee, ∀ op ∈ f.intrinsic, op.recognised = false) ↔
      ∀ op ∈ (m.func? callee).bind Func.intrinsic, op.recognised = false := by
    cases m.func? callee <;> simp
  have hname : Builtins.width? callee = none ↔
      Builtins.recipe? callee = none ∧ Builtins.family? callee = none := by
    unfold Builtins.width?
    cases Builtins.recipe? callee <;> simp
  rw [htag, ← hname]
  unfold width?
  generalize (m.func? callee).bind Func.intrinsic = tag
  cases tag with
  | none => simp
  | some op => cases op <;> simp [Intrinsic.recognised]

/-- A call that no rule asks for is left as it is. -/
theorem verdict_of_width?_eq_none {m : Module} {site : DirectCall}
    (h : m.width? site.callee = none) (caller : String) : m.verdict caller site = .ok none := by
  obtain ⟨htag, hrecipe, hfamily⟩ := width?_eq_none_iff.1 h
  have hbyName : ∀ ret, site.byName caller ret = .ok none := by
    intro ret
    rw [DirectCall.byName, hrecipe, hfamily]
  have hother : ∀ op, op.recognised = true →
      (m.func? site.callee).bind Func.intrinsic ≠ some op := by
    intro op hop htagged
    obtain ⟨f, hf, hfop⟩ := Option.bind_eq_some_iff.1 htagged
    rw [htag f hf op hfop] at hop
    cases hop
  unfold verdict
  dsimp only
  split
  · rename_i hop
    exact absurd hop (hother _ rfl)
  · rename_i hop
    exact absurd hop (hother _ rfl)
  · rename_i hop
    exact absurd hop (hother _ rfl)
  · exact hbyName _

/-- The calls that leave nothing are the ones that mark lifetimes. -/
theorem marks_iff {m : Module} {site : DirectCall} :
    m.marks site = true ↔ m.width? site.callee = some 0 := by
  unfold marks width?
  generalize (m.func? site.callee).bind Func.intrinsic = tag
  cases tag with
  | none => simp [Builtins.width?_ne_zero]
  | some op => cases op <;> simp [Builtins.width?_ne_zero]

end Module

/-- What a verdict reads of a function. -/
def Func.header (f : Func) : String × Signature × Option Intrinsic := (f.name, f.sig, f.intrinsic)

/-- A declaration of an intrinsic that is not recognised by its tag. -/
def Func.IsTarget (f : Func) : Prop :=
  ∃ op tys, op.recognised = false ∧ f = Func.ofIntrinsic op tys

namespace Module

/-- The functions of a module, their headers unchanged, followed by declarations of intrinsics that
are not recognised by their tags. -/
def Grows (m m' : Module) : Prop :=
  ∃ fs ds, m'.functions = fs ++ ds ∧ fs.map Func.header = m.functions.map Func.header ∧
    ∀ d ∈ ds, d.IsTarget

/-- Looking up a name reads headers only. -/
theorem map_header_find? (fs : List Func) (name : String) :
    (fs.find? fun f => f.name = name).map Func.header =
      (fs.map Func.header).find? fun h => h.1 = name := by
  rw [List.find?_map]
  rfl

/-- A verdict depends on the callee's header only. -/
theorem verdict_congr {m m' : Module} {site : DirectCall} (caller : String)
    (h : (m'.func? site.callee).map Func.header = (m.func? site.callee).map Func.header) :
    m'.verdict caller site = m.verdict caller site := by
  cases hm' : m'.func? site.callee with
  | none =>
      rw [hm', Option.map_none, eq_comm, Option.map_eq_none_iff] at h
      simp only [verdict, hm', h]
  | some g =>
      rw [hm', Option.map_some, eq_comm, Option.map_eq_some_iff] at h
      obtain ⟨f, hf, hfg⟩ := h
      simp only [Func.header, Prod.mk.injEq] at hfg
      simp only [verdict, hm', hf, Option.map_some, Option.bind_some, hfg.2.1, hfg.2.2]

end Module

/-- The first byte of a text. -/
def firstByte (s : String) : Option UInt8 := s.toByteArray.data[0]?

/-- What follows a text does not change how it starts. -/
theorem firstByte_append {s : String} {b : UInt8} (h : firstByte s = some b) (t : String) :
    firstByte (s ++ t) = some b := by
  unfold firstByte at h ⊢
  have hsize : 0 < s.toByteArray.data.size := (Array.getElem?_eq_some_iff.1 h).1
  rw [String.toByteArray_append, ByteArray.data_append, Array.getElem?_append_left hsize]
  exact h

/-- How the names of intrinsics start. -/
theorem Intrinsic.firstByte_declName (op : Intrinsic) (tys : List Ty) :
    firstByte (op.declName tys) = some 108 := by
  have hllvm : firstByte "llvm." = some 108 := by decide +kernel
  exact firstByte_append (firstByte_append hllvm _) _

namespace Builtins

/-- The names of the catalogue do not start like the names of intrinsics. -/
theorem firstByte_of_recipe? {name : String} {recipe : Recipe} (h : recipe? name = some recipe) :
    firstByte name = some 95 := by
  have hone : ∀ e ∈ oneStep, firstByte e.1 = some 95 := by decide +kernel
  have htwo : ∀ e ∈ twoStep, firstByte e.1 = some 95 := by decide +kernel
  rcases mem_of_recipe? h with ⟨op, _, hmem⟩ | ⟨op, op', _, hmem⟩
  · exact hone _ hmem
  · exact htwo _ hmem

/-- The names of the families do not start like the names of intrinsics. -/
theorem firstByte_of_family? {name : String} {family : Family} (h : family? name = some family) :
    firstByte name = some 95 := by
  have hfam : ∀ e ∈ families, firstByte e.1 = some 95 := by decide +kernel
  obtain ⟨e, he, _⟩ := Option.map_eq_some_iff.1 h
  have hp : e.1.toList <+: name.toList := by simpa using List.find?_some he
  obtain ⟨t, ht⟩ := hp
  have hname : name = e.1 ++ String.ofList t := by
    rw [← String.ofList_toList (s := name), ← ht, String.ofList_append, String.ofList_toList]
  rw [hname]
  exact firstByte_append (hfam e (List.mem_of_find?_eq_some he)) _

end Builtins

/-- A call of an intrinsic by its name alone is left as it is. -/
theorem DirectCall.byName_eq_none {site : DirectCall} (hname : firstByte site.callee = some 108)
    (caller : String) (ret : Ty) : site.byName caller ret = .ok none := by
  unfold byName
  split
  · rename_i recipe hr
    rw [Builtins.firstByte_of_recipe? hr] at hname
    cases hname
  · split
    · rename_i family hf
      rw [Builtins.firstByte_of_family? hf] at hname
      cases hname
    · rfl

namespace Module

/-- A callee that is declared as a target intrinsic is left as it is. -/
theorem verdict_of_isTarget {m : Module} {site : DirectCall} {d : Func} (hd : d.IsTarget)
    (h : m.func? site.callee = some d) (caller : String) : m.verdict caller site = .ok none := by
  obtain ⟨op, tys, hop, rfl⟩ := hd
  have hname : firstByte site.callee = some 108 := by
    rw [← (mem_of_func? h).2]
    exact op.firstByte_declName tys
  have hop' : (Func.ofIntrinsic op tys).intrinsic = some op := rfl
  simp only [verdict, h, Option.bind_some, hop']
  cases op with
  | lifetimeStart => cases hop
  | lifetimeEnd => cases hop
  | ctlz => cases hop
  | _ => exact DirectCall.byName_eq_none hname caller _

/-- Growing a module by declarations that lowering adds changes no verdict. -/
theorem verdict_of_grows {m m' : Module} (h : m.Grows m') (caller : String) (site : DirectCall) :
    m'.verdict caller site = m.verdict caller site := by
  obtain ⟨fs, ds, hfuncs, hheaders, hds⟩ := h
  have hfind : m'.func? site.callee =
      (fs.find? fun f => f.name = site.callee).or (ds.find? fun f => f.name = site.callee) := by
    rw [func?, hfuncs, List.find?_append]
  have hold : (fs.find? fun f => f.name = site.callee).map Func.header =
      (m.func? site.callee).map Func.header := by
    rw [map_header_find?, hheaders, ← map_header_find?]
    rfl
  cases hfs : fs.find? fun f => f.name = site.callee with
  | some g =>
      rw [hfs] at hold hfind
      apply verdict_congr
      rw [hfind, Option.some_or]
      exact hold
  | none =>
      rw [hfs] at hold hfind
      cases hd : ds.find? fun f => f.name = site.callee with
      | none =>
          apply verdict_congr
          rw [hfind, hd, Option.or_none]
          exact hold
      | some d =>
          -- The callee was not declared before and is a target intrinsic now: neither is replaced.
          have hnone : m.func? site.callee = none := by
            rw [Option.map_none, eq_comm, Option.map_eq_none_iff] at hold
            exact hold
          have htarget := hds d (List.mem_of_find?_eq_some hd)
          have hsome : m'.func? site.callee = some d := by rw [hfind, hd, Option.none_or]
          rw [verdict_of_isTarget htarget hsome]
          obtain ⟨op, tys, _, rfl⟩ := htarget
          have hname : firstByte site.callee = some 108 := by
            rw [← (mem_of_func? hsome).2]
            exact op.firstByte_declName tys
          simp only [verdict, hnone, Option.bind_none]
          exact (DirectCall.byName_eq_none hname caller _).symm

end Module

end Postlink

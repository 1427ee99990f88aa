import Postlink.Proofs.Pipeline.Orderly
import Postlink.Proofs.CastRepair.Steps
import Postlink.Proofs.Importing.Definitions
import Postlink.Proofs.Linking.Capture
import Postlink.Proofs.Lowering.Outcome
import Postlink.Proofs.Overflow

/-!
# Names and identifiers stay distinct while a program is prepared

Every stage makes symbols or instructions of its own: imported functions and those renamed for them,
copies, redirected calls, declarations of intrinsics and the instructions that stand in for
builtins. Each stage keeps modules orderly, by what one step of it keeps, and so does preparing a
program as a whole, as long as identifiers stay in range (`Module.distinct_prepare`).
-/

namespace Postlink

namespace Demand

/-- Both modules of a walk are orderly. -/
structure Orderly (d : Demand) : Prop where
  /-- The program is. -/
  program : d.program.Orderly
  /-- The library is. -/
  library : d.library.Orderly

namespace Orderly

variable {d e : Demand}

/-- A function may be replaced by one that is numbered. -/
theorem modifyFunc (h : d.Orderly) {side : Side} {name : String} {f g : Func}
    (hf : (d.module side).func? name = some f) (hname : g.name = f.name) (hg : g.opened.Numbered) :
    (d.modifyFunc side name fun _ => g).Orderly := by
  cases side with
  | program => exact ⟨h.program.modifyFunc hf hname hg, h.library⟩
  | library => exact ⟨h.program, h.library.modifyFunc hf hname hg⟩

theorem bodies (h : d.Orderly) {side : Side} {name : String} {f : Func}
    (hf : (d.module side).func? name = some f) : f.opened.Numbered := by
  obtain ⟨hmem, _⟩ := Module.mem_of_func? hf
  cases side with
  | program => exact h.program.bodies f hmem
  | library => exact h.library.bodies f hmem

/-- Calls take over a convention and keep their identifiers. -/
theorem visit (h : d.Orderly) (side : Side) (name : String) : (d.visit side name).1.Orderly := by
  unfold Demand.visit
  split
  · exact h
  · have h' : Orderly { d with visited := (side, name) :: d.visited } := ⟨h.program, h.library⟩
    dsimp only
    split
    · exact h'
    · rename_i f hf
      have hids : Func.SameIds f f.adoptConvention := .mapInstrs f fun _ => rfl
      exact h'.modifyFunc hf rfl (hids.numbered_opened (h'.bodies hf))

/-- Serving a request keeps both modules orderly. -/
theorem supply (h : d.Orderly) {r : Request} {more : List Request}
    (hs : d.supply r = .ok (some (e, more))) : e.Orderly := by
  obtain ⟨side, g, g', hmissing, hload, hvisit⟩ := supply_eq_some hs
  obtain ⟨_, hg, _⟩ := missing?_eq_some_iff.1 hmissing
  have hopened : g'.opened.Numbered := by
    rw [Func.opened_eq_self (Func.isStored_load hload), ← Func.opened_of_load hload]
    exact h.bodies hg
  let c : Func := { g' with conv := r.conv }
  have hids : Func.SameIds g' c := .of_body rfl rfl
  have hname : c.name = g.name := (Func.name_load hload : g'.name = g.name)
  have hloaded := h.modifyFunc hg hname (hids.numbered_opened hopened)
  have hcounted : Orderly { (d.modifyFunc side r.callee fun _ => c) with loaded := d.loaded + 1 } :=
    ⟨hloaded.program, hloaded.library⟩
  have hnext := hcounted.visit side r.callee
  rwa [← hvisit] at hnext

/-- A walk keeps both modules orderly. -/
theorem walk (h : d.Orderly) {roots : List String} (hs : d.walk roots = .ok e) : e.Orderly := by
  refine walk_induction (motive := fun d _ => d.Orderly) ?_ ?_ ?_ h hs
  · intro d root hd
    exact hd.visit .program root
  · intro d r rest hd _
    exact hd
  · intro d r rest d' more hd hsupply
    exact hd.supply hsupply

end Orderly

end Demand

namespace Module.Orderly

variable {m m' dest src out : Module}

/-- Dropping what is unused keeps a module orderly. -/
theorem dropUnused (h : m.Orderly) : m.dropUnused.Orderly := by
  rw [Module.dropUnused]
  induction m.unused generalizing m with
  | nil => exact h
  | cons name names ih => exact ih (h.sublist rfl List.eraseP_sublist)

/-- Loading bodies keeps a module orderly. -/
theorem loadAll (h : m.Orderly) (hs : m.loadAll = (.ok (), m')) : m'.Orderly := by
  have hfuncs := functions_of_loadAll hs
  have hglobals : m'.globals = m.globals := by
    rw [Module.loadAll, Prod.mk.injEq] at hs
    rw [← hs.2]
  refine ⟨?_, hglobals ▸ h.globals, fun b hb => ?_⟩
  · rw [DistinctNames, hfuncs]
    exact h.functions.mapFuncs Func.name_opened
  rw [hfuncs] at hb
  obtain ⟨f, hf, rfl⟩ := List.mem_map.1 hb
  rw [Func.opened_opened]
  exact h.bodies f hf

/-- Renaming a function to a name that no function has. -/
theorem renameFunc (h : m.Orderly) (old : String) {new : String} (hnew : m.func? new = none) :
    (m.renameFunc old new).Orderly := by
  refine ⟨h.functions.renameFunc old hnew, h.globals, fun b hb => ?_⟩
  obtain ⟨f, hf, rfl⟩ := List.mem_map.1 hb
  have hrefs : Func.SameIds f (f.renameRefs old new) := .mapInstrs f fun _ => rfl
  have hids : Func.SameIds f
      { f.renameRefs old new with name := if f.name = old then new else f.name } :=
    ⟨hrefs.nextId, hrefs.ids, hrefs.stored⟩
  exact hids.numbered_opened (h.bodies f hf)

/-- Settling a clash keeps the source orderly. -/
theorem settleClash (h : src.Orderly) {name : String}
    (hs : Module.settleClash dest src name = .ok m') : m'.Orderly := by
  unfold Module.settleClash at hs
  split at hs
  · cases hs
    exact h.renameFunc name (freshName_isFresh dest src name).2
  · cases hs

/-- Moving a variable keeps the destination orderly. -/
theorem mergeGlobal (h : dest.Orderly) {g : Global} (hs : Module.mergeGlobal dest g = .ok m') :
    m'.Orderly := by
  unfold Module.mergeGlobal at hs
  split at hs
  · rename_i hnone
    cases hs
    refine h.with_globals ?_
    rw [List.map_append, List.nodup_append]
    refine ⟨h.globals, List.nodup_singleton _, ?_⟩
    intro a ha b hb hab
    obtain ⟨old, hold, rfl⟩ := List.mem_map.1 ha
    rw [List.map_singleton, List.mem_singleton] at hb
    have hother := List.find?_eq_none.1 hnone old hold
    exact hother (by simp [hab, hb])
  · rename_i old hold
    split at hs
    · cases hs
      exact h
    · split at hs
      · cases hs
        have hname : old.name = g.name := by simpa using List.find?_some hold
        refine h.with_globals ?_
        rw [map_modifyFirst_const hold hname.symm]
        exact h.globals
      · cases hs

/-- Recasting calls keeps a module orderly. -/
theorem castCallers (h : m.Orderly) (name : String) : (m.castCallers name).Orderly := by
  unfold Module.castCallers
  split
  · exact h
  · exact h.mapFuncs (fun _ => rfl) fun f => .mapInstrs f fun _ => rfl

/-- Moving a function that is numbered keeps the destination orderly. -/
theorem mergeFunc {s s' : Module × Nat} (h : s.1.Orderly) {f : Func} (hf : f.opened.Numbered)
    (hs : Module.mergeFunc s f = .ok s') : s'.1.Orderly := by
  unfold Module.mergeFunc at hs
  split at hs
  · rename_i hnone
    cases hs
    refine h.addFunc ?_ hf
    rw [← isSome_func?_iff, hnone]
    exact Bool.false_ne_true
  · rename_i old hold
    split at hs
    · cases hs
      exact h
    · split at hs
      · cases hs
      · cases hs
        have hmoved := h.modifyFunc hold (g := f) (mem_of_func? hold).2.symm hf
        dsimp only
        split
        · exact hmoved
        · exact hmoved.castCallers f.name

/-- Linking keeps names and identifiers apart. -/
theorem link (hdest : dest.Orderly) (hsrc : src.Orderly) {gained : Nat}
    (hs : dest.link src = (.ok gained, out)) : out.Orderly := by
  unfold Module.link at hs
  split at hs
  · cases hs
  · split at hs
    · cases hs
    · rename_i src' hsettled
      have hsrc' : src'.Orderly := stepAll_induction (motive := fun _ m => m.Orderly) hsrc
        (fun _ _ _ _ _ _ h hstep => h.settleClash hstep) hsettled
      unfold Module.merge at hs
      split at hs
      · cases hs
      · rename_i dest' hglobals
        have hdest' : dest'.Orderly := stepAll_induction (motive := fun _ m => m.Orderly) hdest
          (fun _ _ _ _ _ _ h hstep => h.mergeGlobal hstep) hglobals
        split at hs
        · cases hs
        · rename_i out' gained' hfuncs
          cases hs
          refine stepAll_induction (motive := fun _ s => s.1.Orderly) hdest' ?_ hfuncs
          intro done f rest s s' hsplit h hstep
          refine h.mergeFunc (hsrc'.bodies f ?_) hstep
          rw [hsplit]
          exact List.mem_append_right _ (List.mem_cons_self ..)

/-- Importing from an orderly library keeps a program orderly. -/
theorem importFrom {library : Module} (h : m.Orderly) (hlibrary : library.Orderly)
    {stats : ImportStats} (hs : m.importFrom library = .ok (stats, out)) : out.Orderly := by
  obtain ⟨d, src, hwalk, _, hload, hlink⟩ := importFrom_eq_ok hs
  have hd : d.Orderly := Demand.Orderly.walk ⟨h, hlibrary⟩ hwalk
  exact hd.program.link (hd.library.dropUnused.loadAll hload) hlink

/-- Setting a flag keeps a module orderly. -/
theorem setFlag {s : Module × Nat} (h : s.1.Orderly) (flag : Flag) :
    (Module.setFlag s flag).1.Orderly := by
  have honly : (Module.setFlag s flag).1 =
      { s.1 with globals := (Module.setFlag s flag).1.globals } := by
    unfold Module.setFlag
    split <;> rfl
  rw [honly]
  refine h.with_globals ?_
  rw [Module.names_setFlag]
  exact h.globals

/-- Setting flags keeps a module orderly. -/
theorem setFlags (h : m.Orderly) (flags : List Flag) : (m.setFlags flags).1.Orderly := by
  have hrun : ∀ s : Module × Nat, s.1.Orderly → (flags.foldl Module.setFlag s).1.Orderly := by
    induction flags with
    | nil => exact fun s hs => hs
    | cons flag flags ih => exact fun s hs => ih _ (hs.setFlag flag)
  exact hrun (m, 0) h

/-- A function in the place of another with its name. -/
theorem setFunc (h : m.Orderly) {index : Nat} {f g : Func} (hf : m.functions[index]? = some f)
    (hname : g.name = f.name) (hg : g.opened.Numbered) : (m.setFunc index g).Orderly := by
  refine ⟨?_, h.globals, fun b hb => ?_⟩
  · rw [DistinctNames, map_setFunc hf hname]
    exact h.functions
  · rcases List.mem_or_eq_of_mem_set hb with hb | rfl
    · exact h.bodies b hb
    · exact hg

/-- Removing instructions and functions that are staged. -/
theorem carryOut (h : m.Orderly) (e : Erasure) : (e.carryOut m).module.Orderly := by
  have hids : m.DistinctIds := fun f hf => (h.numbered f hf).distinct
  rw [Erasure.carryOut_module h.functions hids]
  have hcleared : (m.mapFuncs (Func.clear e.instrs)).Orderly := by
    refine ⟨h.functions.mapFuncs fun _ => rfl, h.globals, fun b hb => ?_⟩
    obtain ⟨f, hf, rfl⟩ := List.mem_map.1 hb
    exact Func.numbered_opened_clear (h.bodies f hf) e.instrs
  exact hcleared.sublist rfl List.filter_sublist

end Module.Orderly

namespace Repair

variable {s s' : Repair}

/-- A copy has a free name, and the identifiers of its origin. -/
theorem orderly_copy? (h : s.module.Orderly) {c : CastCall} {name : String}
    (hs : s.copy? c = some (name, s')) : s'.module.Orderly := by
  rcases copy?_cases hs with ⟨_, rfl⟩ | ⟨g, _, hg, _, rfl⟩
  · exact h
  · obtain ⟨f, hf, _, rfl⟩ := Module.exists_of_copyFor? hg
    obtain ⟨hmem, _⟩ := Module.mem_of_func? hf
    exact h.addFunc (s.module.freeName_notMem f.name)
      (Func.numbered_of_nodup rfl (h.numbered f hmem).distinct)

/-- A redirected call takes the upcoming identifier. -/
theorem orderly_retarget (h : s.module.Orderly) {index : Nat} {c : CastCall} {name : String}
    (hs : s.retarget .stops index c name = .ok s') : s'.module.Orderly := by
  rcases retarget_cases hs with rfl | ⟨f, old, call, id, g, hf, hold, _, hinsert, rfl⟩
  · exact h
  · have hnum := h.numbered f (List.mem_of_getElem? hf)
    obtain ⟨rfl, rfl⟩ := hnum.insertBefore_eq hinsert
    have hnext := (hnum.insert c.id (redirected name c.sig old call)).renumber
      fun k => if k = c.id then f.upcomingId else k
    rw [← Func.replaceUses_inst] at hnext
    refine h.setFunc hf (Func.name_advance 1 f) ?_
    rwa [Func.opened_eq_self]
    rw [Func.replaceUses_inst, Func.isStored_expand, Func.isStored_expand, Func.isStored_advance]
    exact Func.isStored_of_mem (List.mem_of_find?_eq_some hold)

end Repair

namespace Module.Orderly

variable {m out : Module}

/-- Cast repair keeps a module orderly, if it does not run out of identifiers. -/
theorem repairCasts (h : m.Orderly) {stats : RepairStats}
    (hs : m.repairCasts .stops = .ok (stats, out)) : out.Orderly := by
  obtain ⟨s, hsweep, hfinish⟩ := map_eq_ok hs
  have hswept : s.module.Orderly := Repair.sweep_induction (motive := fun s => s.module.Orderly) h
    (fun _ _ _ _ hcopy h => Repair.orderly_copy? h hcopy)
    (fun _ _ _ _ _ hstep h => Repair.orderly_retarget h hstep) (fun _ h => h) hsweep
  have hout := (hswept.carryOut s.pending).carryOut
    (s.unneeded.foldl (fun e name => Erasure.addFunc name e) Erasure.empty)
  rw [Repair.finish, Prod.mk.injEq] at hfinish
  rw [← hfinish.2]
  exact hout

/-- Making symbols internal keeps names and bodies. -/
theorem internalize (h : m.Orderly) : m.internalize.1.Orderly := by
  have hname : ∀ f : Func, (if f.closes then { f with linkage := .internal } else f).name =
    f.name := by
    intro f
    split <;> rfl
  have hids : ∀ f : Func, f.SameIds (if f.closes then { f with linkage := .internal } else f) := by
    intro f
    split
    · exact .of_body rfl rfl
    · exact .of_body rfl rfl
  refine (h.mapFuncs hname hids).with_globals ?_
  rw [List.map_map]
  have hglobal : (Global.name ∘ fun g : Global => if g.closes
      then { g with linkage := .internal } else g) = Global.name := by
    funext g
    rw [Function.comp_apply]
    split <;> rfl
  rw [hglobal]
  exact h.globals

/-- A function whose builtin calls are replaced: one that is stored has none. -/
theorem expanded (h : m.Orderly) {f : Func} (hf : f ∈ m.functions) (hm : (m.expanded f).Numbered) :
    (m.expanded f).opened.Numbered := by
  cases hstored : f.isStored with
  | true =>
      have hcalls : f.directCalls = [] := by
        rw [Func.directCalls, Func.instrs_of_isStored hstored, List.filterMap_nil]
      rw [Module.expanded, Module.rewrites, hcalls, Module.rewritesFrom, Func.rewriteBy_nil]
      exact h.bodies f hf
  | false =>
      have hkept : (m.expanded f).isStored = f.isStored := by
        rw [Module.expanded, Func.rewriteBy, Func.isStored_expand, Func.isStored_advance]
      rwa [Func.opened_eq_self (hkept.trans hstored)]

/-- Lowering keeps a module orderly, if it does not run out of identifiers. -/
theorem lower (h : m.Orderly) {internal : Bool} {stats : LoweringStats}
    (hs : m.lower .stops internal = .ok (stats, out)) : out.Orderly := by
  obtain ⟨s, hsweep, hout⟩ := map_eq_ok hs
  have hswept := Lowering.Swept.sweep h.functions h.numbered hsweep
  obtain ⟨ds, hmodule, hds⟩ := hswept.shape
  have hrewritten := hswept.rewritten
  rw [List.take_length] at hrewritten
  rw [List.take_length, List.drop_length, List.append_nil] at hmodule
  have hs : s.module.Orderly := by
    refine ⟨hswept.names, ?_, fun g hg => ?_⟩
    · rw [hmodule]
      exact h.globals
    · rw [hmodule] at hg
      rcases List.mem_append.1 hg with hg | hg
      · obtain ⟨f, hf, rfl⟩ := List.mem_map.1 hg
        exact h.expanded hf (hrewritten f hf).2
      · obtain ⟨op, tys, _, rfl⟩ := hds g hg
        exact Func.numbered_of_instrs_eq_nil rfl
  have hcleared := hs.carryOut s.pending
  dsimp only at hout
  split at hout
  · cases hout
    exact hcleared.internalize
  · cases hout
    exact hcleared

/-- Preparing a program keeps it orderly. -/
theorem prepare {library : Module} (h : m.Orderly) (hlibrary : library.Orderly) {config : Config}
    {stats : PrepareStats} (hs : m.prepare .stops config library = .ok (stats, out)) :
    out.Orderly := by
  unfold Module.prepare at hs
  split at hs
  · cases hs
  · rename_i imported linked himport
    have hlinked := h.importFrom hlibrary himport
    dsimp only at hs
    split at hs
    · cases hs
    · rename_i repaired cast hrepair
      have hcast := (hlinked.setFlags config.flags).repairCasts hrepair
      split at hs
      · cases hs
      · rename_i lowering lowered hlower
        cases hs
        exact hcast.lower hlower

end Module.Orderly

/-- Decoding a body does not set the counter. -/
theorem Func.nextId_opened {f : Func} (h : f.nextId = none) : f.opened.nextId = none := by
  cases hbody : f.body with
  | stored s =>
      rw [opened_of_stored hbody]
      cases Blocks.read? s.slice with
      | none => exact h
      | some bs => rfl
  | declared => rwa [opened_eq_self (by rw [isStored, hbody]; rfl)]
  | loaded bs => rwa [opened_eq_self (by rw [isStored, hbody]; rfl)]

namespace Module

/-- No two functions share a name, no two variables do, and no two instructions of a body share an
identifier, also if the body is still stored. -/
structure Distinct (m : Module) : Prop where
  /-- The names of functions. -/
  functions : m.DistinctNames
  /-- The names of variables. -/
  globals : (m.globals.map Global.name).Nodup
  /-- The identifiers in each body, once it is decoded. -/
  ids : ∀ f ∈ m.functions, (f.opened.instrs.map Instr.id).Nodup

instance (m : Module) : Decidable m.Distinct :=
  decidable_of_iff (m.DistinctNames ∧ (m.globals.map Global.name).Nodup ∧
      ∀ f ∈ m.functions, (f.opened.instrs.map Instr.id).Nodup)
    ⟨fun h => ⟨h.1, h.2.1, h.2.2⟩, fun h => ⟨h.functions, h.globals, h.ids⟩⟩

/-- No function has handed out identifiers yet. -/
def Uncounted (m : Module) : Prop := ∀ f ∈ m.functions, f.nextId = none

instance (m : Module) : Decidable m.Uncounted :=
  inferInstanceAs (Decidable (∀ f ∈ m.functions, f.nextId = none))

variable {m program library out : Module}

/-- Where nothing is named twice and no counter is set, a module is orderly. -/
theorem Distinct.orderly (h : m.Distinct) (hcount : m.Uncounted) : m.Orderly :=
  ⟨h.functions, h.globals,
    fun f hf => Func.numbered_of_nodup (Func.nextId_opened (hcount f hf)) (h.ids f hf)⟩

/-- In an orderly module nothing is named twice. -/
theorem Orderly.distinct (h : m.Orderly) : m.Distinct :=
  ⟨h.functions, h.globals, fun f hf => (h.bodies f hf).distinct⟩

/-- As long as identifiers stay in range, preparing a program keeps names and identifiers distinct,
and counters stay ahead of the identifiers in use. -/
theorem distinct_prepare (hprogram : program.Distinct) (hlibrary : library.Distinct)
    (hcount : program.Uncounted) (hcount' : library.Uncounted) {config : Config}
    (hrange : PreparesInRange config program library) {mode : Overflow} {stats : PrepareStats}
    (h : program.prepare mode config library = .ok (stats, out)) : out.Distinct ∧ out.Numbered := by
  rw [hrange.prepare_eq mode] at h
  have hout := (hprogram.orderly hcount).prepare (hlibrary.orderly hcount') h
  exact ⟨hout.distinct, hout.numbered⟩

/-- A program with a helper of its own that expects integers of a library function, and a flag that
it only declares. -/
def rootProgram : Module :=
  { helperProgram with globals := [⟨"__FlushDenormals", .int 32, none, .external⟩] }

/-- A library in which that function computes a square root of floats in a helper. -/
def rootLibrary : Module :=
  let real : Signature := ⟨.float 32, [.float 32]⟩
  ⟨"l", [⟨"__FlushDenormals", .int 32, some (.word 0), .external⟩],
    [{ (relay "helper" (.float 32) "__builtin_IB_native_sqrtf"
      real).packed with linkage := .internal }, (relay "f" (.float 32) "helper" real).packed,
      .declare "__builtin_IB_native_sqrtf" real]⟩

/-- One of the helpers is renamed, the call of `f` is redirected to a copy of it, and an intrinsic
takes the place of the builtin. -/
theorem distinct_prepare_root :
    rootProgram.Distinct ∧ rootLibrary.Distinct ∧ rootProgram.Uncounted ∧ rootLibrary.Uncounted ∧
    PreparesInRange .standard rootProgram rootLibrary ∧
    ∃ stats out, rootProgram.prepare .wraps .standard rootLibrary = .ok (stats, out) ∧
      stats = ⟨⟨2, 0, 2⟩, 1, ⟨1, 1, 0, 1⟩, ⟨1, 0, 3⟩⟩ ∧ out.Distinct ∧ out.Numbered := by
  have hcount : rootProgram.Uncounted := by decide +kernel
  have hcount' : rootLibrary.Uncounted := by decide +kernel
  have hprogram : rootProgram.Distinct := by decide +kernel
  -- Evaluated together, so that the bodies are decoded only once.
  obtain ⟨hlibrary, hrun⟩ : rootLibrary.Distinct ∧
      (rootProgram.prepare .stops .standard rootLibrary).toOption.map Prod.fst =
        some ⟨⟨2, 0, 2⟩, 1, ⟨1, 1, 0, 1⟩, ⟨1, 0, 3⟩⟩ := by
    decide +kernel
  obtain ⟨r, hr, hstats⟩ := exists_ok_of_map hrun
  have hrange : PreparesInRange .standard rootProgram rootLibrary := by
    rw [PreparesInRange, hr]
    exact fun heq => by cases heq
  have hwraps := (hrange.prepare_eq .wraps).trans hr
  exact ⟨hprogram, hlibrary, hcount, hcount', hrange, r.1, r.2, hwraps, hstats,
    distinct_prepare hprogram hlibrary hcount hcount' hrange hwraps⟩

end Module

end Postlink

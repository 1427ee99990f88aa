import Postlink.Proofs.Importing.Outcome
import Postlink.CastRepair
import Postlink.Flags
import Postlink.Visibility

/-!
# Modules in which names and identifiers are distinct

In an orderly module no two functions share a name, no two variables do, and every body has distinct
identifiers below its counter, bodies that are still stored once they are decoded. Each operation on
modules keeps that: what it adds has a name that is free or a fresh identifier, and what else it
does to functions leaves their identifiers alone (`Func.SameIds`).
-/

namespace Postlink

/-- Setting a flag renames no variable. -/
theorem Module.names_setFlag (s : Module × Nat) (flag : Flag) :
    (setFlag s flag).1.globals.map Global.name = s.1.globals.map Global.name := by
  have hname : ∀ g : Global,
      ({ g with init := some (Constant.word flag.value.bits.toNat) } : Global).name = g.name :=
    fun _ => rfl
  unfold setFlag
  split
  · rfl
  · exact map_modifyFirst hname s.1.globals

namespace Func

variable {f g : Func}

/-- A function without instructions is numbered. -/
theorem numbered_of_instrs_eq_nil (h : f.instrs = []) : f.Numbered := by
  refine ⟨by rw [h]; exact List.nodup_nil, ?_⟩
  rw [h]
  intro i hi
  cases hi

/-- Without a counter, distinct identifiers are enough. -/
theorem numbered_of_nodup (hnext : f.nextId = none) (h : (f.instrs.map Instr.id).Nodup) :
    f.Numbered := by
  refine ⟨h, fun i hi => ?_⟩
  rw [upcomingId, hnext, Option.getD_none]
  exact Instr.lt_idBound hi

/-- A body that is numbered once it is decoded is numbered before. -/
theorem numbered_of_opened (h : f.opened.Numbered) : f.Numbered := by
  cases hstored : f.isStored with
  | true => exact numbered_of_instrs_eq_nil (instrs_of_isStored hstored)
  | false => rwa [opened_eq_self hstored] at h

theorem isStored_expand (k : Instr → List Instr) (f : Func) : (f.expand k).isStored = f.isStored :=
  f.body.isStored_mapBlocks _

theorem isStored_advance (count : Nat) (f : Func) : (f.advance count).isStored = f.isStored := by
  rw [isStored, body_advance, isStored]

/-- A function with instructions is not stored. -/
theorem isStored_of_mem {i : Instr} (h : i ∈ f.instrs) : f.isStored = false := by
  cases hstored : f.isStored with
  | false => rfl
  | true =>
      rw [instrs_of_isStored hstored] at h
      cases h

/-- Fewer identifiers under the same counter are numbered. -/
theorem Numbered.of_sublist {g : Func} (h : f.Numbered) (hnext : g.nextId = f.nextId)
    (hids : (g.instrs.map Instr.id).Sublist (f.instrs.map Instr.id)) : g.Numbered := by
  have hdistinct := h.distinct.sublist hids
  cases hcounter : f.nextId with
  | none => exact numbered_of_nodup (hnext.trans hcounter) hdistinct
  | some n =>
      refine ⟨hdistinct, fun i hi => ?_⟩
      obtain ⟨j, hj, hid⟩ := List.mem_map.1 (hids.subset (List.mem_map_of_mem hi))
      have hlt := h.below j hj
      rw [upcomingId, hcounter, Option.getD_some] at hlt
      rwa [upcomingId, hnext, hcounter, Option.getD_some, ← hid]

/-- Removing instructions keeps a function numbered. -/
theorem Numbered.clear (h : f.Numbered) (staged : List (String × Nat)) :
    (f.clear staged).Numbered := by
  refine h.of_sublist rfl ?_
  rw [instrs_clear]
  exact List.filter_sublist.map Instr.id

/-- Removing instructions keeps a body numbered, decoded or not. -/
theorem numbered_opened_clear (h : f.opened.Numbered) (staged : List (String × Nat)) :
    (f.clear staged).opened.Numbered := by
  cases hstored : f.isStored with
  | true =>
      have hnone : ∀ i ∈ f.instrs, (f.name, i.id) ∉ staged := by
        rw [instrs_of_isStored hstored]
        intro i hi
        cases hi
      rwa [clear_of_forall hnone]
  | false =>
      have hcleared : (f.clear staged).isStored = false := (isStored_expand _ f).trans hstored
      rw [opened_eq_self hcleared]
      exact (numbered_of_opened h).clear staged

/-- Two functions with the same counter, the same identifiers in the same order, and the same stored
body if the second one has any. -/
structure SameIds (f g : Func) : Prop where
  /-- The counters agree. -/
  nextId : g.nextId = f.nextId
  /-- The identifiers agree. -/
  ids : g.instrs.map Instr.id = f.instrs.map Instr.id
  /-- A stored body is the same. -/
  stored : ∀ s, g.body = .stored s → f.body = .stored s

/-- The same body and the same counter have the same identifiers. -/
theorem SameIds.of_body (hbody : g.body = f.body) (hnext : g.nextId = f.nextId) : SameIds f g := by
  refine ⟨hnext, ?_, fun s hs => hbody ▸ hs⟩
  rw [instrs, instrs, blocks, blocks, hbody]

/-- Changing instructions without their identifiers. -/
theorem SameIds.mapInstrs (f : Func) {k : Instr → Instr} (hk : ∀ i, (k i).id = i.id) :
    SameIds f (f.mapInstrs k) := by
  refine ⟨rfl, ?_, fun s hs => ?_⟩
  · rw [instrs_mapInstrs, List.map_map]
    exact List.map_congr_left fun i _ => hk i
  · rw [Func.mapInstrs] at hs
    cases hb : f.body with
    | stored s' => rw [hb] at hs; exact hs
    | declared => rw [hb] at hs; cases hs
    | loaded bs => rw [hb] at hs; cases hs

/-- Decoding a stored body that can be read. -/
theorem opened_of_stored {s : StoredBody} (h : f.body = .stored s) : f.opened =
    ((Blocks.read? s.slice).map fun bs => { f with body := .loaded bs, nextId := none }).getD
    f := by
  rw [opened, load, h]
  cases hread : Blocks.read? s.slice <;> simp [hread, Except.toOption]

/-- Where identifiers agree, one function is numbered if the other is, decoded or not. -/
theorem SameIds.numbered_opened (h : SameIds f g) (hf : f.opened.Numbered) : g.opened.Numbered := by
  cases hstored : g.isStored with
  | false =>
      rw [opened_eq_self hstored]
      exact (numbered_of_opened hf).congr h.nextId h.ids
  | true =>
      obtain ⟨s, hs⟩ : ∃ s, g.body = .stored s := by
        rw [isStored] at hstored
        cases hb : g.body with
        | stored s => exact ⟨s, rfl⟩
        | declared => rw [hb] at hstored; cases hstored
        | loaded bs => rw [hb] at hstored; cases hstored
      rw [opened_of_stored (h.stored s hs)] at hf
      rw [opened_of_stored hs]
      cases hread : Blocks.read? s.slice with
      | none => exact numbered_of_instrs_eq_nil (instrs_of_isStored hstored)
      | some bs =>
          rw [hread] at hf
          exact hf.congr rfl rfl

end Func

namespace Module

/-- Names tell functions apart and variables apart, and bodies are numbered, decoded if need be. -/
structure Orderly (m : Module) : Prop where
  /-- No two functions share a name. -/
  functions : m.DistinctNames
  /-- No two variables share a name. -/
  globals : (m.globals.map Global.name).Nodup
  /-- Identifiers are distinct and below the counter. -/
  bodies : ∀ f ∈ m.functions, f.opened.Numbered

namespace Orderly

variable {m m' : Module}

theorem numbered (h : m.Orderly) : m.Numbered := fun f hf => Func.numbered_of_opened (h.bodies f hf)

/-- A function in the place of one with its name. -/
theorem modifyFunc (h : m.Orderly) {name : String} {f g : Func} (hf : m.func? name = some f)
    (hname : g.name = f.name) (hg : g.opened.Numbered) :
    (m.modifyFunc name fun _ => g).Orderly := by
  refine ⟨?_, h.globals, fun b hb => ?_⟩
  · rw [DistinctNames, Module.modifyFunc, map_modifyFirst_const hf hname]
    exact h.functions
  · rcases mem_modifyFirst_const hb with rfl | hb
    · exact hg
    · exact h.bodies b hb

/-- A function under a new name. -/
theorem addFunc (h : m.Orderly) {f : Func} (hnew : f.name ∉ m.functions.map Func.name)
    (hf : f.opened.Numbered) : (m.addFunc f).Orderly := by
  refine ⟨h.functions.addFunc hnew, h.globals, fun b hb => ?_⟩
  rcases List.mem_append.1 hb with hb | hb
  · exact h.bodies b hb
  · rwa [List.mem_singleton.1 hb]

/-- Changes to all functions that keep names and identifiers. -/
theorem mapFuncs (h : m.Orderly) {k : Func → Func} (hname : ∀ f, (k f).name = f.name)
    (hids : ∀ f, Func.SameIds f (k f)) : (m.mapFuncs k).Orderly := by
  refine ⟨h.functions.mapFuncs hname, h.globals, fun b hb => ?_⟩
  obtain ⟨f, hf, rfl⟩ := List.mem_map.1 hb
  exact (hids f).numbered_opened (h.bodies f hf)

/-- Only some functions. -/
theorem sublist (h : m.Orderly) (hglobals : m'.globals = m.globals)
    (hsub : m'.functions.Sublist m.functions) : m'.Orderly :=
  ⟨h.functions.sublist (hsub.map Func.name), hglobals ▸ h.globals,
    fun f hf => h.bodies f (hsub.subset hf)⟩

/-- Only variables change, under their names. -/
theorem with_globals (h : m.Orderly) {gs : List Global} (hgs : (gs.map Global.name).Nodup) :
    Orderly { m with globals := gs } :=
  ⟨h.functions, hgs, h.bodies⟩

end Orderly

end Module

end Postlink

import Postlink.Proofs.Substitution

/-!
# Renaming references and counting them

The functions that a function refers to are named in its operands, possibly below casts. One
traversal renames them in place, and another looks through the casts and counts. Both can be read
off the list of these names (`Func.refs`): the one maps over it, the other counts in it. This list
and the function without the names (`Func.unnamed`) determine the function (`Func.eq_of_unnamed`),
so that a renaming is known by what it does to either. It adds the uses of the old name to those of
the new one, and it can be taken back exactly if the new name had no uses
(`Func.renamesRefs_renameRefs`).
-/

namespace Postlink

/-- Lists are equal if their elements agree but for some contents, and all contents together
agree. -/
theorem eq_of_map_of_flatMap {α β γ : Type} {rest : α → β} {contents : α → List γ}
    (hlength : ∀ a b, rest a = rest b → (contents a).length = (contents b).length)
    (heq : ∀ a b, rest a = rest b → contents a = contents b → a = b) {as bs : List α}
    (hrest : as.map rest = bs.map rest) (hall : as.flatMap contents = bs.flatMap contents) :
    as = bs := by
  induction as generalizing bs with
  | nil => exact (List.map_eq_nil_iff.1 hrest.symm).symm
  | cons a as ih =>
      cases bs with
      | nil => cases hrest
      | cons b bs =>
          obtain ⟨hhead, htail⟩ := List.cons.inj hrest
          rw [List.flatMap_cons, List.flatMap_cons] at hall
          -- Contents of equal length come first on both sides, so the two can be cut there.
          obtain ⟨hfirst, hothers⟩ := List.append_inj hall (hlength a b hhead)
          rw [heq a b hhead hfirst, ih htail hothers]

namespace Operand

/-- The operand without the name of the function that it names. -/
def unnamed : Operand → Operand
  | .func _ => .func ""
  | .cast value ty => .cast value.unnamed ty
  | o => o

theorem unnamed_rename (old new : String) (o : Operand) :
    (o.rename old new).unnamed = o.unnamed := by
  induction o with
  | cast value ty ih => rw [rename, unnamed, ih, unnamed]
  | _ => rfl

/-- Without its name one can still see that there was one. -/
theorem isSome_func?_unnamed (o : Operand) : o.unnamed.func?.isSome = o.func?.isSome := by
  induction o with
  | cast value ty ih => exact ih
  | _ => rfl

/-- An operand is determined by the function that it names and the rest. -/
theorem eq_of_unnamed {o p : Operand} (hrest : o.unnamed = p.unnamed) (hname : o.func? = p.func?) :
    o = p := by
  induction o generalizing p with
  | func name =>
      cases p with
      | func name' => exact congrArg func (Option.some.inj hname)
      | _ => cases hrest
  | cast value ty ih =>
      cases p with
      | cast value' ty' =>
          obtain ⟨hvalue, rfl⟩ := Operand.cast.inj hrest
          rw [ih hvalue hname]
      | _ => cases hrest
  | _ =>
      cases p with
      | func name => cases hrest
      | cast value ty => cases hrest
      | _ => exact hrest

/-- Operands are determined by the functions that they name, in order, and the rest. -/
theorem eq_of_map_unnamed {os ps : List Operand} (hrest : os.map unnamed = ps.map unnamed)
    (hnames : os.filterMap func? = ps.filterMap func?) : os = ps := by
  rw [List.filterMap_eq_flatMap_toList, List.filterMap_eq_flatMap_toList] at hnames
  refine eq_of_map_of_flatMap ?_ ?_ hrest hnames
  · intro o p h
    have hsome : o.func?.isSome = p.func?.isSome := by
      rw [← isSome_func?_unnamed, h, isSome_func?_unnamed]
    rw [Option.length_toList, Option.length_toList, hsome]
  · intro o p h hname
    have hhead := congrArg List.head? hname
    rw [Option.head?_toList, Option.head?_toList] at hhead
    exact eq_of_unnamed h hhead

end Operand

section Determined

variable {change : Operand → Operand}

/-- What an instruction does is determined by its operands and the rest. -/
theorem InstrKind.eq_of_operands {k l : InstrKind}
    (hrest : k.mapOperands change = l.mapOperands change)
    (hoperands : k.operands = l.operands) : k = l := by
  cases k with
  | call c =>
      cases l with
      | call d =>
          obtain ⟨callee, sig, args, conv⟩ := c
          obtain ⟨callee', sig', args', conv'⟩ := d
          simp only [mapOperands, InstrKind.call.injEq, Call.mk.injEq] at hrest
          obtain ⟨rfl, rfl⟩ := List.cons.inj hoperands
          obtain ⟨_, rfl, _, rfl⟩ := hrest
          rfl
      | _ => cases hrest
  | binary op lhs rhs =>
      cases l with
      | binary op' lhs' rhs' =>
          simp only [mapOperands, InstrKind.binary.injEq] at hrest
          simp only [operands, List.cons.injEq, and_true] at hoperands
          rw [hrest.1, hoperands.1, hoperands.2]
      | _ => cases hrest
  | cast op value =>
      cases l with
      | cast op' value' =>
          simp only [mapOperands, InstrKind.cast.injEq] at hrest
          simp only [operands, List.cons.injEq, and_true] at hoperands
          rw [hrest.1, hoperands]
      | _ => cases hrest
  | ret value =>
      cases l with
      | ret value' =>
          have hhead := congrArg List.head? hoperands
          simp only [operands, Option.head?_toList] at hhead
          rw [hhead]
      | _ => cases hrest

theorem Instr.eq_of_operands {i j : Instr} (hrest : i.mapOperands change = j.mapOperands change)
    (hoperands : i.operands = j.operands) : i = j := by
  obtain ⟨id, name, ty, kind, loc⟩ := i
  obtain ⟨id', name', ty', kind', loc'⟩ := j
  simp only [mapOperands, Instr.mk.injEq] at hrest
  obtain ⟨rfl, rfl, rfl, hkind, rfl⟩ := hrest
  rw [InstrKind.eq_of_operands hkind hoperands]

theorem Instr.length_operands_eq {i j : Instr}
    (hrest : i.mapOperands change = j.mapOperands change) :
    i.operands.length = j.operands.length := by
  have hlength := congrArg (fun k => k.operands.length) hrest
  simpa using hlength

/-- Instructions are determined by all their operands together and the rest. -/
theorem Instr.eq_of_flatMap_operands {is js : List Instr}
    (hrest : is.map (mapOperands change) = js.map (mapOperands change))
    (hoperands : is.flatMap operands = js.flatMap operands) : is = js :=
  eq_of_map_of_flatMap (fun _ _ => length_operands_eq) (fun _ _ => eq_of_operands) hrest hoperands

end Determined

/-- Blocks are determined by all their instructions together and the rest. -/
theorem Blocks.eq_of_instrs {g : Instr → Instr} {bs cs : Blocks}
    (hrest : bs.mapInstrs g = cs.mapInstrs g) (hinstrs : bs.instrs = cs.instrs) : bs = cs := by
  refine eq_of_map_of_flatMap ?_ ?_ hrest hinstrs
  · intro b c h
    simpa using congrArg List.length (Block.mk.inj h).2
  · intro b c h hsame
    obtain ⟨label, is⟩ := b
    obtain ⟨label', js⟩ := c
    exact congrArg₂ Block.mk (Block.mk.inj h).1 hsame

namespace Func

/-- The names of the functions that the operands name, in order. -/
def refs (f : Func) : List String := f.operands.filterMap Operand.func?

/-- The function without the names of the functions that its operands name. -/
def unnamed (f : Func) : Func := f.mapInstrs (Instr.mapOperands Operand.unnamed)

/-- A function is determined by its operands and the rest. -/
theorem eq_of_operands {change : Operand → Operand} {f g : Func}
    (hrest : f.mapInstrs (Instr.mapOperands change) = g.mapInstrs (Instr.mapOperands change))
    (hoperands : f.operands = g.operands) : f = g := by
  have hmap := congrArg instrs hrest
  rw [instrs_mapInstrs, instrs_mapInstrs] at hmap
  have hinstrs : f.instrs = g.instrs := Instr.eq_of_flatMap_operands hmap hoperands
  obtain ⟨name, sig, conv, linkage, exported, attributes, intrinsic, params, body, nextId⟩ := f
  obtain ⟨_, _, _, _, _, _, _, _, body', _⟩ := g
  simp only [mapInstrs, Func.mk.injEq] at hrest
  obtain ⟨rfl, rfl, rfl, rfl, rfl, rfl, rfl, rfl, hbody, rfl⟩ := hrest
  have hsame : body = body' := by
    cases body with
    | loaded bs =>
        cases body' with
        | loaded cs =>
            exact congrArg Body.loaded (Blocks.eq_of_instrs (Body.loaded.inj hbody) hinstrs)
        | _ => cases hbody
    -- A body that is not loaded has no operands to take out.
    | _ =>
        cases body' with
        | loaded cs => cases hbody
        | _ => exact hbody
  rw [hsame]

/-- A function is determined by the functions that it names, in order, and the rest. -/
theorem eq_of_unnamed {f g : Func} (hrest : f.unnamed = g.unnamed) (hrefs : f.refs = g.refs) :
    f = g := by
  apply eq_of_operands hrest
  have hoperands := congrArg operands hrest
  rw [unnamed, unnamed, operands_mapInstrs, operands_mapInstrs] at hoperands
  exact Operand.eq_of_map_unnamed hoperands hrefs

/-- To count uses is to count among the names. -/
theorem usesOf_eq_count (name : String) (f : Func) : f.usesOf name = f.refs.count name := by
  rw [usesOf, refs, List.count_filterMap]
  exact List.countP_congr fun o _ => by simp

variable (old new : String) (f : Func)

theorem unnamed_renameRefs : (f.renameRefs old new).unnamed = f.unnamed := by
  rw [unnamed, renameRefs, mapInstrs_mapInstrs, unnamed]
  congr 1
  funext i
  rw [Function.comp_apply, Instr.mapOperands_mapOperands]
  exact Instr.mapOperands_congr fun o _ => o.unnamed_rename old new

/-- To rename references is to rename the names, each in its place. -/
theorem refs_renameRefs :
    (f.renameRefs old new).refs = f.refs.map fun name => if name = old then new else name := by
  rw [refs, renameRefs, operands_mapInstrs, List.filterMap_map, refs, List.map_filterMap]
  congr 1
  funext o
  exact o.func?_rename old new

variable {old new}

/-- No use of the old name is left. -/
theorem usesOf_renameRefs_old (h : old ≠ new) : (f.renameRefs old new).usesOf old = 0 := by
  rw [usesOf_eq_count, refs_renameRefs, List.count_eq_zero]
  intro hmem
  obtain ⟨ref, _, href⟩ := List.mem_map.1 hmem
  split at href
  · exact h href.symm
  · rename_i hne
    exact hne href

/-- The new name takes over the uses of the old one. -/
theorem usesOf_renameRefs_new (h : old ≠ new) :
    (f.renameRefs old new).usesOf new = f.usesOf old + f.usesOf new := by
  simp only [usesOf_eq_count, refs_renameRefs]
  induction f.refs with
  | nil => rfl
  | cons ref refs ih =>
      have hone : (if (if ref = old then new else ref) == new then 1 else 0) =
          (if ref == old then 1 else 0) + if ref == new then 1 else 0 := by
        by_cases href : ref = old
        · simp [href, h]
        · simp [href]
      rw [List.map_cons, List.count_cons, List.count_cons, List.count_cons, ih, hone]
      omega

/-- The uses of a third name stay. -/
theorem usesOf_renameRefs_other {name : String} (hold : name ≠ old) (hnew : name ≠ new) :
    (f.renameRefs old new).usesOf name = f.usesOf name := by
  rw [usesOf_eq_count, refs_renameRefs, List.count_eq_countP, List.countP_map, usesOf_eq_count,
    List.count_eq_countP]
  refine List.countP_congr fun ref _ => ?_
  rw [Function.comp_apply, beq_iff_eq, beq_iff_eq]
  split
  · rename_i href
    rw [href]
    exact ⟨fun heq => absurd heq.symm hnew, fun heq => absurd heq.symm hold⟩
  · rfl

/-- References to a function are renamed, and nothing else changes. -/
structure RenamesRefs (old new : String) (f g : Func) : Prop where
  /-- The old name has no uses left. -/
  gone : g.usesOf old = 0
  /-- The new name has its own uses and those of the old one. -/
  moved : g.usesOf new = f.usesOf old + f.usesOf new
  /-- Every other name has as many uses as before. -/
  other : ∀ name, name ≠ old → name ≠ new → g.usesOf name = f.usesOf name
  /-- Each name is in its place. -/
  refs : g.refs = f.refs.map fun name => if name = old then new else name
  /-- Everything but the names is as it was. -/
  rest : g.unnamed = f.unnamed

/-- There is only one way to rename references. -/
theorem RenamesRefs.eq {f g : Func} (h : f.RenamesRefs old new g) : g = f.renameRefs old new := by
  apply eq_of_unnamed
  · rw [h.rest, unnamed_renameRefs]
  · rw [h.refs, refs_renameRefs]

/-- A renaming can be taken back exactly if the new name had no uses. -/
theorem renameRefs_renameRefs_iff (h : old ≠ new) :
    (f.renameRefs old new).renameRefs new old = f ↔ f.usesOf new = 0 := by
  constructor
  · -- Renaming back leaves no use of the new name.
    intro hback
    rw [← hback]
    exact usesOf_renameRefs_old _ h.symm
  · intro hunused
    rw [usesOf_eq_count, List.count_eq_zero] at hunused
    apply eq_of_unnamed
    · rw [unnamed_renameRefs, unnamed_renameRefs]
    · rw [refs_renameRefs, refs_renameRefs, List.map_map]
      refine (List.map_congr_left fun name hname => ?_).trans (List.map_id _)
      have hne : name ≠ new := fun heq => hunused (heq ▸ hname)
      by_cases hold : name = old
      · simp [hold]
      · simp [hold, hne]

/-- Renaming references leaves no use of the old name, adds its uses to those of the new one, and
changes neither the uses of another name nor anything but names in operands. No other change does
this. It can be taken back exactly if the new name had no uses. -/
theorem renamesRefs_renameRefs {old new : String} (h : old ≠ new) (f : Func) :
    f.RenamesRefs old new (f.renameRefs old new) ∧
    (∀ g, f.RenamesRefs old new g → g = f.renameRefs old new) ∧
    ((f.renameRefs old new).renameRefs new old = f ↔ f.usesOf new = 0) := by
  refine ⟨?_, fun g hg => hg.eq, f.renameRefs_renameRefs_iff h⟩
  exact ⟨f.usesOf_renameRefs_old h, f.usesOf_renameRefs_new h, fun _ => f.usesOf_renameRefs_other,
    f.refs_renameRefs old new, f.unnamed_renameRefs old new⟩

/-- A function that names `g` as callee, argument, term, source of a conversion and value to return,
some of them below casts. It also names `k`, and it takes the address of a variable `g`. -/
def widespread : Func :=
  let word : Ty := .int 32
  let address : Ty := .ptr word
  .define "f" ⟨address, []⟩ [⟨"entry",
    [⟨0, "", address, .call ⟨.cast (.cast (.func "g") (.ptr .void)) address,
        ⟨address, [address, address, address]⟩, [.func "g", .global "g", .func "k"], .fast⟩, none⟩,
      ⟨1, "", address, .binary .add (.cast (.func "g") address) (.inst 0), none⟩]⟩,
    ⟨"exit",
      [⟨2, "", word, .cast .bitcast (.func "g"), none⟩,
        ⟨3, "", .void, .ret (some (.cast (.func "g") address)), none⟩]⟩]

/-- All five uses are renamed. They are found again if the new name was not in use, and not if it
was. -/
theorem renamesRefs_widespread :
    "g" ≠ "h" ∧ widespread.usesOf "g" = 5 ∧ widespread.usesOf "h" = 0 ∧ widespread.usesOf "k" = 1 ∧
    widespread.RenamesRefs "g" "h" (widespread.renameRefs "g" "h") ∧
    (widespread.renameRefs "g" "h").renameRefs "h" "g" = widespread ∧
    (widespread.renameRefs "g" "k").renameRefs "k" "g" ≠ widespread := by
  have hfree : "g" ≠ "h" := by decide
  have hused : "g" ≠ "k" := by decide
  have hh : widespread.usesOf "h" = 0 := by decide +kernel
  have hk : widespread.usesOf "k" = 1 := by decide +kernel
  obtain ⟨hrenames, _, hback⟩ := renamesRefs_renameRefs hfree widespread
  obtain ⟨_, _, hlost⟩ := renamesRefs_renameRefs hused widespread
  refine ⟨hfree, by decide +kernel, hh, hk, hrenames, hback.2 hh, fun heq => ?_⟩
  rw [hlost.1 heq] at hk
  cases hk

end Func

end Postlink

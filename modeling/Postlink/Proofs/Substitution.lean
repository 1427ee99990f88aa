import Postlink.Proofs.Lowering.DefinedUses

/-!
# Replacing the uses of a result

To replace the uses of a result is to put a value in its place in every operand, below casts too,
and to change nothing else (`Func.ReplacesUses`). `Func.replaceUses` looks only for operands that
are the result itself, so a result that a cast hides stays where it is. It replaces all uses exactly
if no cast hides one, and otherwise what it leaves behind is those casts (`Func.replacesUses_iff`).
-/

namespace Postlink

namespace Operand

/-- Put a value in the place of the result of an instruction, also below casts. -/
def subst (id : Nat) (value : Operand) : Operand → Operand
  | .inst k => if k = id then value else .inst k
  | .cast o ty => .cast (subst id value o) ty
  | o => o

/-- Put a value in the place of an operand that is exactly the result of an instruction. -/
def replace (id : Nat) (value : Operand) (o : Operand) : Operand :=
  if o = .inst id then value else o

variable {id : Nat} {value : Operand}

/-- An operand without the result is left alone. -/
theorem subst_eq_self {o : Operand} (h : o.result? ≠ some id) : subst id value o = o := by
  induction o with
  | inst k =>
      have hk : k ≠ id := fun heq => h (by rw [heq]; rfl)
      rw [subst, if_neg hk]
  | cast o ty ih => rw [subst, ih h]
  | _ => rfl

/-- Where no cast hides the result, looking below casts makes no difference. -/
theorem replace_eq_subst {o : Operand} (h : o.result? = some id → o = .inst id) :
    replace id value o = subst id value o := by
  unfold replace
  split
  · rename_i heq
    rw [heq, subst, if_pos rfl]
  · rename_i hne
    exact (subst_eq_self fun hresult => hne (h hresult)).symm

/-- The result is left behind exactly below casts. -/
theorem result?_replace_iff (hvalue : value.result? ≠ some id) (o : Operand) :
    (replace id value o).result? = some id ↔ o.result? = some id ∧ o ≠ .inst id := by
  unfold replace
  split
  · rename_i heq
    exact ⟨fun h => absurd h hvalue, fun h => absurd heq h.2⟩
  · rename_i hne
    exact ⟨fun h => ⟨h, hne⟩, And.left⟩

end Operand

namespace Func

/-- The function without what its operands are. -/
def blank (f : Func) : Func := f.mapInstrs (Instr.mapOperands fun _ => .inst 0)

/-- All uses of a result are replaced by a value, and nothing else is changed. -/
structure ReplacesUses (id : Nat) (value : Operand) (f g : Func) : Prop where
  /-- No operand is the result, not even below casts. -/
  gone : ∀ o ∈ g.operands, o.result? ≠ some id
  /-- The operands of each instruction are the old ones with the value in the place of the
  result. -/
  operands : g.instrs.map Instr.operands =
    f.instrs.map fun i => i.operands.map (Operand.subst id value)
  /-- Everything but the operands is as it was. -/
  rest : g.blank = f.blank

variable (id : Nat) (value : Operand) (f : Func)

theorem replaceUses_eq :
    f.replaceUses id value = f.mapInstrs (Instr.mapOperands (Operand.replace id value)) := rfl

/-- Changing every operand changes the operands of a function one by one. -/
theorem operands_mapInstrs (change : Operand → Operand) :
    (f.mapInstrs (Instr.mapOperands change)).operands = f.operands.map change := by
  simp [operands, List.flatMap_map, List.map_flatMap]

/-- Changing operands leaves everything else alone. -/
theorem blank_mapInstrs (change : Operand → Operand) :
    (f.mapInstrs (Instr.mapOperands change)).blank = f.blank := by
  rw [blank, mapInstrs_mapInstrs, blank]
  congr 1
  funext i
  rw [Function.comp_apply, Instr.mapOperands_mapOperands]
  rfl

/-- What a replacement leaves behind is the uses below casts, in order. -/
theorem filter_operands_replaceUses {id : Nat} {value : Operand} (hvalue : value.result? ≠ some id)
    (f : Func) : (f.replaceUses id value).operands.filter (fun o => o.result? = some id) =
      f.operands.filter fun o => o.result? = some id ∧ o ≠ .inst id := by
  rw [replaceUses_eq, operands_mapInstrs, List.filter_map]
  have hsame : (f.operands.filter
      fun o => decide ((Operand.replace id value o).result? = some id)) =
      f.operands.filter fun o => o.result? = some id ∧ o ≠ .inst id :=
    List.filter_congr fun o _ => decide_eq_decide.2 (Operand.result?_replace_iff hvalue o)
  have hself : ∀ o ∈ f.operands.filter (fun o => o.result? = some id ∧ o ≠ .inst id),
      Operand.replace id value o = o := by
    intro o ho
    exact if_neg (of_decide_eq_true (List.mem_filter.1 ho).2).2
  exact (congrArg _ hsame).trans ((List.map_congr_left hself).trans (List.map_id _))

/-- Uses of a result are replaced by a value without that result, all of them exactly if no cast
hides one. Otherwise the casts that hide one stay as they are, and still nothing but operands is
changed. -/
theorem replacesUses_iff {id : Nat} {value : Operand} (hvalue : value.result? ≠ some id)
    (f : Func) : (f.ReplacesUses id value (f.replaceUses id value) ↔
      ∀ o ∈ f.operands, o.result? = some id → o = .inst id) ∧
    (f.replaceUses id value).operands.filter (fun o => o.result? = some id) =
      f.operands.filter (fun o => o.result? = some id ∧ o ≠ .inst id) ∧
    (f.replaceUses id value).instrs.map Instr.operands =
      f.instrs.map (fun i => i.operands.map (Operand.replace id value)) ∧
    (f.replaceUses id value).blank = f.blank := by
  have hleft := filter_operands_replaceUses hvalue f
  have hoperands : (f.replaceUses id value).instrs.map Instr.operands =
      f.instrs.map fun i => i.operands.map (Operand.replace id value) := by
    simp [replaceUses_eq]
  have hrest : (f.replaceUses id value).blank = f.blank := f.blank_mapInstrs _
  refine ⟨⟨fun h o ho hresult => ?_, fun h => ⟨fun o ho hresult => ?_, ?_, hrest⟩⟩,
    hleft, hoperands, hrest⟩
  · -- A cast that hides the result would be left behind.
    by_contra hne
    have hmem : o ∈ (f.replaceUses id value).operands.filter fun o => o.result? = some id := by
      rw [hleft]
      exact List.mem_filter.2 ⟨ho, decide_eq_true ⟨hresult, hne⟩⟩
    exact h.gone o (List.mem_of_mem_filter hmem) hresult
  · have hmem : o ∈ (f.replaceUses id value).operands.filter fun o => o.result? = some id :=
      List.mem_filter.2 ⟨ho, decide_eq_true hresult⟩
    rw [hleft, List.mem_filter] at hmem
    have hhidden := of_decide_eq_true hmem.2
    exact hhidden.2 (h o hmem.1 hhidden.1)
  · rw [hoperands]
    refine List.map_congr_left fun i hi => List.map_congr_left fun o ho => ?_
    exact Operand.replace_eq_subst (h o (List.mem_flatMap.2 ⟨i, hi, ho⟩))

/-- A function that uses a result as callee, argument, term, source of a conversion and value to
return. -/
def fivefold : Func :=
  let word : Ty := .int 32
  .define "f" ⟨word, [word]⟩ [⟨"entry",
    [⟨0, "", .ptr word, .call ⟨.func "g", ⟨.ptr word, []⟩, [], .c⟩, none⟩,
      ⟨1, "", word, .call ⟨.inst 0, ⟨word, [.ptr word]⟩, [.inst 0], .fast⟩, none⟩,
      ⟨2, "", word, .binary .add (.inst 1) (.inst 0), none⟩,
      ⟨3, "", .float 32, .cast .bitcast (.inst 0), none⟩,
      ⟨4, "", .void, .ret (some (.inst 0)), none⟩]⟩]

/-- All five uses are replaced by a cast of an argument. -/
theorem replacesUses_fivefold :
    (Operand.cast (.arg 0) (.ptr .void)).result? ≠ some 0 ∧ fivefold.operands.count (.inst 0) = 5 ∧
    fivefold.ReplacesUses 0 (.cast (.arg 0) (.ptr .void))
      (fivefold.replaceUses 0 (.cast (.arg 0) (.ptr .void))) := by
  have hvalue : (Operand.cast (.arg 0) (.ptr .void)).result? ≠ some 0 := by decide
  exact ⟨hvalue, by decide +kernel, (replacesUses_iff hvalue fivefold).1.2 (by decide +kernel)⟩

/-- A function that returns a cast of a result. -/
def veiled : Func :=
  let word : Ty := .int 32
  .define "f" ⟨.ptr word, [.ptr .void]⟩ [⟨"entry",
    [⟨0, "", .ptr .void, .call ⟨.func "g", ⟨.ptr .void, []⟩, [], .c⟩, none⟩,
      ⟨1, "", .void, .ret (some (.cast (.inst 0) (.ptr word))), none⟩]⟩]

/-- The cast still holds the result after its uses have been replaced. -/
theorem not_replacesUses_veiled :
    (Operand.arg 0).result? ≠ some 0 ∧
    ¬ veiled.ReplacesUses 0 (.arg 0) (veiled.replaceUses 0 (.arg 0)) := by
  refine ⟨by decide, fun h => ?_⟩
  exact h.gone (.cast (.inst 0) (.ptr (.int 32))) (by decide +kernel) rfl

end Func

end Postlink

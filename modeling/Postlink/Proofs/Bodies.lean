import Postlink.Func
import Mathlib.Data.List.Nodup

/-!
# Bodies rewritten instruction by instruction

Insertion, removal and redirection of uses all replace each instruction of a body by a short list of
instructions, block by block. `Blocks.expand` is that operation. Where identifiers are distinct the
searching operations on bodies are expansions (`insertBefore_eq_expand`, `erase_eq_expand`), and a
sequence of rewrites composes to one expansion of the body it started from (`expand_expand`).

Identifiers are compared with numbers without a bound. As long as no sum of identifiers overflows, a
function hands out the numbers from `upcomingId` onwards (`freshId_stops`); where sums are checked
this is so until the program stops, and where they wrap around it is so until they first do
(`insertBefore_cutShort`).
-/

namespace Postlink

namespace Operand

/-- Renumber the result that an operand names; what lies below a cast stays. -/
def renumber (ρ : Nat → Nat) : Operand → Operand
  | .inst id => .inst (ρ id)
  | o => o

/-- Renumbering twice is renumbering by the composition. -/
theorem renumber_renumber (ρ τ : Nat → Nat) (o : Operand) :
    (o.renumber τ).renumber ρ = o.renumber (ρ ∘ τ) := by
  cases o <;> rfl

@[simp] theorem renumber_self (o : Operand) : (o.renumber fun k => k) = o := by
  cases o <;> rfl

/-- Replacing one result by another is a renumbering. -/
theorem replace_eq_renumber (a b : Nat) :
    (fun o : Operand => if o = .inst a then .inst b else o) =
      renumber fun k => if k = a then b else k := by
  funext o
  cases o with
  | inst i =>
      by_cases h : i = a
      · simp [renumber, h]
      · simp [renumber, h]
  | _ => rfl

end Operand

namespace InstrKind

/-- Changing operands twice is changing them by the composition. -/
theorem mapOperands_mapOperands (f g : Operand → Operand) (k : InstrKind) :
    (k.mapOperands f).mapOperands g = k.mapOperands (g ∘ f) := by
  cases k <;> simp [mapOperands]

/-- Only the operands matter to a change of operands. -/
theorem mapOperands_congr {f g : Operand → Operand} {k : InstrKind}
    (h : ∀ o ∈ k.operands, f o = g o) : k.mapOperands f = k.mapOperands g := by
  cases k with
  | call c =>
      have hargs : c.args.map f = c.args.map g :=
        List.map_congr_left fun o ho => h o (List.mem_cons_of_mem _ ho)
      have hcallee : f c.callee = g c.callee := h _ (List.mem_cons_self ..)
      simp [mapOperands, hargs, hcallee]
  | ret value => cases value <;> simp_all [mapOperands, operands]
  | _ => simp_all [mapOperands, operands]

@[simp] theorem mapOperands_self (k : InstrKind) : (k.mapOperands fun o => o) = k := by
  cases k <;> simp [mapOperands]

end InstrKind

namespace Instr

/-- Changing operands twice is changing them by the composition. -/
theorem mapOperands_mapOperands (f g : Operand → Operand) (i : Instr) :
    (i.mapOperands f).mapOperands g = i.mapOperands (g ∘ f) := by
  simp [mapOperands, InstrKind.mapOperands_mapOperands]

/-- Only the operands matter to a change of operands. -/
theorem mapOperands_congr {f g : Operand → Operand} {i : Instr}
    (h : ∀ o ∈ i.operands, f o = g o) : i.mapOperands f = i.mapOperands g := by
  simp [mapOperands, InstrKind.mapOperands_congr h]

@[simp] theorem mapOperands_self (i : Instr) : (i.mapOperands fun o => o) = i := by
  simp [mapOperands]

/-- The operands of a call are what is called and the arguments. -/
theorem operands_of_call? {i : Instr} {c : Call} (h : i.call? = some c) :
    i.operands = c.callee :: c.args := by
  cases i with
  | mk id name ty kind loc =>
      cases kind with
      | call d =>
          cases h
          rfl
      | _ => cases h

/-- Renumber the results that an instruction takes. -/
abbrev renumber (ρ : Nat → Nat) (i : Instr) : Instr := i.mapOperands (Operand.renumber ρ)

/-- Renumbering twice is renumbering by the composition. -/
theorem renumber_renumber (ρ τ : Nat → Nat) (i : Instr) :
    (i.renumber τ).renumber ρ = i.renumber (ρ ∘ τ) := by
  rw [renumber, mapOperands_mapOperands]
  exact mapOperands_congr fun o _ => Operand.renumber_renumber ρ τ o

@[simp] theorem renumber_self (i : Instr) : (i.renumber fun k => k) = i := by
  rw [renumber, mapOperands_congr fun o _ => Operand.renumber_self o, mapOperands_self]

end Instr

/-- Replace every instruction by a list of instructions, block by block. -/
def Blocks.expand (g : Instr → List Instr) (bs : Blocks) : Blocks :=
  bs.map fun b => { b with instrs := b.instrs.flatMap g }

theorem Instr.mapCall_mapCall (f g : Call → Call) (i : Instr) :
    (i.mapCall g).mapCall f = i.mapCall (f ∘ g) := by
  cases i with
  | mk id name ty kind loc => cases kind <;> rfl

namespace Blocks

@[simp] theorem expand_nil (g : Instr → List Instr) : expand g [] = [] := rfl

@[simp] theorem expand_cons (g : Instr → List Instr) (b : Block) (bs : Blocks) :
    expand g (b :: bs) = { b with instrs := b.instrs.flatMap g } :: expand g bs := rfl

/-- Expanding the blocks expands the list of instructions. -/
@[simp] theorem instrs_expand (g : Instr → List Instr) (bs : Blocks) :
    (bs.expand g).instrs = bs.instrs.flatMap g := by
  induction bs with
  | nil => rfl
  | cons b bs ih => simp [ih]

/-- Two expansions in a row are one. -/
theorem expand_expand (g h : Instr → List Instr) (bs : Blocks) :
    (bs.expand g).expand h = bs.expand fun i => (g i).flatMap h := by
  induction bs with
  | nil => rfl
  | cons b bs ih => simp [ih, List.flatMap_assoc]

/-- Only the instructions of a body matter to its expansion. -/
theorem expand_congr {g h : Instr → List Instr} {bs : Blocks}
    (hgh : ∀ i ∈ bs.instrs, g i = h i) : bs.expand g = bs.expand h := by
  induction bs with
  | nil => rfl
  | cons b bs ih =>
      have hb : b.instrs.flatMap g = b.instrs.flatMap h :=
        List.flatMap_congr fun i hi => hgh i (by simp [hi])
      have hbs := ih fun i hi => hgh i (by simp [hi])
      simp [hb, hbs]

/-- Expanding each instruction to itself changes nothing. -/
theorem expand_singleton (bs : Blocks) : (bs.expand fun i => [i]) = bs := by
  induction bs with
  | nil => rfl
  | cons b bs ih => simp [ih]

/-- Changing every instruction is an expansion. -/
theorem mapInstrs_eq_expand (f : Instr → Instr) (bs : Blocks) :
    bs.mapInstrs f = bs.expand fun i => [f i] := by
  induction bs with
  | nil => rfl
  | cons b bs ih =>
      have hb : b.instrs.map f = b.instrs.flatMap fun i => [f i] := List.map_eq_flatMap
      rw [expand_cons, ← ih, ← hb]
      rfl

end Blocks

namespace Instr

/-- A rewrite at one identifier leaves a list without that identifier alone. -/
theorem flatMap_of_forall_id_ne {k : Nat} {g : Instr → List Instr} {is : List Instr}
    (h : ∀ i ∈ is, i.id ≠ k) : (is.flatMap fun i => if i.id = k then g i else [i]) = is := by
  induction is with
  | nil => rfl
  | cons i is ih =>
      have hi : i.id ≠ k := h i (List.mem_cons_self ..)
      have his := ih fun j hj => h j (List.mem_cons_of_mem _ hj)
      rw [List.flatMap_cons, if_neg hi, his]
      rfl

/-- Where identifiers are distinct, the instruction that is searched for is the only one found. -/
theorem forall_id_ne_of_nodup_cons {i : Instr} {is : List Instr}
    (h : ((i :: is).map Instr.id).Nodup) : ∀ j ∈ is, j.id ≠ i.id := by
  intro j hj he
  rw [List.map_cons, List.nodup_cons] at h
  exact h.1 (he ▸ List.mem_map_of_mem hj)

/-- Where identifiers are distinct, insertion rewrites one instruction. -/
theorem insertBefore_eq_flatMap {before : Nat} {new : Instr} {is : List Instr}
    (h : (is.map Instr.id).Nodup) :
    insertBefore before new is = is.flatMap fun i => if i.id = before then [new, i] else [i] := by
  induction is with
  | nil => rfl
  | cons i is ih =>
      by_cases hi : i.id = before
      · have hne := forall_id_ne_of_nodup_cons h
        rw [hi] at hne
        rw [insertBefore, if_pos hi, List.flatMap_cons, if_pos hi,
          flatMap_of_forall_id_ne hne]
        rfl
      · rw [insertBefore, if_neg hi, List.flatMap_cons, if_neg hi,
          ih (List.nodup_cons.1 h).2]
        rfl

/-- Where identifiers are distinct, removal rewrites one instruction. -/
theorem erase_eq_flatMap {k : Nat} {is : List Instr} (h : (is.map Instr.id).Nodup) :
    erase k is = is.flatMap fun i => if i.id = k then [] else [i] := by
  induction is with
  | nil => rfl
  | cons i is ih =>
      by_cases hi : i.id = k
      · have hne := forall_id_ne_of_nodup_cons h
        rw [hi] at hne
        rw [erase, if_pos hi, List.flatMap_cons, if_pos hi,
          flatMap_of_forall_id_ne (g := fun _ => []) hne]
        rfl
      · rw [erase, if_neg hi, List.flatMap_cons, if_neg hi,
          ih (List.nodup_cons.1 h).2]
        rfl

/-- What insertion gives is the new instruction or an old one. -/
theorem mem_insertBefore {before : Nat} {new x : Instr} {is : List Instr}
    (h : x ∈ insertBefore before new is) : x = new ∨ x ∈ is := by
  induction is with
  | nil => cases h
  | cons i is ih =>
      rw [insertBefore] at h
      split at h
      · exact List.mem_cons.1 h
      · rcases List.mem_cons.1 h with rfl | hx
        · exact Or.inr (List.mem_cons_self ..)
        · exact (ih hx).imp_right (List.mem_cons_of_mem _)

/-- Inserting under an identifier that is not in use keeps identifiers distinct. -/
theorem nodup_insertBefore {before : Nat} {new : Instr} {is : List Instr}
    (h : (is.map Instr.id).Nodup) (hnew : ∀ i ∈ is, i.id ≠ new.id) :
    ((insertBefore before new is).map Instr.id).Nodup := by
  induction is with
  | nil => exact List.nodup_nil
  | cons i is ih =>
      have hi : i.id ≠ new.id := hnew i (List.mem_cons_self ..)
      have his : ∀ j ∈ is, j.id ≠ new.id := fun j hj => hnew j (List.mem_cons_of_mem _ hj)
      rw [insertBefore]
      split
      · rw [List.map_cons, List.nodup_cons]
        refine ⟨?_, h⟩
        simp only [List.mem_map, not_exists, not_and]
        exact hnew
      · rw [List.map_cons, List.nodup_cons]
        refine ⟨?_, ih (List.nodup_cons.1 h).2 his⟩
        simp only [List.mem_map, not_exists, not_and]
        intro j hj he
        rcases mem_insertBefore hj with rfl | hj
        · exact hi he.symm
        · exact forall_id_ne_of_nodup_cons h j hj he

/-- The least number above every identifier. -/
def idBound : List Instr → Nat
  | [] => 0
  | i :: is => max (i.id + 1) (idBound is)

/-- Every identifier lies below the bound. -/
theorem lt_idBound {i : Instr} {is : List Instr} (h : i ∈ is) : i.id < idBound is := by
  induction is with
  | nil => simp at h
  | cons j js ih =>
      simp only [idBound]
      rcases List.mem_cons.1 h with rfl | h
      · omega
      · have := ih h
        omega

/-- The bound of identifiers is the least one. -/
theorem idBound_le {limit : Nat} {is : List Instr} (h : ∀ i ∈ is, i.id < limit) :
    idBound is ≤ limit := by
  induction is with
  | nil => exact Nat.zero_le _
  | cons i is ih =>
      rw [List.forall_mem_cons] at h
      exact Nat.max_le.2 ⟨h.1, ih h.2⟩

/-- Where sums are checked, identifiers start at the bound if that is one itself. -/
theorem startId?_stops (is : List Instr) :
    startId? .stops is = if idBound is < UInt32.size then some (idBound is) else none := by
  induction is with
  | nil => rfl
  | cons i is ih =>
      simp only [startId?, ih, idBound, Overflow.next?, Nat.max_lt]
      by_cases hi : i.id + 1 < UInt32.size
      · by_cases his : idBound is < UInt32.size
        · simp only [hi, his, and_self, if_true]
        · simp only [hi, his, and_false, if_true, if_false]
      · simp only [hi, false_and, if_false]

/-- Where sums wrap around, identifiers always have a start. -/
theorem exists_startId?_wraps (is : List Instr) : ∃ start, startId? .wraps is = some start := by
  induction is with
  | nil => exact ⟨0, rfl⟩
  | cons i is ih =>
      obtain ⟨start, hstart⟩ := ih
      exact ⟨_, by rw [startId?, hstart, Overflow.next?]⟩

/-- The bound depends on the identifiers only. -/
theorem idBound_congr {is js : List Instr} (h : is.map Instr.id = js.map Instr.id) :
    idBound is = idBound js := by
  induction is generalizing js with
  | nil =>
      rw [List.map_nil, eq_comm, List.map_eq_nil_iff] at h
      rw [h]
  | cons i is ih =>
      cases js with
      | nil => cases h
      | cons j js =>
          rw [List.map_cons, List.map_cons, List.cons.injEq] at h
          rw [idBound, idBound, h.1, ih h.2]

end Instr

/-- A block has an identifier when one of its instructions carries it. -/
theorem Block.has_iff {k : Nat} {b : Block} : b.has k = true ↔ ∃ i ∈ b.instrs, i.id = k := by
  simp [has]

namespace Blocks

/-- A rewrite at one identifier leaves a body without that identifier alone. -/
theorem expand_of_forall_id_ne {k : Nat} {g : Instr → List Instr} {bs : Blocks}
    (h : ∀ i ∈ bs.instrs, i.id ≠ k) : (bs.expand fun i => if i.id = k then g i else [i]) = bs := by
  have hone : ∀ i ∈ bs.instrs, (if i.id = k then g i else [i]) = [i] := fun i hi => if_neg (h i hi)
  rw [expand_congr hone, expand_singleton]

/-- Where identifiers are distinct, insertion is an expansion. -/
theorem insertBefore_eq_expand {before : Nat} {new : Instr} {bs : Blocks}
    (h : (bs.instrs.map Instr.id).Nodup) :
    bs.insertBefore before new =
      bs.expand fun i => if i.id = before then [new, i] else [i] := by
  induction bs with
  | nil => rfl
  | cons b bs ih =>
      rw [instrs_cons, List.map_append, List.nodup_append] at h
      obtain ⟨hb, hbs, hdisj⟩ := h
      by_cases hhas : b.has before = true
      · have hne : ∀ i ∈ instrs bs, i.id ≠ before := by
          intro i hi he
          obtain ⟨j, hj, hje⟩ := Block.has_iff.1 hhas
          exact hdisj _ (List.mem_map_of_mem hj) _ (List.mem_map_of_mem hi) (hje.trans he.symm)
        rw [insertBefore, if_pos hhas, expand_cons, expand_of_forall_id_ne hne,
          Instr.insertBefore_eq_flatMap hb]
      · have hne : ∀ i ∈ b.instrs, i.id ≠ before := fun i hi he =>
          hhas (Block.has_iff.2 ⟨i, hi, he⟩)
        rw [insertBefore, if_neg hhas, expand_cons, ih hbs, Instr.flatMap_of_forall_id_ne hne]

/-- Where identifiers are distinct, removal is an expansion. -/
theorem erase_eq_expand {k : Nat} {bs : Blocks} (h : (bs.instrs.map Instr.id).Nodup) :
    bs.erase k = bs.expand fun i => if i.id = k then [] else [i] := by
  induction bs with
  | nil => rfl
  | cons b bs ih =>
      rw [instrs_cons, List.map_append, List.nodup_append] at h
      obtain ⟨hb, hbs, hdisj⟩ := h
      by_cases hhas : b.has k = true
      · have hne : ∀ i ∈ instrs bs, i.id ≠ k := by
          intro i hi he
          obtain ⟨j, hj, hje⟩ := Block.has_iff.1 hhas
          exact hdisj _ (List.mem_map_of_mem hj) _ (List.mem_map_of_mem hi) (hje.trans he.symm)
        rw [erase, if_pos hhas, expand_cons, expand_of_forall_id_ne (g := fun _ => []) hne,
          Instr.erase_eq_flatMap hb]
      · have hne : ∀ i ∈ b.instrs, i.id ≠ k := fun i hi he =>
          hhas (Block.has_iff.2 ⟨i, hi, he⟩)
        rw [erase, if_neg hhas, expand_cons, ih hbs,
          Instr.flatMap_of_forall_id_ne (g := fun _ => []) hne]

end Blocks

namespace Func

/-- Replace every loaded instruction by a list of instructions, block by block. -/
def expand (g : Instr → List Instr) (f : Func) : Func :=
  { f with body := f.body.mapBlocks (Blocks.expand g) }

/-- The identifier to hand out next, were there no bound to identifiers. -/
def upcomingId (f : Func) : Nat := f.nextId.getD (Instr.idBound f.instrs)

/-- The function after some fresh identifiers have been taken. -/
def advance (count : Nat) (f : Func) : Func :=
  if count = 0 then f else { f with nextId := some (f.upcomingId + count) }

/-- Identifiers are distinct, and those still to be handed out lie above all of them. -/
structure Numbered (f : Func) : Prop where
  /-- No two instructions share an identifier. -/
  distinct : (f.instrs.map Instr.id).Nodup
  /-- The counter of fresh identifiers has passed every instruction. -/
  below : ∀ i ∈ f.instrs, i.id < f.upcomingId

instance (f : Func) : Decidable f.Numbered :=
  decidable_of_iff ((f.instrs.map Instr.id).Nodup ∧ ∀ i ∈ f.instrs, i.id < f.upcomingId)
    ⟨fun h => ⟨h.1, h.2⟩, fun h => ⟨h.1, h.2⟩⟩

@[simp] theorem name_expand (g : Instr → List Instr) (f : Func) : (f.expand g).name = f.name := rfl

@[simp] theorem name_advance (n : Nat) (f : Func) : (f.advance n).name = f.name := by
  unfold advance
  split <;> rfl

@[simp] theorem body_advance (n : Nat) (f : Func) : (f.advance n).body = f.body := by
  unfold advance
  split <;> rfl

@[simp] theorem instrs_advance (n : Nat) (f : Func) : (f.advance n).instrs = f.instrs := by
  rw [instrs, instrs, blocks, blocks, body_advance]

@[simp] theorem blocks_expand (g : Instr → List Instr) (f : Func) :
    (f.expand g).blocks = f.blocks.expand g := by
  cases h : f.body <;> simp [blocks, expand, Body.mapBlocks, Body.blocks, h]

/-- Expanding a function replaces every instruction by its expansion. -/
@[simp] theorem instrs_expand (g : Instr → List Instr) (f : Func) :
    (f.expand g).instrs = f.instrs.flatMap g := by
  simp [instrs]

/-- Two expansions in a row are one. -/
theorem expand_expand (g h : Instr → List Instr) (f : Func) :
    (f.expand g).expand h = f.expand fun i => (g i).flatMap h := by
  cases hb : f.body <;> simp [expand, Body.mapBlocks, hb, Blocks.expand_expand]

/-- Only the loaded instructions matter to an expansion. -/
theorem expand_congr {g h : Instr → List Instr} {f : Func} (hgh : ∀ i ∈ f.instrs, g i = h i) :
    f.expand g = f.expand h := by
  cases hb : f.body with
  | loaded bs =>
      have he : bs.expand g = bs.expand h := by
        refine Blocks.expand_congr fun i hi => hgh i ?_
        simpa [instrs, blocks, Body.blocks, hb] using hi
      simp [expand, Body.mapBlocks, hb, he]
  | _ => simp [expand, Body.mapBlocks, hb]

@[simp] theorem expand_singleton (f : Func) : (f.expand fun i => [i]) = f := by
  have hbody : f.body.mapBlocks (Blocks.expand fun i => [i]) = f.body := by
    cases f.body <;> simp [Body.mapBlocks, Blocks.expand_singleton]
  rw [expand, hbody]

/-- Changing every instruction is an expansion. -/
theorem mapInstrs_eq_expand (g : Instr → Instr) (f : Func) :
    f.mapInstrs g = f.expand fun i => [g i] := by
  cases hb : f.body <;> simp [mapInstrs, expand, Body.mapBlocks, hb, Blocks.mapInstrs_eq_expand]

/-- Two changes to every instruction are one. -/
theorem mapInstrs_mapInstrs (g h : Instr → Instr) (f : Func) :
    (f.mapInstrs h).mapInstrs g = f.mapInstrs (g ∘ h) := by
  rw [mapInstrs_eq_expand, mapInstrs_eq_expand, mapInstrs_eq_expand, expand_expand]
  rfl

theorem mapInstrs_self (f : Func) : f.mapInstrs (fun i => i) = f := by
  rw [mapInstrs_eq_expand, expand_singleton]

/-- The function with its calls changed and the default convention. -/
def plain (g : Call → Call) (f : Func) : Func :=
  { f.mapInstrs (Instr.mapCall g) with conv := .c }

/-- Changes to calls made before the default convention is set count as well. -/
theorem plain_mapCall (g h : Call → Call) (f : Func) :
    (f.mapInstrs (Instr.mapCall h)).plain g = f.plain (g ∘ h) := by
  have hcomp : Instr.mapCall g ∘ Instr.mapCall h = Instr.mapCall (g ∘ h) :=
    funext fun i => i.mapCall_mapCall g h
  rw [plain, mapInstrs_mapInstrs, hcomp]
  rfl

/-- Setting the default convention twice changes calls one change after the other. -/
theorem plain_plain (g h : Call → Call) (f : Func) : (f.plain h).plain g = f.plain (g ∘ h) :=
  f.plain_mapCall g h

/-- A body is loaded if it is there and decoded. -/
theorem isLoaded_iff {f : Func} :
    f.body.isLoaded = true ↔ f.isDeclared = false ∧ f.isStored = false := by
  rw [isDeclared, isStored]
  cases f.body <;> simp [Body.isLoaded, Body.isDeclared, Body.isStored]

/-- A body still to be decoded is no missing body. -/
theorem isDeclared_of_isStored {f : Func} (h : f.isStored = true) : f.isDeclared = false := by
  rw [isStored] at h
  rw [isDeclared]
  cases hb : f.body with
  | declared => rw [hb] at h; cases h
  | loaded bs => rfl
  | stored s => rfl

/-- Before it is decoded, a body shows no blocks. -/
theorem blocks_of_isStored {f : Func} (h : f.isStored = true) : f.blocks = [] := by
  rw [isStored] at h
  rw [blocks]
  cases hb : f.body with
  | declared => rfl
  | loaded bs => rw [hb] at h; cases h
  | stored s => rfl

@[simp] theorem isDeclared_mapInstrs (g : Instr → Instr) (f : Func) :
    (f.mapInstrs g).isDeclared = f.isDeclared := by
  simp only [isDeclared, mapInstrs]
  cases f.body <;> rfl

/-- A function with instructions has a body. -/
theorem isDeclared_of_mem {f : Func} {i : Instr} (h : i ∈ f.instrs) : f.isDeclared = false := by
  rw [instrs, blocks] at h
  rw [isDeclared]
  cases hb : f.body with
  | declared => rw [hb] at h; cases h
  | loaded bs => rfl
  | stored s => rfl

theorem isDeclared_plain (g : Call → Call) (f : Func) : (f.plain g).isDeclared = f.isDeclared :=
  f.isDeclared_mapInstrs _

/-- With the default convention instructions stay as they are, with calls changed. -/
theorem instrs_plain (g : Call → Call) (f : Func) :
    (f.plain g).instrs = f.instrs.map (Instr.mapCall g) :=
  f.instrs_mapInstrs _

/-- Letting one result take over the uses of another renumbers every instruction. -/
theorem replaceUses_inst (a b : Nat) (f : Func) :
    f.replaceUses a (.inst b) =
      f.expand fun i => [i.renumber fun k => if k = a then b else k] := by
  rw [replaceUses, mapInstrs_eq_expand, Operand.replace_eq_renumber]

/-- Advancing twice is advancing by the sum. -/
theorem advance_advance (n k : Nat) (f : Func) : (f.advance n).advance k = f.advance (n + k) := by
  unfold advance
  by_cases hn : n = 0 <;> by_cases hk : k = 0 <;> simp [hn, hk, upcomingId, Nat.add_assoc]

/-- Once a fresh identifier has been taken, the counter no longer depends on the body. -/
theorem upcomingId_expand_advance {n : Nat} (hn : n ≠ 0) (g : Instr → List Instr) (f : Func) :
    ((f.advance n).expand g).upcomingId = f.upcomingId + n := by
  rw [advance, if_neg hn]
  rfl

/-- Once a fresh identifier has been taken, advancing does not depend on the body. -/
theorem advance_expand_advance {n : Nat} (hn : n ≠ 0) (k : Nat) (g : Instr → List Instr)
    (f : Func) : ((f.advance n).expand g).advance k = (f.advance (n + k)).expand g := by
  rw [← advance_advance]
  unfold advance
  by_cases hk : k = 0 <;> simp [hn, hk, expand, upcomingId]

/-- The first instruction with an identifier is found when there is one. -/
theorem exists_instr?_of_mem {f : Func} {old : Instr} (h : old ∈ f.instrs) :
    ∃ i, f.instr? old.id = some i := by
  have hsome : (f.instrs.find? fun i => i.id = old.id).isSome := by
    rw [List.find?_isSome]
    exact ⟨old, h, by simp⟩
  exact Option.isSome_iff_exists.1 hsome

/-- Where identifiers are distinct, looking one up finds its instruction. -/
theorem Numbered.instr?_eq {f : Func} (hf : f.Numbered) {i : Instr} (h : i ∈ f.instrs) :
    f.instr? i.id = some i := by
  obtain ⟨j, hj⟩ := exists_instr?_of_mem h
  have hmem : j ∈ f.instrs := List.mem_of_find?_eq_some hj
  have hid : j.id = i.id := by simpa using List.find?_some hj
  rw [hj, List.inj_on_of_nodup_map hf.distinct hmem h hid]

/-- Where sums are checked, the upcoming identifier is handed out as long as there is one after
it. -/
theorem freshId_stops (f : Func) : f.freshId .stops =
    if f.upcomingId + 1 < UInt32.size then .ok (f.upcomingId, f.advance 1)
      else .error .overflow := by
  cases hnext : f.nextId with
  | some id =>
      simp only [freshId, nextId?, Overflow.next?, upcomingId, advance, hnext,
        Nat.one_ne_zero, if_false, Option.getD_some]
      by_cases hroom : id + 1 < UInt32.size
      · simp only [hroom, if_true]
      · simp only [hroom, if_false]
  | none =>
      simp only [freshId, nextId?, Overflow.next?, upcomingId, advance, hnext,
        Nat.one_ne_zero, if_false, Option.getD_none, Instr.startId?_stops]
      by_cases hroom : Instr.idBound f.instrs + 1 < UInt32.size
      · have hstart : Instr.idBound f.instrs < UInt32.size := by omega
        simp only [hstart, hroom, if_true]
      · by_cases hstart : Instr.idBound f.instrs < UInt32.size
        · simp only [hstart, hroom, if_true, if_false]
        · simp only [hstart, hroom, if_false]

/-- Where sums wrap around, there is always an identifier to hand out. -/
theorem exists_freshId_wraps (f : Func) : ∃ fresh, f.freshId .wraps = .ok fresh := by
  obtain ⟨id, hid⟩ : ∃ id, f.nextId? .wraps = some id := by
    rw [nextId?]
    cases f.nextId with
    | some id => exact ⟨id, rfl⟩
    | none => exact Instr.exists_startId?_wraps f.instrs
  exact ⟨_, by simp only [freshId, hid, Overflow.next?]; rfl⟩

/-- Taking an identifier sets the counter and does nothing else. -/
theorem exists_of_freshId {mode : Overflow} {f g : Func} {id : Nat}
    (h : f.freshId mode = .ok (id, g)) : ∃ next, g = { f with nextId := some next } := by
  unfold freshId at h
  split at h
  · cases h
  · split at h
    · cases h
    · cases h
      exact ⟨_, rfl⟩

/-- An insertion that succeeds has an instruction to go in front of, and takes one identifier. -/
theorem insertBefore_cases {mode : Overflow} {f g : Func} {before id : Nat} {new : Instr}
    (h : f.insertBefore mode before new = .ok (id, g)) :
    ∃ old next, f.instr? before = some old ∧
      f.freshId mode = .ok (id, { f with nextId := some next }) ∧
      g = { f with
        nextId := some next
        body := f.body.mapBlocks (Blocks.insertBefore before { new with id := id }) } := by
  unfold insertBefore at h
  split at h
  · cases h
  · rename_i old hold
    cases hfresh : f.freshId mode with
    | error e => rw [hfresh] at h; cases h
    | ok fresh =>
        rw [hfresh] at h
        obtain ⟨next, hnext⟩ := exists_of_freshId hfresh
        cases h
        exact ⟨old, next, hold, by rw [← hnext], by rw [hnext]⟩

/-- Where sums wrap around, an instruction can be put in front of every one that is there. -/
theorem exists_insertBefore_wraps {f : Func} {before : Nat} {old : Instr}
    (h : f.instr? before = some old) (new : Instr) :
    ∃ id g, f.insertBefore .wraps before new = .ok (id, g) := by
  obtain ⟨fresh, hfresh⟩ := f.exists_freshId_wraps
  rw [insertBefore, h, hfresh]
  exact ⟨_, _, rfl⟩

/-- Where sums are checked, an insertion that succeeds takes the upcoming identifier. -/
theorem id_of_insertBefore {f g : Func} {before id : Nat} {new : Instr}
    (h : f.insertBefore .stops before new = .ok (id, g)) :
    id = f.upcomingId ∧ g.nextId = some (f.upcomingId + 1) := by
  obtain ⟨old, next, _, hfresh, rfl⟩ := insertBefore_cases h
  rw [freshId_stops] at hfresh
  split at hfresh
  · obtain ⟨hid, hfunc⟩ := Prod.mk.inj (Except.ok.inj hfresh)
    exact ⟨hid.symm, (congrArg Func.nextId hfunc).symm⟩
  · cases hfresh

/-- Inserting in front of an instruction that is there takes one fresh identifier. -/
theorem Numbered.insertBefore_eq {f g : Func} (hf : f.Numbered) {before id : Nat} {new : Instr}
    (h : f.insertBefore .stops before new = .ok (id, g)) :
    id = f.upcomingId ∧ g = (f.advance 1).expand fun i =>
      if i.id = before then [{ new with id := f.upcomingId }, i] else [i] := by
  have hbody : ∀ x : Instr, f.body.mapBlocks (Blocks.insertBefore before x) =
      f.body.mapBlocks (Blocks.expand fun i => if i.id = before then [x, i] else [i]) := by
    intro x
    have hd := hf.distinct
    cases hb : f.body with
    | loaded bs =>
        simp only [instrs, blocks, Body.blocks, hb] at hd
        simp only [Body.mapBlocks, Blocks.insertBefore_eq_expand hd]
    | _ => rfl
  obtain ⟨rfl, hnext⟩ := id_of_insertBefore h
  obtain ⟨_, next, _, _, rfl⟩ := insertBefore_cases h
  cases hnext
  exact ⟨rfl, by simp only [hbody, advance, Nat.one_ne_zero, if_false, expand]⟩

/-- Where identifiers are distinct, removing an instruction is an expansion. -/
theorem eraseInstr_eq_expand {f : Func} (h : (f.instrs.map Instr.id).Nodup) (k : Nat) :
    f.eraseInstr k = f.expand fun i => if i.id = k then [] else [i] := by
  cases hb : f.body with
  | loaded bs =>
      simp only [instrs, blocks, Body.blocks, hb] at h
      simp only [eraseInstr, expand, Body.mapBlocks, hb, Blocks.erase_eq_expand h]
  | _ => simp only [eraseInstr, expand, Body.mapBlocks, hb]

/-- Insertion under the upcoming identifier keeps a function numbered. -/
theorem Numbered.insert {f : Func} (hf : f.Numbered) (k : Nat) (new : Instr) :
    ((f.advance 1).expand fun i =>
      if i.id = k then [{ new with id := f.upcomingId }, i] else [i]).Numbered := by
  have hfresh : ∀ i ∈ f.instrs, i.id ≠ f.upcomingId := fun i hi => Nat.ne_of_lt (hf.below i hi)
  have hinstrs : ((f.advance 1).expand fun i =>
      if i.id = k then [{ new with id := f.upcomingId }, i] else [i]).instrs =
      Instr.insertBefore k { new with id := f.upcomingId } f.instrs := by
    rw [instrs_expand, instrs_advance, Instr.insertBefore_eq_flatMap hf.distinct]
  refine ⟨?_, ?_⟩
  · rw [hinstrs]
    exact Instr.nodup_insertBefore hf.distinct hfresh
  · intro i hi
    rw [hinstrs] at hi
    rw [upcomingId_expand_advance Nat.one_ne_zero]
    rcases Instr.mem_insertBefore hi with rfl | hi
    · exact Nat.lt_succ_self _
    · exact Nat.lt_succ_of_lt (hf.below i hi)

/-- The upcoming identifier depends on the counter and the identifiers in use. -/
theorem upcomingId_congr {f g : Func} (hnext : g.nextId = f.nextId)
    (hids : g.instrs.map Instr.id = f.instrs.map Instr.id) : g.upcomingId = f.upcomingId := by
  rw [upcomingId, upcomingId, hnext, Instr.idBound_congr hids]

/-- Being numbered depends on the counter and the identifiers in use. -/
theorem Numbered.congr {f g : Func} (hf : f.Numbered) (hnext : g.nextId = f.nextId)
    (hids : g.instrs.map Instr.id = f.instrs.map Instr.id) : g.Numbered := by
  refine ⟨hids ▸ hf.distinct, ?_⟩
  intro i hi
  have hmem : i.id ∈ f.instrs.map Instr.id := hids ▸ List.mem_map_of_mem hi
  obtain ⟨j, hj, hji⟩ := List.mem_map.1 hmem
  rw [upcomingId_congr hnext hids, ← hji]
  exact hf.below j hj

/-- Renumbering what instructions take keeps their own identifiers. -/
theorem ids_renumber (ρ : Nat → Nat) (f : Func) :
    (f.expand fun i => [i.renumber ρ]).instrs.map Instr.id = f.instrs.map Instr.id := by
  rw [instrs_expand, ← List.map_eq_flatMap, List.map_map]
  rfl

/-- Renumbering what instructions take keeps a function numbered. -/
theorem Numbered.renumber {f : Func} (hf : f.Numbered) (ρ : Nat → Nat) :
    (f.expand fun i => [i.renumber ρ]).Numbered :=
  hf.congr rfl (ids_renumber ρ f)

end Func

end Postlink

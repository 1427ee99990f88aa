import Postlink.Proofs.Lookup
import Mathlib.Data.List.Forall2

/-!
# Bodies whose identifiers may repeat

Insertion and removal act at the first instruction with an identifier, so they are no expansions
where several instructions share one. But whatever the identifiers are, the instructions that were
there keep their order, some of them may be gone, the results that they take are renumbered, and
what was inserted stands between them (`Instr.Reworked`).
-/

namespace Postlink

section Positions

variable {α β γ : Type} {R : α → β → Prop} {as : List α} {bs : List β}

/-- What is related to a list has a related element at each position. -/
theorem exists_getElem?_of_forall₂ (h : List.Forall₂ R as bs) {k : Nat} {a : α}
    (ha : as[k]? = some a) : ∃ b, bs[k]? = some b ∧ R a b := by
  induction h generalizing k with
  | nil => cases ha
  | cons hab _ ih =>
      cases k with
      | zero =>
          cases ha
          exact ⟨_, rfl, hab⟩
      | succ k => exact ih ha

/-- Views that agree on related elements agree on related lists. -/
theorem map_eq_of_forall₂ {f : α → γ} {g : β → γ} (hfg : ∀ a b, R a b → g b = f a)
    (h : List.Forall₂ R as bs) : bs.map g = as.map f := by
  induction h with
  | nil => rfl
  | cons hab _ ih => rw [List.map_cons, List.map_cons, hfg _ _ hab, ih]

/-- A property that relations carry over holds of the whole list. -/
theorem forall_mem_of_forall₂ {P : α → Prop} {Q : β → Prop} (hpq : ∀ a b, R a b → P a → Q b)
    (h : List.Forall₂ R as bs) (has : ∀ a ∈ as, P a) : ∀ b ∈ bs, Q b := by
  induction h with
  | nil => exact fun b hb => absurd hb List.not_mem_nil
  | cons hab _ ih =>
      rw [List.forall_mem_cons] at has ⊢
      exact ⟨hpq _ _ hab has.1, ih has.2⟩

/-- An element may be exchanged for one that is still related. -/
theorem forall₂_set (h : List.Forall₂ R as bs) {k : Nat} {a : α} {b : β} (ha : as[k]? = some a)
    (hb : R a b) : List.Forall₂ R as (bs.set k b) := by
  induction h generalizing k with
  | nil => exact .nil
  | cons hab hrest ih =>
      cases k with
      | zero =>
          cases ha
          exact .cons hb hrest
      | succ k => exact .cons hab (ih ha)

/-- Relations between lists compose element by element. -/
theorem forall₂_trans {S : β → γ → Prop} {T : α → γ → Prop} {cs : List γ}
    (htrans : ∀ a b c, R a b → S b c → T a c) (h : List.Forall₂ R as bs)
    (h' : List.Forall₂ S bs cs) : List.Forall₂ T as cs := by
  induction h generalizing cs with
  | nil =>
      cases h'
      exact .nil
  | cons hab _ ih =>
      cases h' with
      | cons hbc hrest => exact .cons (htrans _ _ _ hab hbc) (ih hrest)

/-- A change at one place relates each element to what it has become. -/
theorem forall₂_modifyFirst {R : α → α → Prop} (hrefl : ∀ a, R a a) {change : α → α} {p : α → Bool}
    (hchange : ∀ a, p a = true → R a (change a)) (as : List α) :
    List.Forall₂ R as (modifyFirst p change as) := by
  induction as with
  | nil => exact .nil
  | cons a as ih =>
      rw [modifyFirst]
      split
      · rename_i hp
        exact .cons (hchange a hp) (List.forall₂_same.2 fun b _ => hrefl b)
      · exact .cons (hrefl a) ih

end Positions

namespace Instr

/-- Inserting in front of an instruction of the first part leaves the second part alone. -/
theorem insertBefore_append_of_mem {k : Nat} {x : Instr} {is : List Instr} (h : ∃ i ∈ is, i.id = k)
    (js : List Instr) : insertBefore k x (is ++ js) = insertBefore k x is ++ js := by
  induction is with
  | nil => simp at h
  | cons i is ih =>
      rw [List.cons_append, insertBefore, insertBefore]
      split
      · rfl
      · rename_i hi
        obtain ⟨j, hj, hid⟩ := h
        rcases List.mem_cons.1 hj with rfl | hj
        · exact absurd hid hi
        · rw [ih ⟨j, hj, hid⟩, List.cons_append]

/-- Inserting in front of an instruction that the first part does not have leaves it alone. -/
theorem insertBefore_append_of_not_mem {k : Nat} {x : Instr} {is : List Instr}
    (h : ∀ i ∈ is, i.id ≠ k) (js : List Instr) :
    insertBefore k x (is ++ js) = is ++ insertBefore k x js := by
  induction is with
  | nil => rfl
  | cons i is ih =>
      rw [List.cons_append, insertBefore, if_neg (h i (List.mem_cons_self ..)),
        ih fun j hj => h j (List.mem_cons_of_mem _ hj), List.cons_append]

/-- Insertion adds one instruction where there is one to put it in front of. -/
theorem perm_insertBefore {k : Nat} {is : List Instr} (h : ∃ i ∈ is, i.id = k) (x : Instr) :
    (insertBefore k x is).Perm (x :: is) := by
  induction is with
  | nil => simp at h
  | cons i is ih =>
      rw [insertBefore]
      split
      · exact List.Perm.refl _
      · rename_i hi
        obtain ⟨j, hj, hid⟩ := h
        rcases List.mem_cons.1 hj with rfl | hj
        · exact absurd hid hi
        · exact ((ih ⟨j, hj, hid⟩).cons i).trans (List.Perm.swap x i is)

/-- Removing an instruction adds none. -/
theorem erase_sublist (k : Nat) (is : List Instr) : (erase k is).Sublist is := by
  induction is with
  | nil => exact List.Sublist.refl _
  | cons i is ih =>
      rw [erase]
      split
      · exact List.sublist_cons_self ..
      · exact ih.cons_cons i

/-- The instructions of one list in their order, some of them gone, with the results that they take
renumbered and new instructions between them. -/
inductive Reworked (ρ : Nat → Nat) (new : Instr → Prop) : List Instr → List Instr → Prop where
  /-- Nothing is left of nothing. -/
  | nil : Reworked ρ new [] []
  /-- An instruction stays. -/
  | kept {is js : List Instr} (i : Instr) (h : Reworked ρ new is js) :
      Reworked ρ new (i :: is) (i.renumber ρ :: js)
  /-- An instruction is gone. -/
  | gone {is js : List Instr} (i : Instr) (h : Reworked ρ new is js) : Reworked ρ new (i :: is) js
  /-- An instruction is new. -/
  | inserted {is js : List Instr} {j : Instr} (hj : new j) (h : Reworked ρ new is js) :
      Reworked ρ new is (j :: js)

namespace Reworked

variable {ρ : Nat → Nat} {new : Instr → Prop} {is js : List Instr}

theorem refl (new : Instr → Prop) (is : List Instr) : Reworked (fun k => k) new is is := by
  induction is with
  | nil => exact .nil
  | cons i is ih =>
      have hkept := ih.kept i
      rwa [renumber_self] at hkept

theorem mono {new' : Instr → Prop} (h : Reworked ρ new is js) (hnew : ∀ j, new j → new' j) :
    Reworked ρ new' is js := by
  induction h with
  | nil => exact .nil
  | kept i _ ih => exact ih.kept i
  | gone i _ ih => exact ih.gone i
  | inserted hj _ ih => exact ih.inserted (hnew _ hj)

/-- One more renumbering. -/
theorem renumber (h : Reworked ρ new is js) (τ : Nat → Nat)
    (hnew : ∀ j, new j → new (j.renumber τ)) :
    Reworked (τ ∘ ρ) new is (js.map (Instr.renumber τ)) := by
  induction h with
  | nil => exact .nil
  | kept i _ ih =>
      rw [List.map_cons, renumber_renumber]
      exact ih.kept i
  | gone i _ ih => exact ih.gone i
  | inserted hj _ ih => exact ih.inserted (hnew _ hj)

/-- A new instruction may be inserted anywhere. -/
theorem insertBefore (h : Reworked ρ new is js) {x : Instr} (hx : new x) (k : Nat) :
    Reworked ρ new is (Instr.insertBefore k x js) := by
  induction h with
  | nil => exact .nil
  | kept i h ih =>
      rw [Instr.insertBefore]
      split
      · exact (h.kept i).inserted hx
      · exact ih.kept i
  | gone i _ ih => exact ih.gone i
  | inserted hj h ih =>
      rw [Instr.insertBefore]
      split
      · exact (h.inserted hj).inserted hx
      · exact ih.inserted hj

/-- Fewer instructions may be left. -/
theorem sublist (h : Reworked ρ new is js) {ks : List Instr} (hks : ks.Sublist js) :
    Reworked ρ new is ks := by
  induction h generalizing ks with
  | nil => rw [List.sublist_nil.1 hks]; exact .nil
  | kept i _ ih =>
      cases hks with
      | cons _ hks => exact (ih hks).gone i
      | cons_cons _ hks => exact (ih hks).kept i
  | gone i _ ih => exact (ih hks).gone i
  | inserted hj _ ih =>
      cases hks with
      | cons _ hks => exact ih hks
      | cons_cons _ hks => exact (ih hks).inserted hj

end Reworked

end Instr

namespace Blocks

/-- Inserting into blocks is inserting into their instructions. -/
theorem instrs_insertBefore (k : Nat) (x : Instr) (bs : Blocks) :
    (bs.insertBefore k x).instrs = Instr.insertBefore k x bs.instrs := by
  induction bs with
  | nil => rfl
  | cons b bs ih =>
      rw [insertBefore]
      split
      · rename_i hhas
        rw [instrs_cons, instrs_cons, Instr.insertBefore_append_of_mem (Block.has_iff.1 hhas)]
      · rename_i hhas
        rw [instrs_cons, instrs_cons, ih, Instr.insertBefore_append_of_not_mem]
        exact fun i hi he => hhas (Block.has_iff.2 ⟨i, hi, he⟩)

/-- Removing an instruction from blocks adds none. -/
theorem instrs_erase_sublist (k : Nat) (bs : Blocks) : (bs.erase k).instrs.Sublist bs.instrs := by
  induction bs with
  | nil => exact List.Sublist.refl _
  | cons b bs ih =>
      rw [erase]
      split
      · exact (Instr.erase_sublist k b.instrs).append_right _
      · exact ih.append_left _

end Blocks

namespace Func

/-- Insertion in a function is insertion in the list of its instructions. -/
theorem instrs_insertBefore {mode : Overflow} {k id : Nat} {x : Instr} {f g : Func}
    (h : f.insertBefore mode k x = .ok (id, g)) :
    g.instrs = Instr.insertBefore k { x with id := id } f.instrs := by
  obtain ⟨_, _, _, _, rfl⟩ := insertBefore_cases h
  rw [instrs, blocks, instrs, blocks]
  cases f.body with
  | loaded bs => exact bs.instrs_insertBefore k _
  | declared => rfl
  | stored s => rfl

/-- Insertion adds one instruction to those that are there. -/
theorem perm_insertBefore {mode : Overflow} {k id : Nat} {x : Instr} {f g : Func}
    (h : f.insertBefore mode k x = .ok (id, g)) :
    g.instrs.Perm ({ x with id := id } :: f.instrs) := by
  rw [instrs_insertBefore h]
  refine Instr.perm_insertBefore ?_ _
  obtain ⟨old, _, hold, _⟩ := insertBefore_cases h
  exact ⟨old, List.mem_of_find?_eq_some hold, by simpa using List.find?_some hold⟩

/-- Removing an instruction from a function adds none. -/
theorem instrs_eraseInstr_sublist (k : Nat) (f : Func) :
    (f.eraseInstr k).instrs.Sublist f.instrs := by
  rw [instrs, blocks, instrs, blocks, eraseInstr]
  cases f.body with
  | loaded bs => exact bs.instrs_erase_sublist k
  | declared => exact List.Sublist.refl _
  | stored s => exact List.Sublist.refl _

/-- Without a body there is nothing to remove. -/
theorem eraseInstr_of_isDeclared {f : Func} (h : f.isDeclared = true) (k : Nat) :
    f.eraseInstr k = f := by
  have hbody : f.body.mapBlocks (Blocks.erase k) = f.body := by
    rw [isDeclared] at h
    cases hb : f.body with
    | declared => rfl
    | loaded bs => rw [hb] at h; cases h
    | stored s => rfl
  rw [eraseInstr, hbody]

end Func

end Postlink

import Postlink.Proofs.Overflow
import Postlink.Proofs.Pipeline.Orderly
import Postlink.Proofs.Reworking

/-!
# Identifiers that are new at any time

A function hands out identifiers from a counter. The counter is set at the first use from the body
as it is then, and goes its own way afterwards while instructions come and go. An edit does one of
three things (`Edit.perform_cases`): it fails and leaves the function as it is, it hands out nothing
and uses no new identifier, or it hands out the upcoming identifier and moves the counter past it.
So the counter stays above every identifier in the body and, once it is set, above every one handed
out before (`Func.Issued`). What is handed out is therefore new, whatever was done before
(`Func.issues_new`).

Edits act in place. Insertion, too, is looked at in this way: the position is looked up first, and
only then an identifier is taken and the instruction put there (`Func.insertInPlace_eq`).

All this is said of checked sums, where running out of identifiers is one more way to fail. As long
as it does not happen, edits do the same where sums wrap around (`Func.EditsInRange`).
-/

namespace Postlink

/-- Inserting at the position of an identifier is inserting in front of it. -/
theorem Instr.insertIdx_of_findIdx? {before n : Nat} {is : List Instr}
    (h : (is.findIdx? fun i => i.id = before) = some n) (new : Instr) :
    is.insertIdx n new = insertBefore before new is := by
  induction is generalizing n with
  | nil => cases h
  | cons i is ih =>
      rw [List.findIdx?_cons] at h
      rw [insertBefore]
      by_cases hi : i.id = before
      · rw [decide_eq_true hi] at h
        cases h
        rw [if_pos hi]
        rfl
      · rw [decide_eq_false hi] at h
        obtain ⟨k, hk, rfl⟩ := Option.map_eq_some_iff.1 h
        rw [if_neg hi, List.insertIdx_succ_cons, ih hk]

/-- A block has a position for the identifiers that it has. -/
theorem Block.isSome_findIdx? (id : Nat) (b : Block) :
    (b.instrs.findIdx? fun i => i.id = id).isSome = b.has id :=
  List.findIdx?_isSome

namespace Blocks

/-- Put an instruction at a position of a block. -/
def insertAt (place : Nat × Nat) (new : Instr) (bs : Blocks) : Blocks :=
  bs.modify place.1 fun b => { b with instrs := b.instrs.insertIdx place.2 new }

/-- An identifier has a position exactly if an instruction carries it. -/
theorem isSome_position?_iff {id : Nat} {bs : Blocks} :
    (bs.position? id).isSome = true ↔ ∃ i ∈ bs.instrs, i.id = id := by
  induction bs with
  | nil => simp [position?]
  | cons b bs ih =>
      have hhas := b.isSome_findIdx? id
      have hmem : (∃ i ∈ instrs (b :: bs), i.id = id) ↔
          b.has id = true ∨ ∃ i ∈ instrs bs, i.id = id := by
        rw [Block.has_iff, instrs_cons]
        simp only [List.mem_append, or_and_right, exists_or]
      rw [position?, hmem, ← ih, ← hhas]
      cases b.instrs.findIdx? fun i => i.id = id <;> simp

/-- Inserting at the position of an identifier is inserting in front of it. -/
theorem insertAt_of_position? {before : Nat} {place : Nat × Nat} {bs : Blocks}
    (h : bs.position? before = some place) (new : Instr) :
    bs.insertAt place new = bs.insertBefore before new := by
  induction bs generalizing place with
  | nil => cases h
  | cons b bs ih =>
      have hhas := b.isSome_findIdx? before
      rw [position?] at h
      rw [insertBefore]
      cases hb : b.instrs.findIdx? fun i => i.id = before with
      | none =>
          rw [hb] at h hhas
          obtain ⟨rest, hrest, rfl⟩ := Option.map_eq_some_iff.1 h
          rw [← hhas, if_neg (by simp), ← ih hrest]
          rfl
      | some n =>
          rw [hb] at h hhas
          cases h
          rw [← hhas, if_pos Option.isSome_some, ← Instr.insertIdx_of_findIdx? hb]
          rfl

end Blocks

namespace Func

/-- A change of a function in place. If it fails, the function stays as it is. -/
def inPlace {α : Type} (f : Func) : Except Fault (α × Func) → Except Fault α × Func
  | .error fault => (.error fault, f)
  | .ok (a, g) => (.ok a, g)

/-- Insert an instruction in place: look its position up, take an identifier, and put it there. -/
def insertInPlace (mode : Overflow) (before : Nat) (new : Instr) (f : Func) :
    Except Fault Nat × Func :=
  match f.blocks.position? before with
  | none => (.error (.unknownInstr f.name before), f)
  | some place =>
      match f.inPlace (f.freshId mode) with
      | (.error fault, g) => (.error fault, g)
      | (.ok id, g) => (.ok id, { g with
          body := g.body.mapBlocks (Blocks.insertAt place { new with id := id }) })

/-- Insertion in place gives the function with the new instruction, or fails and leaves it alone. -/
theorem insertInPlace_eq (mode : Overflow) (before : Nat) (new : Instr) (f : Func) :
    f.insertInPlace mode before new = f.inPlace (f.insertBefore mode before new) := by
  have hfound : (f.blocks.position? before).isSome = (f.instr? before).isSome := by
    rw [Bool.eq_iff_iff, Blocks.isSome_position?_iff, instr?, Blocks.instr?, List.find?_isSome]
    simp only [decide_eq_true_eq]
  cases hplace : f.blocks.position? before with
  | none =>
      rw [hplace, eq_comm, Option.isSome_none, Option.isSome_eq_false_iff,
        Option.isNone_iff_eq_none] at hfound
      simp only [insertInPlace, insertBefore, hplace, hfound, inPlace]
  | some place =>
      rw [hplace, eq_comm, Option.isSome_some, Option.isSome_iff_exists] at hfound
      obtain ⟨i, hi⟩ := hfound
      have hbody : ∀ x : Instr, f.body.mapBlocks (Blocks.insertAt place x) =
          f.body.mapBlocks (Blocks.insertBefore before x) := by
        intro x
        rw [blocks] at hplace
        cases hb : f.body with
        | loaded bs =>
            rw [hb] at hplace
            exact congrArg Body.loaded (Blocks.insertAt_of_position? hplace x)
        | declared => rfl
        | stored s => rfl
      cases hfresh : f.freshId mode with
      | error fault => simp only [insertInPlace, insertBefore, hplace, hi, hfresh,
          inPlace, Except.map]
      | ok fresh =>
          obtain ⟨next, hnext⟩ := exists_of_freshId hfresh
          simp only [insertInPlace, insertBefore, hplace, hi, hfresh, inPlace, Except.map,
            hnext, hbody]

end Func

/-- Something done to a function. -/
inductive Edit where
  /-- Take a fresh identifier. -/
  | takeId
  /-- Insert an instruction in front of another one. -/
  | insertBefore (before : Nat) (new : Instr)
  /-- Remove an instruction. -/
  | eraseInstr (id : Nat)
  /-- Replace the uses of a result. -/
  | replaceUses (id : Nat) (value : Operand)
  /-- Rename a function that is named. -/
  | renameRefs (old new : String)

namespace Edit

/-- Do it in place: what is handed out, or why it failed, and the function as it is then. -/
def perform (mode : Overflow) (f : Func) : Edit → Except Fault (Option Nat) × Func
  | .takeId => ((f.inPlace (f.freshId mode)).1.map some, (f.inPlace (f.freshId mode)).2)
  | .insertBefore before new =>
      ((f.insertInPlace mode before new).1.map some, (f.insertInPlace mode before new).2)
  | .eraseInstr id => (.ok none, f.eraseInstr id)
  | .replaceUses id value => (.ok none, f.replaceUses id value)
  | .renameRefs old new => (.ok none, f.renameRefs old new)

/-- What is handed out: one identifier or none. -/
def issues (mode : Overflow) (f : Func) (e : Edit) : List Nat :=
  ((e.perform mode f).1.toOption.bind id).toList

/-- An edit does not run out of identifiers. -/
def InRange (f : Func) (e : Edit) : Prop := (e.perform .stops f).1 ≠ .error .overflow

instance (f : Func) (e : Edit) : Decidable (e.InRange f) :=
  inferInstanceAs (Decidable ((e.perform .stops f).1 ≠ .error .overflow))

variable {mode : Overflow} {f : Func}

/-- An insertion that fails changes nothing. -/
theorem perform_insertBefore_of_error {before : Nat} {new : Instr} {fault : Fault}
    (h : f.insertBefore mode before new = .error fault) :
    (insertBefore before new).perform mode f = (.error fault, f) := by
  rw [perform, Func.insertInPlace_eq, h]
  rfl

/-- An insertion that succeeds hands its identifier out. -/
theorem perform_insertBefore_of_ok {before id : Nat} {new : Instr} {g : Func}
    (h : f.insertBefore mode before new = .ok (id, g)) :
    (insertBefore before new).perform mode f = (.ok (some id), g) := by
  rw [perform, Func.insertInPlace_eq, h]
  rfl

/-- An edit that does not run out of identifiers does the same whichever way sums are made. -/
theorem InRange.perform_eq {e : Edit} (h : e.InRange f) (mode : Overflow) :
    e.perform mode f = e.perform .stops f := by
  cases mode with
  | stops => rfl
  | wraps =>
      cases e with
      | takeId =>
          rcases f.freshId_cutShort with hsame | hstop
          · rw [perform, perform, hsame]
          · exact absurd (by rw [perform, hstop]; rfl) h
      | insertBefore before new =>
          rcases f.insertBefore_cutShort before new with hsame | hstop
          · rw [perform, perform, Func.insertInPlace_eq, Func.insertInPlace_eq, hsame]
          · exact absurd (by rw [perform_insertBefore_of_error hstop]) h
      | eraseInstr id => rfl
      | replaceUses id value => rfl
      | renameRefs old new => rfl

/-- An edit fails and changes nothing, or hands nothing out and adds no identifier, or hands out the
upcoming identifier, which may be in the body from then on. -/
theorem perform_cases (e : Edit) (f : Func) :
    (∃ fault, e.perform .stops f = (.error fault, f)) ∨
    (∃ g, e.perform .stops f = (.ok none, g) ∧ g.nextId = f.nextId ∧
      (g.instrs.map Instr.id).Sublist (f.instrs.map Instr.id)) ∨
    ∃ g, e.perform .stops f = (.ok (some f.upcomingId), g) ∧ g.nextId = some (f.upcomingId + 1) ∧
      (g.instrs.map Instr.id).Subperm (f.upcomingId :: f.instrs.map Instr.id) := by
  have hmap : ∀ change : Operand → Operand,
      ((f.mapInstrs (Instr.mapOperands change)).instrs.map Instr.id).Sublist
        (f.instrs.map Instr.id) := by
    intro change
    rw [(Func.SameIds.mapInstrs f (Instr.id_mapOperands change)).ids]
  cases e with
  | takeId =>
      by_cases hroom : f.upcomingId + 1 < UInt32.size
      · refine .inr (.inr ⟨f.advance 1, ?_, ?_, (List.sublist_cons_self ..).subperm⟩)
        · rw [perform, Func.freshId_stops, if_pos hroom]
          rfl
        · rfl
      · refine .inl ⟨.overflow, ?_⟩
        rw [perform, Func.freshId_stops, if_neg hroom]
        rfl
  | insertBefore before new =>
      cases hinsert : f.insertBefore .stops before new with
      | error fault => exact .inl ⟨fault, perform_insertBefore_of_error hinsert⟩
      | ok result =>
          obtain ⟨id, g⟩ := result
          obtain ⟨rfl, hnext⟩ := Func.id_of_insertBefore hinsert
          have hperm := (Func.perm_insertBefore hinsert).map Instr.id
          exact .inr (.inr ⟨g, perform_insertBefore_of_ok hinsert, hnext, hperm.subperm⟩)
  | eraseInstr id =>
      exact .inr (.inl ⟨_, rfl, rfl, (f.instrs_eraseInstr_sublist id).map Instr.id⟩)
  | replaceUses id value => exact .inr (.inl ⟨_, rfl, rfl, hmap _⟩)
  | renameRefs old new => exact .inr (.inl ⟨_, rfl, rfl, hmap _⟩)

end Edit

namespace Func

/-- The function after some edits. -/
def edited (mode : Overflow) (edits : List Edit) (f : Func) : Func :=
  edits.foldl (fun f e => (e.perform mode f).2) f

/-- The identifiers that some edits hand out, in order. -/
def issued (mode : Overflow) : List Edit → Func → List Nat
  | [], _ => []
  | e :: es, f => e.issues mode f ++ issued mode es (e.perform mode f).2

/-- Some edits, one after the other, do not run out of identifiers. -/
def EditsInRange : List Edit → Func → Prop
  | [], _ => True
  | e :: es, f => e.InRange f ∧ EditsInRange es (e.perform .stops f).2

instance EditsInRange.decidable : (edits : List Edit) → (f : Func) →
    Decidable (f.EditsInRange edits)
  | [], _ => inferInstanceAs (Decidable True)
  | e :: es, f =>
      have := EditsInRange.decidable es (e.perform .stops f).2
      inferInstanceAs (Decidable (e.InRange f ∧ EditsInRange es (e.perform .stops f).2))

/-- They do the same whichever way sums are made. -/
theorem EditsInRange.edited_eq {edits : List Edit} {f : Func} (h : f.EditsInRange edits)
    (mode : Overflow) :
    f.edited mode edits = f.edited .stops edits ∧ f.issued mode edits = f.issued .stops edits := by
  induction edits generalizing f with
  | nil => exact ⟨rfl, rfl⟩
  | cons e es ih =>
      obtain ⟨he, hes⟩ := h
      obtain ⟨hedited, hissued⟩ := ih hes
      refine ⟨?_, ?_⟩
      · rw [edited, List.foldl_cons, he.perform_eq mode]
        exact hedited
      · rw [issued, issued, Edit.issues, Edit.issues, he.perform_eq mode, hissued]

/-- Identifiers are distinct and below the counter, and the counter has been set and has passed all
that were handed out. -/
structure Issued (handed : List Nat) (f : Func) : Prop where
  /-- The body is numbered. -/
  numbered : f.Numbered
  /-- The counter has passed what was handed out. -/
  passed : ∀ k ∈ handed, ∃ n, f.nextId = some n ∧ k < n

theorem Issued.lt_upcomingId {handed : List Nat} {f : Func} (h : f.Issued handed) {k : Nat}
    (hk : k ∈ handed) : k < f.upcomingId := by
  obtain ⟨n, hn, hlt⟩ := h.passed k hk
  rwa [upcomingId, hn, Option.getD_some]

/-- No instruction carries the upcoming identifier. -/
theorem Numbered.upcomingId_notMem {f : Func} (h : f.Numbered) :
    f.upcomingId ∉ f.instrs.map Instr.id := by
  intro hmem
  obtain ⟨i, hi, hid⟩ := List.mem_map.1 hmem
  exact Nat.ne_of_lt (h.below i hi) hid

/-- One edit keeps the counter above what is in the body and what was handed out. -/
theorem Issued.perform {handed : List Nat} {f : Func} (h : f.Issued handed) (e : Edit) :
    (e.perform .stops f).2.Issued (handed ++ e.issues .stops f) := by
  rcases e.perform_cases f with ⟨fault, hfail⟩ | ⟨g, hdone, hnext, hids⟩ | ⟨g, hout, hnext, hids⟩
  · have hissues : e.issues .stops f = [] := by rw [Edit.issues, hfail]; rfl
    rwa [hfail, hissues, List.append_nil]
  · have hissues : e.issues .stops f = [] := by rw [Edit.issues, hdone]; rfl
    rw [hdone, hissues, List.append_nil]
    exact ⟨h.numbered.of_sublist hnext hids, fun k hk => hnext ▸ h.passed k hk⟩
  · have hissues : e.issues .stops f = [f.upcomingId] := by rw [Edit.issues, hout]; rfl
    rw [hout, hissues]
    have hnodup : (f.upcomingId :: f.instrs.map Instr.id).Nodup :=
      List.nodup_cons.2 ⟨h.numbered.upcomingId_notMem, h.numbered.distinct⟩
    have hupcoming : g.upcomingId = f.upcomingId + 1 := by
      rw [upcomingId, hnext, Option.getD_some]
    obtain ⟨ids, hperm, hsub⟩ := hids
    refine ⟨⟨hperm.nodup_iff.1 (hnodup.sublist hsub), ?_⟩, ?_⟩
    · intro i hi
      rw [hupcoming]
      have hmem := hsub.subset (hperm.symm.subset (List.mem_map_of_mem hi))
      rcases List.mem_cons.1 hmem with hid | hmem
      · omega
      · obtain ⟨j, hj, hid⟩ := List.mem_map.1 hmem
        have hlt := h.numbered.below j hj
        omega
    · intro k hk
      refine ⟨f.upcomingId + 1, hnext, ?_⟩
      rcases List.mem_append.1 hk with hk | hk
      · exact Nat.lt_succ_of_lt (h.lt_upcomingId hk)
      · exact Nat.lt_succ_of_le (List.mem_singleton.1 hk).le

/-- So do any number of edits. -/
theorem Issued.edited {handed : List Nat} {f : Func} (h : f.Issued handed) (edits : List Edit) :
    (f.edited .stops edits).Issued (handed ++ f.issued .stops edits) := by
  induction edits generalizing f handed with
  | nil => rwa [issued, List.append_nil]
  | cons e es ih =>
      rw [issued, ← List.append_assoc]
      exact ih (h.perform e)

/-- What is handed out after any edits is new. -/
theorem Issued.lt_of_perform {handed : List Nat} {f : Func} (h : f.Issued handed)
    {e : Edit} {id : Nat} (hid : (e.perform .stops f).1 = .ok (some id)) :
    id ∉ f.instrs.map Instr.id ∧ ∀ k ∈ handed, k < id := by
  obtain rfl : id = f.upcomingId := by
    rcases e.perform_cases f with ⟨fault, hfail⟩ | ⟨g, hdone, _⟩ | ⟨g, hout, _⟩
    · rw [hfail] at hid
      cases hid
    · rw [hdone] at hid
      cases hid
    · rw [hout] at hid
      cases hid
      rfl
  exact ⟨h.numbered.upcomingId_notMem, fun k hk => h.lt_upcomingId hk⟩

/-- Whatever was done to a function whose identifiers are distinct and that has handed out none: its
identifiers are still distinct, the next one that it hands out is carried by no instruction and
greater than all that were handed out before, and an insertion that fails leaves it as it is. Where
sums wrap around, this holds as long as identifiers stay in range; where they are checked, running
out of identifiers is one of the failures. -/
theorem issues_new (mode : Overflow) {f : Func} (hnext : f.nextId = none)
    (hids : (f.instrs.map Instr.id).Nodup) {edits : List Edit}
    (hrange : mode = .wraps → f.EditsInRange edits) :
    ((f.edited mode edits).instrs.map Instr.id).Nodup ∧
    (∀ (e : Edit) (id : Nat), (mode = .wraps → e.InRange (f.edited mode edits)) →
      (e.perform mode (f.edited mode edits)).1 = .ok (some id) →
      id ∉ (f.edited mode edits).instrs.map Instr.id ∧ ∀ k ∈ f.issued mode edits, k < id) ∧
    (∀ before new id g, (f.edited mode edits).insertBefore mode before new = .ok (id, g) →
      (Edit.insertBefore before new).perform mode (f.edited mode edits) = (.ok (some id), g)) ∧
    ∀ before new fault, (f.edited mode edits).insertBefore mode before new = .error fault →
      (Edit.insertBefore before new).perform mode (f.edited mode edits) =
        (.error fault, f.edited mode edits) := by
  have hstart : f.Issued [] := ⟨numbered_of_nodup hnext hids, fun k hk => nomatch hk⟩
  have h := hstart.edited edits
  rw [List.nil_append] at h
  obtain ⟨hedited, hissued⟩ :
      f.edited mode edits = f.edited .stops edits ∧
      f.issued mode edits = f.issued .stops edits := by
    cases mode with
    | stops => exact ⟨rfl, rfl⟩
    | wraps => exact (hrange rfl).edited_eq .wraps
  refine ⟨hedited ▸ h.numbered.distinct, fun e id he hid => ?_,
    fun _ _ _ _ => Edit.perform_insertBefore_of_ok, fun _ _ _ => Edit.perform_insertBefore_of_error⟩
  rw [hedited] at he hid ⊢
  rw [hissued]
  cases mode with
  | stops => exact h.lt_of_perform hid
  | wraps => exact h.lt_of_perform ((he rfl).perform_eq .wraps ▸ hid)

/-- Two blocks, the greatest identifier first. -/
def churned : Func :=
  .define "f" ⟨.void, []⟩ [
    ⟨"entry", [⟨4, "", .int 32, .binary .add (.arg 0) (.arg 0), none⟩]⟩,
    ⟨"exit", [⟨1, "", .void, .ret (some (.inst 4)), none⟩]⟩]

/-- The greatest identifier goes before the counter is set, an insertion fails, and what another one
has put there is removed again. -/
def churning : List Edit :=
  let idle : Instr := ⟨0, "", .void, .ret none, none⟩
  [.eraseInstr 4, .takeId, .insertBefore 9 idle, .insertBefore 1 idle, .replaceUses 4 (.arg 0),
    .eraseInstr 3, .renameRefs "g" "h"]

/-- The removed identifier comes up again, and is new: it was not handed out before. -/
theorem issues_new_churned :
    churned.nextId = none ∧ (churned.instrs.map Instr.id).Nodup ∧ churned.EditsInRange churning ∧
    churned.issued .wraps churning = [2, 3] ∧
    Edit.takeId.InRange (churned.edited .wraps churning) ∧
    (Edit.takeId.perform .wraps (churned.edited .wraps churning)).1 = .ok (some 4) ∧
    4 ∉ (churned.edited .wraps churning).instrs.map Instr.id ∧
    (∀ k ∈ churned.issued .wraps churning, k < 4) ∧
    (Edit.insertBefore 9 ⟨0, "", .void, .ret none, none⟩).perform .wraps
        (churned.edited .wraps churning) =
      (.error (.unknownInstr "f" 9), churned.edited .wraps churning) := by
  have hids : (churned.instrs.map Instr.id).Nodup := by decide +kernel
  have hrange : churned.EditsInRange churning := by decide +kernel
  have htake : Edit.takeId.InRange (churned.edited .wraps churning) := by decide +kernel
  have hupcoming : (Edit.takeId.perform .wraps (churned.edited .wraps churning)).1 =
      .ok (some 4) := rfl
  obtain ⟨_, hfresh, _, hfail⟩ := issues_new .wraps rfl hids fun _ => hrange
  obtain ⟨hnew, hgreater⟩ := hfresh Edit.takeId 4 (fun _ => htake) hupcoming
  exact ⟨rfl, hids, hrange, rfl, htake, hupcoming, hnew, hgreater, hfail 9 _ _ rfl⟩

end Func

end Postlink

import Postlink.Pipeline
import Postlink.Proofs.CastRepair.Steps

/-!
# What an overflow can change

A run that checks its sums takes the steps that a run whose sums wrap around takes, until it stops
for want of an identifier (`CutShort`). This holds when one identifier is taken, and from there it
holds of cast repair, of lowering and of preparing a program. Where the checked run is not stopped,
identifiers stay in range and the program does the same whichever way its sums are made.
-/

namespace Postlink

/-- The first run ends as the second one does, unless it was stopped on the way. -/
def CutShort {ε α : Type} (stop : ε) (x y : Except ε α) : Prop := x = y ∨ x = .error stop

namespace CutShort

variable {ε α β : Type} {stop : ε} {x y : Except ε α}

theorem refl (stop : ε) (x : Except ε α) : CutShort stop x x := Or.inl rfl

/-- What is made of the result is made of it in both runs. -/
theorem map (h : CutShort stop x y) (f : α → β) : CutShort stop (x.map f) (y.map f) := by
  rcases h with rfl | rfl
  · exact refl stop _
  · exact Or.inr rfl

/-- Runs that go on after other ones. -/
theorem bind (h : CutShort stop x y) {f g : α → Except ε β}
    (hnext : ∀ a, CutShort stop (f a) (g a)) : CutShort stop (x >>= f) (y >>= g) := by
  rcases h with rfl | rfl
  · cases x with
    | error e => exact refl stop _
    | ok a => exact hnext a
  · exact Or.inr rfl

/-- Runs of many steps. -/
theorem foldlM {f g : β → α → Except ε β} (hstep : ∀ b a, CutShort stop (f b a) (g b a))
    (as : List α) (b : β) : CutShort stop (as.foldlM f b) (as.foldlM g b) := by
  induction as generalizing b with
  | nil => exact refl stop _
  | cons a as ih =>
      rw [List.foldlM_cons, List.foldlM_cons]
      exact (hstep b a).bind ih

end CutShort

/-- The next identifier is the same in both modes if there is one. -/
theorem Overflow.next?_stops (id : Nat) :
    Overflow.stops.next? id = Overflow.wraps.next? id ∨ Overflow.stops.next? id = none := by
  by_cases hroom : id + 1 < UInt32.size
  · left
    simp only [next?, hroom, if_true, Nat.mod_eq_of_lt hroom]
  · right
    simp only [next?, hroom, if_false]

/-- So is the identifier after those of some instructions. -/
theorem Instr.startId?_cutShort (is : List Instr) :
    startId? .stops is = startId? .wraps is ∨ startId? .stops is = none := by
  induction is with
  | nil => exact Or.inl rfl
  | cons i is ih =>
      rcases Overflow.next?_stops i.id with hnext | hnext
      · rcases ih with ih | ih
        · left
          rw [startId?, startId?, hnext, ih]
        · right
          rw [startId?, ih]
          cases Overflow.stops.next? i.id <;> rfl
      · right
        rw [startId?, hnext]

namespace Func

/-- Taking an identifier. -/
theorem freshId_cutShort (f : Func) :
    CutShort .overflow (f.freshId .stops) (f.freshId .wraps) := by
  have hstart : f.nextId? .stops = f.nextId? .wraps ∨ f.nextId? .stops = none := by
    rw [nextId?, nextId?]
    cases f.nextId with
    | some id => exact Or.inl rfl
    | none => exact Instr.startId?_cutShort f.instrs
  rcases hstart with hstart | hstart
  · rw [freshId, freshId, hstart]
    cases f.nextId? .wraps with
    | none => exact .refl _ _
    | some id =>
        dsimp only
        rcases Overflow.next?_stops id with hnext | hnext
        · rw [hnext]
          exact .refl _ _
        · rw [hnext]
          exact Or.inr rfl
  · rw [freshId, hstart]
    exact Or.inr rfl

/-- Inserting an instruction. -/
theorem insertBefore_cutShort (before : Nat) (new : Instr) (f : Func) :
    CutShort .overflow (f.insertBefore .stops before new) (f.insertBefore .wraps before new) := by
  rw [insertBefore, insertBefore]
  cases f.instr? before with
  | none => exact .refl _ _
  | some old => exact f.freshId_cutShort.map _

end Func

namespace Repair

/-- Redirecting a call. -/
theorem retarget_cutShort (index : Nat) (c : CastCall) (name : String) (s : Repair) :
    CutShort .overflow (s.retarget .stops index c name) (s.retarget .wraps index c name) := by
  unfold retarget
  cases s.module.functions[index]? with
  | none => exact .refl _ _
  | some f =>
      dsimp only
      cases f.instr? c.id with
      | none => exact .refl _ _
      | some old =>
          dsimp only
          cases old.call? with
          | none => exact .refl _ _
          | some call =>
              dsimp only
              rcases f.insertBefore_cutShort c.id (redirected name c.sig old call) with h | h
              · rw [h]
                exact .refl _ _
              · rw [h]
                exact Or.inr rfl

/-- Repairing a call. -/
theorem repairCall_cutShort (index : Nat) (s : Repair) (c : CastCall) :
    CutShort .overflow (repairCall .stops index s c) (repairCall .wraps index s c) := by
  unfold repairCall
  cases s.copy? c with
  | none => exact .refl _ _
  | some r => exact retarget_cutShort index c r.1 r.2

/-- Repairing the calls of one function. -/
theorem sweepAt_cutShort (s : Repair) (index : Nat) :
    CutShort .overflow (sweepAt .stops s index) (sweepAt .wraps s index) := by
  unfold sweepAt
  cases s.module.functions[index]? with
  | none => exact .refl _ _
  | some f => exact .foldlM (repairCall_cutShort index) _ _

/-- Repairing the calls of all functions. -/
theorem sweep_cutShort (m : Module) : CutShort .overflow (sweep .stops m) (sweep .wraps m) :=
  .foldlM sweepAt_cutShort _ _

/-- Where sums wrap around, a sweep succeeds. -/
theorem exists_sweep_wraps (m : Module) : ∃ s, sweep .wraps m = .ok s := by
  have hcall : ∀ index s c, ∃ s', repairCall .wraps index s c = .ok s' ∧ True := by
    intro index s c
    unfold repairCall
    cases s.copy? c with
    | none => exact ⟨_, rfl, trivial⟩
    | some r =>
        obtain ⟨s', hs'⟩ := exists_retarget_wraps r.2 index c r.1
        exact ⟨s', hs', trivial⟩
  have hat : ∀ s index, True → ∃ s', sweepAt .wraps s index = .ok s' ∧ True := by
    intro s index _
    unfold sweepAt
    cases s.module.functions[index]? with
    | none => exact ⟨_, rfl, trivial⟩
    | some f => exact exists_foldlM trivial (fun s c _ => hcall index s c) _
  obtain ⟨s, hs, _⟩ := exists_foldlM trivial hat (positions m)
  exact ⟨s, hs⟩

end Repair

namespace Lowering

/-- Inserting one step. -/
theorem emitStep_cutShort (site : DirectCall) (s : Func × Option Operand) (step : Step) :
    CutShort .overflow (emitStep .stops site s step) (emitStep .wraps site s step) :=
  (s.1.insertBefore_cutShort _ _).map _

/-- Inserting all steps. -/
theorem emit_cutShort (site : DirectCall) (steps : List Step) (f : Func) :
    CutShort .overflow (emit .stops site steps f) (emit .wraps site steps f) :=
  (CutShort.foldlM (emitStep_cutShort site) steps (f, none)).map _

/-- Lowering one call. -/
theorem lowerSite_cutShort (index : Nat) (s : Lowering) (site : DirectCall) :
    CutShort (.fault .overflow) (lowerSite .stops index s site)
    (lowerSite .wraps index s site) := by
  unfold lowerSite
  cases s.module.functions[index]? with
  | none => exact .refl _ _
  | some f =>
      dsimp only
      cases s.module.verdict f.name site with
      | error e => exact .refl _ _
      | ok verdict =>
          cases verdict with
          | none => exact .refl _ _
          | some verdict =>
              cases verdict with
              | drop => exact .refl _ _
              | replace steps =>
                  dsimp only
                  rcases emit_cutShort site steps f with h | h
                  · rw [h]
                    exact .refl _ _
                  · rw [h]
                    exact Or.inr rfl

/-- Lowering the calls of one function. -/
theorem lowerAt_cutShort (s : Lowering) (index : Nat) :
    CutShort (.fault .overflow) (lowerAt .stops s index) (lowerAt .wraps s index) := by
  unfold lowerAt
  cases s.module.functions[index]? with
  | none => exact .refl _ _
  | some f => exact .foldlM (lowerSite_cutShort index) _ _

/-- Lowering the calls of all functions. -/
theorem sweep_cutShort (m : Module) :
    CutShort (.fault .overflow) (sweep .stops m) (sweep .wraps m) :=
  .foldlM lowerAt_cutShort _ _

end Lowering

namespace Module

/-- Identifiers stay in range while casts are repaired. -/
def RepairsInRange (m : Module) : Prop := m.repairCasts .stops ≠ .error .overflow

instance (m : Module) : Decidable m.RepairsInRange :=
  inferInstanceAs (Decidable (m.repairCasts .stops ≠ .error .overflow))

/-- Identifiers stay in range while builtin calls are lowered. -/
def LowersInRange (internal : Bool) (m : Module) : Prop :=
  m.lower .stops internal ≠ .error (.fault .overflow)

instance (internal : Bool) (m : Module) : Decidable (m.LowersInRange internal) :=
  inferInstanceAs (Decidable (m.lower .stops internal ≠ .error (.fault .overflow)))

/-- Identifiers stay in range while a program is prepared. -/
def PreparesInRange (config : Config) (program library : Module) : Prop :=
  prepare .stops config program library ≠ .error (.fault .overflow)

/-- Cast repair in the two modes. -/
theorem repairCasts_cutShort (m : Module) :
    CutShort .overflow (m.repairCasts .stops) (m.repairCasts .wraps) :=
  (Repair.sweep_cutShort m).map _

/-- Where identifiers stay in range, cast repair succeeds, in both modes with the same result. -/
theorem RepairsInRange.exists_sweep {m : Module} (h : m.RepairsInRange) :
    ∃ s, ∀ mode, Repair.sweep mode m = .ok s := by
  obtain ⟨s, hs⟩ := Repair.exists_sweep_wraps m
  refine ⟨s, fun mode => ?_⟩
  cases mode with
  | wraps => exact hs
  | stops =>
      rcases Repair.sweep_cutShort m with hsame | hstop
      · rw [hsame, hs]
      · exact absurd (by rw [repairCasts, hstop]; rfl) h

/-- Where identifiers stay in range, cast repair ends in the same way in both modes. -/
theorem RepairsInRange.repairCasts_eq {m : Module} (h : m.RepairsInRange) (mode : Overflow) :
    m.repairCasts mode = m.repairCasts .stops := by
  obtain ⟨s, hs⟩ := h.exists_sweep
  rw [repairCasts, repairCasts, hs, hs]

/-- Lowering in the two modes. -/
theorem lower_cutShort (internal : Bool) (m : Module) :
    CutShort (.fault .overflow) (m.lower .stops internal) (m.lower .wraps internal) :=
  (Lowering.sweep_cutShort m).map _

/-- Where identifiers stay in range, lowering ends in the same way in both modes. -/
theorem LowersInRange.lower_eq {internal : Bool} {m : Module} (h : m.LowersInRange internal)
    (mode : Overflow) : m.lower mode internal = m.lower .stops internal := by
  cases mode with
  | stops => rfl
  | wraps => exact ((lower_cutShort internal m).resolve_right h).symm

/-- Preparing a program in the two modes. -/
theorem prepare_cutShort (config : Config) (program library : Module) :
    CutShort (.fault .overflow) (prepare .stops config program library)
      (prepare .wraps config program library) := by
  unfold prepare
  cases program.importFrom library with
  | error e => exact .refl _ _
  | ok imported =>
      dsimp only
      rcases repairCasts_cutShort (imported.2.setFlags config.flags).1 with hrepair | hrepair
      · rw [hrepair]
        cases (imported.2.setFlags config.flags).1.repairCasts .wraps with
        | error e => exact .refl _ _
        | ok repaired =>
            dsimp only
            rcases lower_cutShort config.internalize repaired.2 with hlower | hlower
            · rw [hlower]
              exact .refl _ _
            · rw [hlower]
              exact Or.inr rfl
      · rw [hrepair]
        exact Or.inr rfl

/-- Where identifiers stay in range, preparing a program ends in the same way in both modes. -/
theorem PreparesInRange.prepare_eq {config : Config} {program library : Module}
    (h : PreparesInRange config program library) (mode : Overflow) :
    prepare mode config program library = prepare .stops config program library := by
  cases mode with
  | stops => rfl
  | wraps => exact ((prepare_cutShort config program library).resolve_right h).symm

end Module

end Postlink

import Postlink.Proofs.CastRepair.Sharing

/-!
# Cast repair comes to an end

The sweep goes over a list of functions that grows under it: as long as there is a function at the
next position, that function has its turn (`Repair.Turns`). Each copy answers to a function and a
signature that some call of the module asks for, and neither copying a body nor redirecting a call
asks for anything else (`Repair.Confined`). So there are no more copies than such pairs, whatever
the module is, and the loop ends within the positions that were set aside for it.

A redirected call takes one identifier. Where sums are checked, the last of them stops the sweep. As
every function has its turn once, and none ever has more calls through casts than the whole module
had, a module whose identifiers leave room for these never comes to that (`Repair.Roomy`).
-/

namespace Postlink

namespace Func

/-- The identifiers of a function lie below a limit, and its counter does not stand above it. -/
structure IdsBelow (limit : Nat) (f : Func) : Prop where
  /-- The counter. -/
  counter : ∀ next, f.nextId = some next → next ≤ limit
  /-- The identifiers in use. -/
  ids : ∀ i ∈ f.instrs, i.id < limit

namespace IdsBelow

variable {limit : Nat} {f g : Func}

theorem mono {limit' : Nat} (h : f.IdsBelow limit) (hle : limit ≤ limit') : f.IdsBelow limit' :=
  ⟨fun next hnext => (h.counter next hnext).trans hle,
    fun i hi => Nat.lt_of_lt_of_le (h.ids i hi) hle⟩

/-- The identifier to come does not pass the limit. -/
theorem upcomingId_le (h : f.IdsBelow limit) : f.upcomingId ≤ limit := by
  rw [upcomingId]
  cases hnext : f.nextId with
  | some next => exact h.counter next hnext
  | none => exact Instr.idBound_le h.ids

/-- As long as there is an identifier after the limit, an instruction can be inserted. -/
theorem exists_insertBefore (h : f.IdsBelow limit) (hroom : limit + 1 < UInt32.size) {before : Nat}
    {old : Instr} (hold : f.instr? before = some old) (new : Instr) :
    ∃ id g, f.insertBefore .stops before new = .ok (id, g) := by
  have hnext : f.upcomingId + 1 < UInt32.size :=
    Nat.lt_of_le_of_lt (Nat.succ_le_succ h.upcomingId_le) hroom
  rw [Func.insertBefore, hold, freshId_stops, if_pos hnext]
  exact ⟨_, _, rfl⟩

/-- It takes one identifier. -/
theorem insertBefore (h : f.IdsBelow limit) {before id : Nat} {new : Instr}
    (hinsert : f.insertBefore .stops before new = .ok (id, g)) : g.IdsBelow (limit + 1) := by
  obtain ⟨rfl, hcounter⟩ := id_of_insertBefore hinsert
  refine ⟨fun next hnext => ?_, fun i hi => ?_⟩
  · rw [hcounter, Option.some.injEq] at hnext
    exact hnext ▸ Nat.succ_le_succ h.upcomingId_le
  · rw [instrs_insertBefore hinsert] at hi
    rcases Instr.mem_insertBefore hi with rfl | hi
    · exact Nat.lt_succ_of_le h.upcomingId_le
    · exact Nat.lt_succ_of_lt (h.ids i hi)

/-- Redirecting uses takes none. -/
theorem replaceUses (h : f.IdsBelow limit) (a b : Nat) :
    (f.replaceUses a (.inst b)).IdsBelow limit := by
  refine ⟨h.counter, fun i hi => ?_⟩
  rw [Func.replaceUses, Operand.replace_eq_renumber, instrs_mapInstrs] at hi
  obtain ⟨j, hj, rfl⟩ := List.mem_map.1 hi
  exact h.ids j hj

end IdsBelow

/-- The functions and signatures that calls through casts ask for, in order. -/
def castKeys (f : Func) : List (String × Signature) := f.instrs.filterMap Instr.castKey?

end Func

namespace Module

/-- Those of all functions. -/
def castKeys (m : Module) : List (String × Signature) := m.instrs.filterMap Instr.castKey?

/-- A module asks for a key if a call in one of its functions does. -/
theorem mem_castKeys_iff {m : Module} {key : String × Signature} :
    key ∈ m.castKeys ↔ ∃ f ∈ m.functions, ∃ i ∈ f.instrs, i.castKey? = some key := by
  simp only [castKeys, instrs, List.mem_filterMap, List.mem_flatMap]
  constructor
  · rintro ⟨i, ⟨f, hf, hi⟩, hkey⟩
    exact ⟨f, hf, i, hi, hkey⟩
  · rintro ⟨f, hf, i, hi, hkey⟩
    exact ⟨i, ⟨f, hf, hi⟩, hkey⟩

/-- Every call through a cast asks for one pair. -/
theorem length_castKeys (m : Module) : m.castKeys.length = m.castCallCount := by
  rw [castKeys, List.length_filterMap_eq_countP, castCallCount]
  congr 1
  funext i
  rw [Instr.castKey?]
  cases i.call? with
  | none => rfl
  | some c => rw [Option.bind_some, Option.bind_some, Option.isSome_map]

/-- A function has no more calls through casts than its module. -/
theorem length_castKeys_le {m : Module} {f : Func} (hf : f ∈ m.functions) :
    f.castKeys.length ≤ m.castCallCount := by
  rw [← m.length_castKeys, castKeys, instrs, List.flatMap_def]
  exact ((List.sublist_flatten_of_mem (List.mem_map_of_mem hf)).filterMap _).length_le

/-- A function has no more calls to redirect than calls through casts. -/
theorem length_castCalls_le (m : Module) (f : Func) :
    (m.castCalls f).length ≤ f.castKeys.length := by
  rw [castCalls, Func.castKeys, List.length_filterMap_eq_countP, List.length_filterMap_eq_countP]
  refine List.countP_mono_left fun i _ hcast => ?_
  obtain ⟨c, hc⟩ := Option.isSome_iff_exists.1 hcast
  rw [castKey?_of_castCall? hc]
  rfl

/-- The identifiers of a module leave room for one more in every call that a sweep may come to. -/
def HasRoom (m : Module) : Prop :=
  ∃ limit, (∀ f ∈ m.functions, f.IdsBelow limit) ∧
    limit + (m.functions.length + m.castCallCount) * m.castCallCount < UInt32.size

end Module

namespace Repair

/-- The sweep as a loop, with the way it ends. -/
inductive Turns (mode : Overflow) : Nat → Repair → Except Fault Repair → Prop where
  /-- No function is left. -/
  | done {index : Nat} {s : Repair} (h : s.module.functions.length ≤ index) :
      Turns mode index s (.ok s)
  /-- The next function has its turn, and so have those behind it. -/
  | turn {index : Nat} {s t : Repair} {r : Except Fault Repair}
      (h : index < s.module.functions.length) (hstep : s.sweepAt mode index = .ok t)
      (hrest : Turns mode (index + 1) t r) : Turns mode index s r
  /-- The next function has its turn, which fails. -/
  | stop {index : Nat} {s : Repair} {e : Fault} (h : index < s.module.functions.length)
      (hstep : s.sweepAt mode index = .error e) : Turns mode index s (.error e)

variable {mode : Overflow}

/-- The loop ends in one way only. -/
theorem Turns.unique {index : Nat} {s : Repair} {r₁ r₂ : Except Fault Repair}
    (h₁ : Turns mode index s r₁) (h₂ : Turns mode index s r₂) : r₁ = r₂ := by
  induction h₁ with
  | done h =>
      cases h₂ with
      | done => rfl
      | turn hlt => omega
      | stop hlt => omega
  | turn hlt hstep _ ih =>
      cases h₂ with
      | done h => omega
      | turn _ hstep' hrest =>
          rw [hstep] at hstep'
          cases hstep'
          exact ih hrest
      | stop _ hstep' =>
          rw [hstep] at hstep'
          cases hstep'
  | stop hlt hstep =>
      cases h₂ with
      | done h => omega
      | turn _ hstep' =>
          rw [hstep] at hstep'
          cases hstep'
      | stop _ hstep' =>
          rw [hstep] at hstep'
          cases hstep'
          rfl

/-- Behind the last function there is nothing to do. -/
theorem sweepAt_of_length_le {s : Repair} {index : Nat} (h : s.module.functions.length ≤ index) :
    s.sweepAt mode index = .ok s := by
  unfold sweepAt
  rw [List.getElem?_eq_none h]

/-- A sweep over enough positions is the loop. -/
theorem turns_foldlM {n index : Nat} {s : Repair}
    (hend : ∀ s', (List.range' index n).foldlM (sweepAt mode) s = .ok s' →
      s'.module.functions.length ≤ index + n) :
    Turns mode index s ((List.range' index n).foldlM (sweepAt mode) s) := by
  induction n generalizing index s with
  | zero => exact .done (hend s rfl)
  | succ n ih =>
      by_cases hlt : index < s.module.functions.length
      · rw [List.range'_succ, List.foldlM_cons] at hend ⊢
        cases hstep : sweepAt mode s index with
        | error e => exact .stop hlt hstep
        | ok t =>
            rw [hstep] at hend
            refine .turn hlt hstep (ih fun s' hs' => ?_)
            have := hend s' hs'
            omega
      · have hidle : (List.range' index (n + 1)).foldlM (sweepAt mode) s = .ok s := by
          refine foldlM_eq_self fun k hk => sweepAt_of_length_le ?_
          have := List.mem_range'_1.1 hk
          omega
        rw [hidle]
        exact .done (by omega)

/-- What the copies of a repair are for. -/
structure Confined (m : Module) (s : Repair) : Prop where
  /-- Calls ask for nothing that the module did not ask for. -/
  traced : s.module.castKeys ⊆ m.castKeys
  /-- Copies were asked for. -/
  asked : s.copies.map Prod.fst ⊆ m.castKeys
  /-- None was made twice. -/
  keys : (s.copies.map Prod.fst).Nodup
  /-- Each of them is one more function. -/
  length : s.module.functions.length = m.functions.length + s.copies.length

namespace Confined

variable {m : Module} {s s' : Repair}

theorem start (m : Module) : (start m).Confined m :=
  ⟨List.Subset.refl _, List.nil_subset _, List.nodup_nil, rfl⟩

/-- A copy is made for a pair without one, and its body asks for what its origin asks for. -/
theorem copy? (h : s.Confined m) {c : CastCall} (hasked : c.key ∈ m.castKeys) {name : String}
    (hs : s.copy? c = some (name, s')) : s'.Confined m := by
  rcases copy?_cases hs with ⟨_, rfl⟩ | ⟨g, hlookup, hg, _, rfl⟩
  · exact h
  · obtain ⟨f, hf, _, rfl⟩ := Module.exists_of_copyFor? hg
    obtain ⟨hmem, _⟩ := Module.mem_of_func? hf
    refine ⟨fun key hkey => ?_, ?_, ?_, ?_⟩
    · obtain ⟨b, hb, i, hi, hkey⟩ := Module.mem_castKeys_iff.1 hkey
      refine h.traced (Module.mem_castKeys_iff.2 ?_)
      rcases List.mem_append.1 hb with hb | hb
      · exact ⟨b, hb, i, hi, hkey⟩
      · rw [List.mem_singleton.1 hb] at hi
        exact ⟨f, hmem, i, hi, hkey⟩
    · rw [List.map_append]
      exact List.append_subset.2 ⟨h.asked, List.cons_subset.2 ⟨hasked, List.nil_subset _⟩⟩
    · have hnew : c.key ∉ s.copies.map Prod.fst := by
        rw [← isSome_lookup_iff, CastCall.key, hlookup]
        exact Bool.false_ne_true
      rw [List.map_append]
      exact h.keys.append (List.nodup_singleton _) (List.disjoint_singleton.2 hnew)
    · simp only [Module.addFunc, List.length_append, List.length_singleton, h.length]
      omega

/-- Redirecting a call changes one function and asks for nothing new. -/
theorem retarget (h : s.Confined m) {index : Nat} {c : CastCall} {name : String}
    (hs : s.retarget mode index c name = .ok s') : s'.Confined m := by
  rcases retarget_cases hs with rfl | ⟨f, old, call, id, g, hf, _, _, hinsert, rfl⟩
  · exact h
  · refine ⟨fun key hkey => ?_, h.asked, h.keys, ?_⟩
    · obtain ⟨b, hb, i, hi, hkey⟩ := Module.mem_castKeys_iff.1 hkey
      refine h.traced (Module.mem_castKeys_iff.2 ?_)
      rcases List.mem_or_eq_of_mem_set hb with hb | rfl
      · exact ⟨b, hb, i, hi, hkey⟩
      · exact ⟨f, List.mem_of_getElem? hf, exists_castKey?_of_redirected hinsert hi hkey⟩
    · rw [Module.setFunc, List.length_set]
      exact h.length

/-- So does repairing a call that asks for what the module asked for. -/
theorem repairCall (h : s.Confined m) {index : Nat} {c : CastCall} (hasked : c.key ∈ m.castKeys)
    (hs : s.repairCall mode index c = .ok s') : s'.Confined m := by
  unfold Repair.repairCall at hs
  cases hcopy : s.copy? c with
  | none =>
      rw [hcopy] at hs
      cases hs
      exact ⟨h.traced, h.asked, h.keys, h.length⟩
  | some made =>
      rw [hcopy] at hs
      exact (h.copy? hasked hcopy).retarget hs

/-- So does a turn. -/
theorem sweepAt (h : s.Confined m) {index : Nat} (hs : s.sweepAt mode index = .ok s') :
    s'.Confined m := by
  unfold Repair.sweepAt at hs
  cases hf : s.module.functions[index]? with
  | none =>
      rw [hf] at hs
      cases hs
      exact h
  | some f =>
      rw [hf] at hs
      refine foldlM_induction h (fun t c t' hc ht hstep => ht.repairCall ?_ hstep) hs
      obtain ⟨i, hi, hcast⟩ := List.mem_filterMap.1 hc
      exact h.traced (Module.mem_castKeys_iff.2
        ⟨f, List.mem_of_getElem? hf, i, hi, Module.castKey?_of_castCall? hcast⟩)

/-- After a sweep every copy is for a key that the module asks for. -/
theorem sweep (hs : Repair.sweep mode m = .ok s) : s.Confined m :=
  foldlM_induction (.start m) (fun _ _ _ _ h hstep => h.sweepAt hstep) hs

/-- There are no more copies than keys. -/
theorem length_copies_le (h : s.Confined m) : s.copies.length ≤ m.castKeys.eraseDups.length := by
  have hsub : s.copies.map Prod.fst ⊆ m.castKeys.eraseDups :=
    fun key hkey => List.mem_eraseDups.2 (h.asked hkey)
  have hle := (h.keys.subperm hsub).length_le
  rwa [List.length_map] at hle

/-- There are positions enough for all copies. -/
theorem length_functions_le (h : s.Confined m) :
    s.module.functions.length ≤ m.functions.length + m.castCallCount := by
  have hle := (h.keys.subperm h.asked).length_le
  rw [List.length_map, m.length_castKeys] at hle
  have := h.length
  omega

end Confined

/-- The new call asks for nothing, and the instructions around it ask for what they did. -/
theorem length_castKeys_of_redirected {f g : Func} {c : CastCall} {name : String} {old : Instr}
    {call : Call} {id : Nat}
    (hinsert : f.insertBefore mode c.id (redirected name c.sig old call) = .ok (id, g)) :
    (g.replaceUses c.id (.inst id)).castKeys.length = f.castKeys.length := by
  have hnew : Instr.castKey? { redirected name c.sig old call with id := id } = none := rfl
  have hkeys : (g.replaceUses c.id (.inst id)).castKeys = g.castKeys := by
    rw [Func.castKeys, Func.replaceUses, Operand.replace_eq_renumber, Func.instrs_mapInstrs,
      List.filterMap_map, Func.castKeys]
    exact List.filterMap_congr fun i _ => i.castKey?_renumber _
  rw [hkeys, Func.castKeys, ((Func.perm_insertBefore hinsert).filterMap _).length_eq,
    List.filterMap_cons_none hnew, Func.castKeys]

/-- A repair whose identifiers lie below a limit. -/
structure Roomy (calls limit : Nat) (s : Repair) : Prop where
  /-- Those of all functions. -/
  ids : ∀ f ∈ s.module.functions, f.IdsBelow limit
  /-- No function has more calls through casts than it may. -/
  calls : ∀ f ∈ s.module.functions, f.castKeys.length ≤ calls

namespace Roomy

variable {calls limit : Nat} {s s' : Repair}

theorem mono {limit' : Nat} (h : s.Roomy calls limit) (hle : limit ≤ limit') :
    s.Roomy calls limit' :=
  ⟨fun f hf => (h.ids f hf).mono hle, h.calls⟩

/-- A copy has the identifiers and the calls of its origin. -/
theorem copy? (h : s.Roomy calls limit) {c : CastCall} {name : String}
    (hs : s.copy? c = some (name, s')) : s'.Roomy calls limit := by
  rcases copy?_cases hs with ⟨_, rfl⟩ | ⟨g, _, hg, _, rfl⟩
  · exact h
  · obtain ⟨f, hf, _, rfl⟩ := Module.exists_of_copyFor? hg
    obtain ⟨hmem, _⟩ := Module.mem_of_func? hf
    refine ⟨fun b hb => ?_, fun b hb => ?_⟩
    · rcases List.mem_append.1 hb with hb | hb
      · exact h.ids b hb
      · rw [List.mem_singleton.1 hb]
        exact ⟨fun _ hnext => absurd hnext.symm (Option.some_ne_none _), (h.ids f hmem).ids⟩
    · rcases List.mem_append.1 hb with hb | hb
      · exact h.calls b hb
      · rw [List.mem_singleton.1 hb]
        exact h.calls f hmem

/-- Redirecting a call takes one identifier. The new call is a direct one. -/
theorem retarget (h : s.Roomy calls limit) (hroom : limit + 1 < UInt32.size) (index : Nat)
    (c : CastCall) (name : String) :
    ∃ s', s.retarget .stops index c name = .ok s' ∧ s'.Roomy calls (limit + 1) := by
  obtain ⟨s', hs'⟩ := exists_retarget s c name fun f old new hf hold =>
    (h.ids f (List.mem_of_getElem? hf)).exists_insertBefore hroom hold new
  refine ⟨s', hs', ?_⟩
  rcases retarget_cases hs' with rfl | ⟨f, old, call, id, g, hf, _, _, hinsert, rfl⟩
  · exact h.mono (Nat.le_succ _)
  · have hmem := List.mem_of_getElem? hf
    refine ⟨fun b hb => ?_, fun b hb => ?_⟩
    · rcases List.mem_or_eq_of_mem_set hb with hb | rfl
      · exact (h.ids b hb).mono (Nat.le_succ _)
      · exact ((h.ids f hmem).insertBefore hinsert).replaceUses _ _
    · rcases List.mem_or_eq_of_mem_set hb with hb | rfl
      · exact h.calls b hb
      · rw [length_castKeys_of_redirected hinsert]
        exact h.calls f hmem

/-- One call needs room for one more identifier. -/
theorem repairCall (h : s.Roomy calls limit) (hroom : limit + 1 < UInt32.size) (index : Nat)
    (c : CastCall) : ∃ s', s.repairCall .stops index c = .ok s' ∧ s'.Roomy calls (limit + 1) := by
  unfold Repair.repairCall
  cases hcopy : s.copy? c with
  | none => exact ⟨_, rfl, (h.mono (Nat.le_succ _)).ids, h.calls⟩
  | some made => exact (h.copy? hcopy).retarget hroom index c made.1

/-- A turn takes no more identifiers than a function may have calls. -/
theorem sweepAt (h : s.Roomy calls limit) (hroom : limit + calls < UInt32.size) (index : Nat) :
    ∃ s', s.sweepAt .stops index = .ok s' ∧ s'.Roomy calls (limit + calls) := by
  unfold Repair.sweepAt
  cases hf : s.module.functions[index]? with
  | none => exact ⟨s, rfl, h.mono (Nat.le_add_right _ _)⟩
  | some f =>
      have hle : (s.module.castCalls f).length * 1 ≤ calls := by
        rw [Nat.mul_one]
        exact (s.module.length_castCalls_le f).trans (h.calls f (List.mem_of_getElem? hf))
      obtain ⟨s', hs', hend⟩ := exists_foldlM_spend (motive := Roomy calls)
        (fun _ _ c ht hnext => ht.repairCall hnext index c) (s.module.castCalls f) h
        (Nat.lt_of_le_of_lt (Nat.add_le_add_left hle limit) hroom)
      exact ⟨s', hs', hend.mono (Nat.add_le_add_left hle limit)⟩

/-- A sweep takes no more than all its turns may. -/
theorem sweep {m : Module} (h : m.HasRoom) : ∃ s, Repair.sweep .stops m = .ok s := by
  obtain ⟨limit, hids, hroom⟩ := h
  have hstart : (start m).Roomy m.castCallCount limit := ⟨hids, fun f => m.length_castKeys_le⟩
  obtain ⟨s, hs, _⟩ := exists_foldlM_spend (motive := Roomy m.castCallCount)
    (fun _ _ index ht hnext => ht.sweepAt hnext index) (positions m) hstart (by
      rw [positions, List.length_range]
      exact hroom)
  exact ⟨s, hs⟩

end Roomy

end Repair

end Postlink

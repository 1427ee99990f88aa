import Postlink.Proofs.CastRepair.Redirection
import Mathlib.Data.List.Forall2

/-!
# The copies that cast repair makes

Calls that name the same function through a cast and expect the same signature share a copy. It is
made when the first of them asks for it, of the function as it is at that point: with direct calls
in front of those of its calls that came before (`Snapshot`).
-/

namespace Postlink

/-- What calls that share a copy agree on. -/
def CastCall.key (c : CastCall) : String × Signature := (c.target, c.sig)

/-- The copy of a function of which some calls were redirected. -/
def Func.copyWith (rs : List Rewrite) (name : String) (sig : Signature) (f : Func) : Func :=
  { Func.define name sig (f.rewriteBy rs).blocks with
    conv := f.conv, linkage := f.linkage, attributes := f.attributes, params := f.params }

namespace Module

variable {m : Module}

/-- The instruction as a call that is redirected. -/
def repairable? (m : Module) (i : Instr) : Option CastCall :=
  (m.castCall? i).filter fun c => (m.copyFor? c).isSome

/-- The calls among some instructions of a function that are redirected. -/
def repairsIn (m : Module) (caller : String) (is : List Instr) : List (String × CastCall) :=
  (is.filterMap m.repairable?).map fun c => (caller, c)

/-- The calls of a function that are redirected, each with the function that it is in. -/
def repairsOf (m : Module) (f : Func) : List (String × CastCall) := m.repairsIn f.name f.instrs

/-- A call through a cast and the copy that it goes to. -/
def Goes (m : Module) (copies : List ((String × Signature) × String)) (i : Instr) (name : String) :
    Prop :=
  ∃ c, m.castCall? i = some c ∧ copies.lookup c.key = some name

/-- The calls before the first that asks for a copy. -/
def beforeKey (key : String × Signature) (calls : List (String × CastCall)) :
    List (String × CastCall) :=
  calls.takeWhile fun e => e.2.key ≠ key

/-- A repairable call goes through casts of a function that can be copied for it. -/
theorem repairable?_eq_some_iff {i : Instr} {c : CastCall} : m.repairable? i = some c ↔
    m.castCall? i = some c ∧ (m.copyFor? c).isSome = true := by
  rw [repairable?, Option.filter_eq_some_iff]

/-- Whether a call can be repaired does not depend on identifiers. -/
@[simp] theorem repairable?_renumber (ρ : Nat → Nat) (i : Instr) :
    m.repairable? (i.renumber ρ) = m.repairable? i := by
  rw [repairable?, castCall?_renumber, repairable?]

/-- What is not a call through casts is not repaired. -/
theorem repairable?_eq_none {i : Instr} (h : i.castTarget? = none) : m.repairable? i = none := by
  rw [repairable?, castCall?_eq_none h]
  rfl

/-- What is recorded of a repairable call has its identifier. -/
theorem id_of_repairable? {i : Instr} {c : CastCall} (h : m.repairable? i = some c) :
    c.id = i.id := by
  obtain ⟨_, _, _, _, hid, _⟩ := castCall?_eq_some_iff.1 (repairable?_eq_some_iff.1 h).1
  exact hid

/-- A function can be copied for a call if it takes as many arguments as the call expects. -/
theorem isSome_copyFor?_iff {c : CastCall} {f : Func} (hf : m.func? c.target = some f) :
    (m.copyFor? c).isSome = true ↔ f.sig.arity = c.sig.arity := by
  rw [copyFor?, hf]
  by_cases harity : f.sig.arity = c.sig.arity
  · simp [harity]
  · simp [harity]

/-- One more instruction asks for at most one more repair. -/
theorem repairsIn_concat (m : Module) (caller : String) (is : List Instr) (x : Instr) :
    m.repairsIn caller (is ++ [x]) =
      m.repairsIn caller is ++ (m.repairable? x).toList.map fun c => (caller, c) := by
  rw [repairsIn, List.filterMap_append, List.map_append]
  cases h : m.repairable? x <;> simp [repairsIn, h]

/-- The repairs in a body are those of its repairable calls, with the caller's name. -/
theorem mem_repairsIn_iff {caller : String} {is : List Instr} {e : String × CastCall} :
    e ∈ m.repairsIn caller is ↔ e.1 = caller ∧ ∃ x ∈ is, m.repairable? x = some e.2 := by
  rw [repairsIn, List.mem_map]
  constructor
  · rintro ⟨c, hc, rfl⟩
    exact ⟨rfl, List.mem_filterMap.1 hc⟩
  · rintro ⟨rfl, hx⟩
    exact ⟨e.2, List.mem_filterMap.2 hx, rfl⟩

/-- Whether a copy can be had depends on the key. -/
theorem isSome_copyFor?_congr {c c' : CastCall} (h : c.key = c'.key) :
    (m.copyFor? c).isSome = (m.copyFor? c').isSome := by
  rw [CastCall.key, CastCall.key, Prod.mk.injEq] at h
  unfold copyFor?
  rw [h.1, h.2]

/-- The calls before the first one with a key, one call at a time. -/
theorem beforeKey_cons (key : String × Signature) (e : String × CastCall)
    (calls : List (String × CastCall)) :
    beforeKey key (e :: calls) = if e.2.key = key then [] else e :: beforeKey key calls := by
  rw [beforeKey, List.takeWhile_cons]
  by_cases hkey : e.2.key = key
  · simp [hkey]
  · simp [hkey, beforeKey]

/-- Later calls do not matter once there is one with the key. -/
theorem beforeKey_append {key : String × Signature} {calls : List (String × CastCall)}
    (h : ∃ e ∈ calls, e.2.key = key) (later : List (String × CastCall)) :
    beforeKey key (calls ++ later) = beforeKey key calls := by
  induction calls with
  | nil =>
      obtain ⟨e, he, _⟩ := h
      cases he
  | cons e calls ih =>
      rw [List.cons_append, beforeKey_cons, beforeKey_cons]
      by_cases hkey : e.2.key = key
      · rw [if_pos hkey, if_pos hkey]
      · have hlater : ∃ e ∈ calls, e.2.key = key := by
          obtain ⟨e', he', hkey'⟩ := h
          rcases List.mem_cons.1 he' with rfl | he'
          · exact absurd hkey' hkey
          · exact ⟨e', he', hkey'⟩
        rw [if_neg hkey, if_neg hkey, ih hlater]

/-- All calls come before the last one if none of them has its key. -/
theorem beforeKey_concat {calls : List (String × CastCall)} {e : String × CastCall}
    (h : ∀ e' ∈ calls, e'.2.key ≠ e.2.key) : beforeKey e.2.key (calls ++ [e]) = calls := by
  induction calls with
  | nil => rw [List.nil_append, beforeKey_cons, if_pos rfl]
  | cons e' calls ih =>
      rw [List.cons_append, beforeKey_cons, if_neg (h e' (List.mem_cons_self ..)),
        ih fun d hd => h d (List.mem_cons_of_mem _ hd)]

end Module

section Keys

variable {copies : List ((String × Signature) × String)} {key : String × Signature}

/-- A key is found among the copies if it is one of their keys. -/
theorem isSome_lookup_iff : (copies.lookup key).isSome = true ↔ key ∈ copies.map Prod.fst := by
  induction copies with
  | nil => simp
  | cons entry copies ih =>
      rw [List.lookup_cons, List.map_cons, List.mem_cons, ← ih]
      by_cases hkey : key = entry.1
      · simp [hkey]
      · rw [beq_false_of_ne hkey]
        simp [hkey]

/-- A call keeps the copy that it goes to. -/
theorem Module.Goes.append {m : Module} {i : Instr} {name : String} (h : m.Goes copies i name)
    (later : List ((String × Signature) × String)) : m.Goes (copies ++ later) i name := by
  obtain ⟨c, hc, hname⟩ := h
  refine ⟨c, hc, ?_⟩
  rw [List.lookup_append, hname]
  rfl

end Keys

namespace Repair

/-- A recorded copy: when a call was the first to ask for it, those calls of its origin had been
redirected that came before. -/
structure Snapshot (m : Module) (copies : List ((String × Signature) × String))
    (asked : List (String × CastCall)) (entry : (String × Signature) × String) (g f : Func)
    (rs : List Rewrite) : Prop where
  /-- The origin is a function of the module. -/
  mem : f ∈ m.functions
  /-- It is what the key names. -/
  name : f.name = entry.1.1
  /-- Calls of it were redirected. -/
  redirected : f.Redirected (m.Goes copies) rs
  /-- The copy is made of that. -/
  copy : g = f.copyWith rs entry.2 entry.1.2
  /-- A call has asked for it. -/
  wanted : ∃ e ∈ asked, e.2.key = entry.1
  /-- The redirected calls are those that came before. -/
  olds : rs.map Rewrite.old =
    ((Module.beforeKey entry.1 asked).filter fun e => e.1 = f.name).map fun e => e.2.id

/-- The copies that some calls have asked for. -/
structure Copying (m : Module) (asked : List (String × CastCall))
    (copies : List ((String × Signature) × String)) (clones : List Func) : Prop where
  /-- Each copy is recorded. -/
  snapshots : List.Forall₂ (fun entry g => ∃ f rs, Snapshot m copies asked entry g f rs)
    copies clones
  /-- Each call that asked has got one. -/
  served : ∀ e ∈ asked, (copies.lookup e.2.key).isSome = true
  /-- Calls ask only where a copy can be had. -/
  able : ∀ e ∈ asked, (m.copyFor? e.2).isSome = true
  /-- No copy is made twice. -/
  keys : (copies.map Prod.fst).Nodup

namespace Snapshot

variable {m : Module} {copies copies' : List ((String × Signature) × String)}
  {asked asked' : List (String × CastCall)} {entry : (String × Signature) × String} {g f : Func}
  {rs : List Rewrite}

/-- The instructions of a copy are images of those of its original. -/
theorem instrs_eq (h : Snapshot m copies asked entry g f rs) :
    g.instrs = f.instrs.flatMap (Rewrite.image rs) := by
  rw [h.copy, ← Func.instrs_rewriteBy]
  rfl

/-- What a copy calls through casts, its origin calls. -/
theorem traced (h : Snapshot m copies asked entry g f rs) {x : Instr} (hx : x ∈ g.instrs) :
    x.castTarget? = none ∨ ∃ i ∈ f.instrs, ∃ ρ : Nat → Nat, x = i.renumber ρ := by
  rw [h.instrs_eq, ← Func.instrs_rewriteBy] at hx
  obtain ⟨i, hi, rfl | ⟨name, _, rfl⟩⟩ := h.redirected.mem_rewriteBy hx
  · exact Or.inr ⟨i, hi, _, rfl⟩
  · exact Or.inl (i.castTarget?_directed name _)

/-- A copy starts with its own counter. -/
theorem numbered (h : Snapshot m copies asked entry g f rs) : g.Numbered := by
  have hinstrs : g.instrs = (f.rewriteBy rs).instrs := by rw [h.copy]; rfl
  refine ⟨hinstrs ▸ h.redirected.numbered.distinct, ?_⟩
  intro i hi
  have hnext : g.nextId = none := by rw [h.copy]; rfl
  rw [Func.upcomingId, hnext, Option.getD_none]
  exact Instr.lt_idBound hi

/-- A snapshot remains one while more copies are made and more calls are met. -/
theorem mono (h : Snapshot m copies asked entry g f rs)
    (hgoes : ∀ i ∈ f.instrs, ∀ name, m.Goes copies i name → m.Goes copies' i name)
    (later : List (String × CastCall)) : Snapshot m copies' (asked ++ later) entry g f rs := by
  refine ⟨h.mem, h.name, h.redirected.mono hgoes, h.copy, ?_, ?_⟩
  · obtain ⟨e, he, hkey⟩ := h.wanted
    exact ⟨e, List.mem_append_left _ he, hkey⟩
  · rw [Module.beforeKey_append h.wanted]
    exact h.olds

end Snapshot

namespace Copying

variable {m : Module} {asked : List (String × CastCall)}
  {copies : List ((String × Signature) × String)} {clones : List Func}

/-- Every copy is a snapshot of a function. -/
theorem exists_snapshot (h : Copying m asked copies clones) {g : Func} (hg : g ∈ clones) :
    ∃ entry ∈ copies, ∃ f rs, Snapshot m copies asked entry g f rs := by
  obtain ⟨k, hk, rfl⟩ := List.getElem_of_mem hg
  have hlength := h.snapshots.length_eq
  exact ⟨copies[k], List.getElem_mem _, h.snapshots.get (by omega) hk⟩

/-- For every recorded copy there is a function that is a snapshot. -/
theorem exists_snapshot_of_mem (h : Copying m asked copies clones)
    {entry : (String × Signature) × String} (hentry : entry ∈ copies) :
    ∃ g ∈ clones, ∃ f rs, Snapshot m copies asked entry g f rs := by
  obtain ⟨k, hk, rfl⟩ := List.getElem_of_mem hentry
  have hlength := h.snapshots.length_eq
  exact ⟨clones[k], List.getElem_mem _, h.snapshots.get hk (by omega)⟩

/-- A call asks for a copy that is there. -/
theorem again (h : Copying m asked copies clones) {e : String × CastCall}
    (hable : (m.copyFor? e.2).isSome = true) (hserved : (copies.lookup e.2.key).isSome = true) :
    Copying m (asked ++ [e]) copies clones := by
  refine ⟨h.snapshots.imp ?_, ?_, ?_, h.keys⟩
  · rintro entry g ⟨f, rs, hsnapshot⟩
    exact ⟨f, rs, hsnapshot.mono (fun _ _ _ hgoes => hgoes) [e]⟩
  · exact List.forall_mem_append.2 ⟨h.served, List.forall_mem_singleton.2 hserved⟩
  · exact List.forall_mem_append.2 ⟨h.able, List.forall_mem_singleton.2 hable⟩

/-- A call is the first to ask for a copy. -/
theorem anew (h : Copying m asked copies clones) {e : String × CastCall}
    (hable : (m.copyFor? e.2).isSome = true) (hnone : copies.lookup e.2.key = none) {f : Func}
    (hf : f ∈ m.functions) (hname : f.name = e.2.target) {rs : List Rewrite}
    (hredirected : f.Redirected (m.Goes copies) rs)
    (holds : rs.map Rewrite.old = (asked.filter fun e => e.1 = f.name).map fun e => e.2.id)
    (name : String) : Copying m (asked ++ [e]) (copies ++ [(e.2.key, name)])
      (clones ++ [f.copyWith rs name e.2.sig]) := by
  have hkey : e.2.key ∉ copies.map Prod.fst := by
    rw [← isSome_lookup_iff, hnone]
    exact Bool.false_ne_true
  have hfresh : ∀ e' ∈ asked, e'.2.key ≠ e.2.key := by
    intro e' he' hsame
    have hserved := h.served e' he'
    rw [hsame, hnone] at hserved
    cases hserved
  have hgoes : ∀ i name', m.Goes copies i name' → m.Goes (copies ++ [(e.2.key, name)]) i name' :=
    fun _ _ hgoes => hgoes.append _
  refine ⟨?_, ?_, ?_, ?_⟩
  · refine List.rel_append (h.snapshots.imp ?_) (.cons ?_ .nil)
    · rintro entry g ⟨f', rs', hsnapshot⟩
      exact ⟨f', rs', hsnapshot.mono (fun i _ => hgoes i) [e]⟩
    · refine ⟨f, rs, hf, hname, hredirected.mono fun i _ => hgoes i, rfl, ⟨e, by simp, rfl⟩, ?_⟩
      rw [Module.beforeKey_concat hfresh]
      exact holds
  · intro e' he'
    rw [isSome_lookup_iff, List.map_append, List.mem_append]
    rcases List.mem_append.1 he' with he' | he'
    · exact Or.inl (isSome_lookup_iff.1 (h.served e' he'))
    · rw [List.mem_singleton.1 he']
      exact Or.inr (List.mem_singleton_self _)
  · exact List.forall_mem_append.2 ⟨h.able, List.forall_mem_singleton.2 hable⟩
  · rw [List.map_append, List.nodup_append]
    refine ⟨h.keys, List.nodup_singleton _, ?_⟩
    intro a ha b hb hab
    rw [hab, List.mem_singleton.1 hb] at ha
    exact hkey ha

end Copying

end Repair

end Postlink

import Postlink.Proofs.Archive.RoundTrip
import Postlink.Proofs.Importing.EarlyBodies

/-!
# Loading bodies from an archive in any order

Whatever bytes an archive is read from, the bodies that it leaves stored lie inside one body section
(`Archive.Within`), so they can be cut out without looking at the bounds again. Loading a body by
name decodes it or fails, and touches no other function. Attempts therefore commute, and repeating
one makes no difference: after any number of them the module has the bodies decoded that were named
and can be (`Module.DistinctNames.attempts_eq`), whatever their order
(`Archive.loadsSafely_attempts`).
-/

namespace Postlink

open Json

/-- Where a stretch of bytes ends, computed with 64 bits. -/
def Span.stop (s : Span) : UInt64 := s.offset.toUInt64 + s.length.toUInt64

/-- A sum that stays below the bound does not wrap around. -/
theorem Span.toNat_stop {s : Span} (h : s.offset + s.length < longBound) :
    s.stop.toNat = s.offset + s.length := by
  rw [longBound] at h
  simp only [stop, Nat.toUInt64, UInt64.toNat_add, UInt64.toNat_ofNat']
  omega

namespace Func

/-- A body that stays stored was not changed. -/
theorem opened_of_isStored {f : Func} (h : f.opened.isStored = true) : f.opened = f := by
  cases hload : f.load with
  | error e => exact opened_of_error hload
  | ok g =>
      rw [opened_of_load hload, isStored_load hload] at h
      cases h

end Func

namespace Module

/-- Load the function with a name, or leave the module as it is if that fails. -/
def attempt (m : Module) (name : String) : Module := (m.load name).toOption.getD m

/-- Attempts one after the other. -/
def attempts (names : List String) (m : Module) : Module := names.foldl attempt m

variable {m : Module}

/-- With distinct names, loading by name puts the decoded function in its place. -/
theorem DistinctNames.load_eq (h : m.DistinctNames) {f : Func} (hf : f ∈ m.functions) :
    m.load f.name =
      f.load.map fun g => m.mapFuncs fun f' => if f'.name = f.name then g else f' := by
  rw [load, h.func?_eq hf]
  simp only [h.modifyFunc_eq]

/-- An attempt decodes the body that is named, if there is one, and nothing else. -/
theorem DistinctNames.attempt_eq (h : m.DistinctNames) (name : String) :
    m.attempt name = m.openSome fun n => n = name := by
  cases hf : m.func? name with
  | none =>
      have hother : ∀ f ∈ m.functions, (if decide (f.name = name) then f.opened else f) = f := by
        intro f hmem
        rw [decide_eq_false (func?_eq_none_iff.1 hf f hmem)]
        rfl
      rw [Module.openSome, mapFuncs_eq_self hother, attempt, load, hf]
      rfl
  | some f =>
      obtain ⟨hmem, rfl⟩ := mem_of_func? hf
      have hone : ∀ g ∈ m.functions, g.name = f.name → g = f := fun g hg hname =>
        List.inj_on_of_nodup_map h hg hmem hname
      rw [attempt, h.load_eq hmem, Module.openSome]
      cases hload : f.load with
      | error e =>
          refine (mapFuncs_eq_self fun g hg => ?_).symm
          by_cases hname : g.name = f.name
          · rw [hone g hg hname, Func.opened_of_error hload, ite_self]
          · rw [decide_eq_false hname]
            rfl
      | ok g =>
          refine mapFuncs_congr fun g' hg' => ?_
          by_cases hname : g'.name = f.name
          · rw [hone g' hg' hname, Func.opened_of_load hload, if_pos rfl, decide_eq_true rfl]
            rfl
          · rw [decide_eq_false hname, if_neg hname]
            rfl

/-- Decoding some bodies and then others is decoding both. -/
theorem openSome_openSome (early late : String → Bool) (m : Module) :
    (m.openSome early).openSome late = m.openSome fun n => early n || late n := by
  rw [openSome, openSome, openSome, mapFuncs, functions_mapFuncs, List.map_map]
  refine congrArg (Module.mk m.name m.globals) (List.map_congr_left fun f _ => ?_)
  rw [Function.comp_apply]
  cases hearly : early f.name with
  | true => cases hlate : late f.name <;> simp [hlate]
  | false => simp

/-- After any attempts, the bodies that were named are decoded, if they can be. -/
theorem DistinctNames.attempts_eq (h : m.DistinctNames) (names : List String) :
    m.attempts names = m.openSome fun n => decide (n ∈ names) := by
  induction names generalizing m with
  | nil =>
      rw [Module.openSome, mapFuncs_eq_self fun f _ => by simp]
      rfl
  | cons name names ih =>
      rw [attempts, List.foldl_cons, h.attempt_eq, ← attempts, ih (h.openSome _), openSome_openSome]
      congr 1
      funext n
      simp

end Module

namespace Archive

/-- The body of a function, if it is stored, lies in a body section. -/
def Within (bodies : List UInt8) (f : Func) : Prop :=
  ∀ s, f.body = .stored s → s.bytes = bodies ∧ s.span.offset + s.span.length ≤ bodies.length

/-- The body section of an archive: what lies behind the header, which is as long as it says. -/
def bodiesOf (bytes : List UInt8) : List UInt8 :=
  (bytes.drop 12).drop (wordValue ((bytes.drop 8).take 4))

/-- The section of bodies is a part of the archive. -/
theorem length_bodiesOf_le (bytes : List UInt8) : (bodiesOf bytes).length ≤ bytes.length := by
  rw [bodiesOf, List.length_drop, List.length_drop]
  omega

/-- What an archive gives is taken from a header and the body section behind it. -/
theorem exists_unpack_of_read {bytes : List UInt8} {m : Module} (h : read bytes = .ok m) :
    ∃ header, unpack header (bodiesOf bytes) = .ok m := by
  simp only [read] at h
  split_ifs at h
  exact ⟨_, h⟩

/-- An entry comes without a body. -/
theorem Entry.body_of_decode? {d : Nat} {j : Json} {e : Entry} (h : Entry.decode? d j = some e) :
    e.func.body = .declared := by
  unfold Entry.decode? at h
  split at h
  · simp only [Option.bind_eq_bind, Option.bind_eq_some_iff, Option.pure_def,
      Option.some.injEq] at h
    obtain ⟨fs, _, f, hf, span, _, rfl⟩ := h
    exact (Func.of_decodeWith? hf).1
  · cases h

/-- A header read from a text has no bodies in it, only where they lie. -/
theorem Header.body_of_read? {s : List UInt8} {header : Header} (h : Header.read? s = some header)
    {e : Entry} (he : e ∈ header.entries) : e.func.body = .declared := by
  obtain ⟨j, _, hj⟩ := Option.bind_eq_some_iff.1 h
  unfold Header.decode? at hj
  split at hj
  · simp only [Option.bind_eq_bind, Option.bind_eq_some_iff, Option.pure_def,
      Option.some.injEq] at hj
    obtain ⟨fs, _, name, _, globals, _, entries, hentries, rfl⟩ := hj
    obtain ⟨_, hlist⟩ := Fields.exists_of_required? hentries
    obtain ⟨_, _, _, hentry⟩ := exists_of_mem_list? hlist he
    exact Entry.body_of_decode? hentry
  · cases hj

/-- An entry is restored only if its body lies in the section. -/
theorem within_of_restore {bodies : List UInt8} {e : Entry} (hdeclared : e.func.body = .declared)
    {f : Func} (h : restore bodies e = .ok f) : Within bodies f := by
  intro s hs
  rw [restore] at h
  cases hspan : e.body with
  | none =>
      simp only [hspan, Except.ok.injEq] at h
      rw [← h, hdeclared] at hs
      cases hs
  | some span =>
      simp only [hspan] at h
      by_cases hrange : bodies.length < span.offset + span.length
      · rw [if_pos hrange] at h
        cases h
      · rw [if_neg hrange, Except.ok.injEq] at h
        rw [← h] at hs
        cases hs
        exact ⟨rfl, Nat.not_lt.1 hrange⟩

/-- So it is for all entries, by induction on those that are restored after one. -/
theorem within_of_restoreAll {bodies : List UInt8} {es : List Entry}
    (hdeclared : ∀ e ∈ es, e.func.body = .declared) {fs : List Func}
    (h : restoreAll bodies es = .ok fs) : ∀ f ∈ fs, Within bodies f := by
  induction es generalizing fs with
  | nil =>
      cases h
      exact fun f hf => nomatch hf
  | cons e es ih =>
      rw [restoreAll] at h
      cases hf : restore bodies e with
      | error err => rw [hf] at h; cases h
      | ok f =>
          cases hrest : restoreAll bodies es with
          | error err => rw [hf, hrest] at h; cases h
          | ok gs =>
              rw [hf, hrest] at h
              cases h
              refine List.forall_mem_cons.2
                ⟨within_of_restore (hdeclared e (List.mem_cons_self ..)) hf, ?_⟩
              exact ih (fun e' he' => hdeclared e' (List.mem_cons_of_mem _ he')) hrest

/-- Bodies that are stored after reading all lie in the body section. -/
theorem within_of_read {bytes : List UInt8} {m : Module} (h : read bytes = .ok m) :
    ∀ f ∈ m.functions, Within (bodiesOf bytes) f := by
  obtain ⟨header, hunpack⟩ := exists_unpack_of_read h
  rw [unpack] at hunpack
  cases hheader : Header.read? header with
  | none => rw [hheader] at hunpack; cases hunpack
  | some table =>
      rw [hheader] at hunpack
      cases hall : restoreAll (bodiesOf bytes) table.entries with
      | error err => simp only [hall] at hunpack; cases hunpack
      | ok fs =>
          simp only [hall] at hunpack
          cases hunpack
          exact within_of_restoreAll (fun e he => Header.body_of_read? hheader he) hall

/-- Decoding a body leaves nothing that lies outside the section of bodies. -/
theorem Within.opened {bodies : List UInt8} {f : Func} (h : Within bodies f) :
    Within bodies f.opened := by
  intro s hs
  have hstored : f.opened.isStored = true := by
    rw [Func.isStored, hs]
    rfl
  rw [Func.opened_of_isStored hstored] at hs
  exact h s hs

/-- A body that lies within the section is as long as its span says. -/
theorem Within.length_slice {bodies : List UInt8} {f : Func} (h : Within bodies f) {s : StoredBody}
    (hs : f.body = .stored s) : s.slice.length = s.span.length := by
  obtain ⟨hbytes, hrange⟩ := h s hs
  rw [StoredBody.slice, List.length_take, List.length_drop, hbytes]
  omega

/-- What holds of a module from an archive, whichever of its bodies were loaded since. -/
structure LoadsSafely (bytes : List UInt8) (m : Module) : Prop where
  /-- The bodies that are stored lie in the body section. -/
  within : ∀ f ∈ m.functions, Within (bodiesOf bytes) f
  /-- Cutting one out gives all the bytes that it should have. -/
  slice : ∀ f ∈ m.functions, ∀ s, f.body = .stored s → s.slice.length = s.span.length
  /-- Where one ends does not wrap around, if the bytes fit into memory. -/
  stop : bytes.length < longBound → ∀ f ∈ m.functions, ∀ s, f.body = .stored s →
    s.span.stop.toNat = s.span.offset + s.span.length
  /-- A body that can be read is loaded. -/
  loaded : ∀ f ∈ m.functions, ∀ s bs, f.body = .stored s → Blocks.read? s.slice = some bs →
    m.load f.name = .ok (m.mapFuncs fun g =>
      if g.name = f.name then { f with body := .loaded bs, nextId := none } else g)
  /-- One that cannot be read is reported under its name, and the module stays as it is. -/
  refused : ∀ f ∈ m.functions, ∀ s, f.body = .stored s → Blocks.read? s.slice = none →
    m.load f.name = .error (.unreadableBody f.name) ∧ m.attempt f.name = m
  /-- An attempt changes no function but the one that is named. -/
  alone : ∀ name, m.attempt name = m.mapFuncs fun f => if f.name = name then f.opened else f

/-- Bodies in the body section are safe to load. -/
theorem LoadsSafely.of_within {bytes : List UInt8} {m : Module} (hnames : m.DistinctNames)
    (h : ∀ f ∈ m.functions, Within (bodiesOf bytes) f) : LoadsSafely bytes m where
  within := h
  slice f hf s hs := (h f hf).length_slice hs
  stop hbytes f hf s hs := by
    obtain ⟨_, hrange⟩ := h f hf s hs
    exact Span.toNat_stop (Nat.lt_of_le_of_lt (hrange.trans (length_bodiesOf_le bytes)) hbytes)
  loaded f hf s bs hs hread := by
    have hload : f.load = .ok { f with body := .loaded bs, nextId := none } := by
      simp only [Func.load, hs, hread]
    rw [hnames.load_eq hf, hload]
    rfl
  refused f hf s hs hread := by
    have hload : f.load = .error (.unreadableBody f.name) := by
      simp only [Func.load, hs, hread]
    rw [Module.attempt, hnames.load_eq hf, hload]
    exact ⟨rfl, rfl⟩
  alone name := by
    rw [hnames.attempt_eq, Module.openSome]
    simp only [decide_eq_true_eq]

/-- A module whose archive was read is safe to load from after any attempts, and what they lead to
depends on the names that were tried only, not on their order or number. -/
theorem loadsSafely_attempts {bytes : List UInt8} {m : Module} (h : read bytes = .ok m)
    (hnames : m.DistinctNames) :
    (∀ names, LoadsSafely bytes (m.attempts names)) ∧
      ∀ names names', (∀ name, name ∈ names ↔ name ∈ names') →
        m.attempts names = m.attempts names' := by
  refine ⟨fun names => ?_, fun names names' hsame => ?_⟩
  · rw [hnames.attempts_eq]
    refine .of_within (hnames.openSome _) fun g hg => ?_
    obtain ⟨f, hf, rfl⟩ := List.mem_map.1 hg
    split
    · exact (within_of_read h f hf).opened
    · exact within_of_read h f hf
  · rw [hnames.attempts_eq, hnames.attempts_eq]
    simp only [hsame]

/-- An archive whose bodies overlap: an empty body twice, and bytes that start inside it and are no
body. -/
def overlapping : List UInt8 :=
  let sig : Signature := ⟨.void, []⟩
  assemble (utf8 (Header.encode ⟨"m", [], [⟨.declare "first" sig, some ⟨0, 2⟩⟩,
    ⟨.declare "between" sig, some ⟨1, 2⟩⟩, ⟨.declare "again" sig, some ⟨0, 2⟩⟩,
    ⟨.declare "absent" sig, none⟩]⟩).compact) (utf8 "[]x")

/-- One of the bodies that overlap stays stored, in whatever order they are tried. -/
theorem loadsSafely_attempts_overlapping :
    ∃ m, read overlapping = .ok m ∧ m.DistinctNames ∧
      m.functions.map Func.isStored = [true, true, true, false] ∧
      (m.attempts ["between", "first", "between"]).functions.map Func.isStored =
        [false, true, true, false] ∧
      LoadsSafely overlapping (m.attempts ["between", "first", "between"]) ∧
      m.attempts ["between", "first", "between"] = m.attempts ["first", "between"] := by
  have hrun : (read overlapping).toOption.any (fun m => m.DistinctNames ∧
      m.functions.map Func.isStored = [true, true, true, false] ∧
      (m.attempts ["between", "first", "between"]).functions.map Func.isStored =
        [false, true, true, false]) = true := by decide +kernel
  cases h : read overlapping with
  | error err => rw [h] at hrun; cases hrun
  | ok m =>
      rw [h] at hrun
      obtain ⟨hnames, hbefore, hafter⟩ := of_decide_eq_true hrun
      obtain ⟨hsafe, horder⟩ := loadsSafely_attempts h hnames
      exact ⟨m, rfl, hnames, hbefore, hafter, hsafe _, horder _ _ (by simp)⟩

end Archive

end Postlink

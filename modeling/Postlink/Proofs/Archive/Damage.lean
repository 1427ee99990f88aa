import Postlink.Proofs.Archive.RoundTrip

/-!
# Archives of the wrong length

The bodies of an archive lie one behind the other without a gap up to the last byte, so an archive
that is cut short always loses the end of a body, or of what comes before the bodies. Reading it
fails, and says which body is the first to be incomplete. Bytes behind an archive belong to no body
and change nothing (`Module.exists_archive_of_length`).
-/

namespace Postlink

open Json

namespace Archive

/-- What is cut off behind the header is cut off the body section. -/
theorem take_assemble {header : List UInt8} (bodies : List UInt8) {n : Nat}
    (h : 12 + header.length ≤ n) :
    (assemble header bodies).take n = assemble header (bodies.take (n - (12 + header.length))) := by
  have hfront : (mark ++ word version ++ word header.length ++ header).length =
      12 + header.length := by
    simp only [List.length_append, mark, word, List.length_cons, List.length_nil]
  rw [assemble, assemble, List.take_append, hfront, List.take_of_length_le (by omega)]

/-- An archive that ends before its header does is cut short. -/
theorem read_take_assemble_of_lt {header : List UInt8} (h : header.length < wordBound)
    (bodies : List UInt8) {n : Nat} (hn : n < 12 + header.length) :
    read ((assemble header bodies).take n) = .error .truncated := by
  have hlength : ((assemble header bodies).take n).length = n := by
    rw [List.length_take, length_assemble]
    omega
  -- A field that is not cut is what it was.
  have hfield : ∀ i, i + 4 ≤ n → (((assemble header bodies).take n).drop i).take 4 =
      ((assemble header bodies).drop i).take 4 := by
    intro i hi
    rw [List.drop_take, List.take_take, Nat.min_eq_left (by omega)]
  have hmark : 4 ≤ n → ((assemble header bodies).take n).take 4 = mark := by
    intro hle
    rw [List.take_take, Nat.min_eq_left hle, mark_assemble]
  have hrest : (((assemble header bodies).take n).drop 12).length = n - 12 := by
    rw [List.length_drop, hlength]
  rw [read, hlength]
  by_cases h4 : n < 4
  · rw [if_pos h4]
  rw [if_neg h4, hmark (by omega), if_neg (by simp)]
  by_cases h8 : n < 8
  · rw [if_pos h8]
  rw [if_neg h8, hfield 4 (by omega), version_assemble, if_neg (by simp)]
  by_cases h12 : n < 12
  · rw [if_pos h12]
  rw [if_neg h12, hrest, hfield 8 (by omega), headerLength_assemble h, if_pos (by omega)]

/-- What stands behind an archive is read as the end of its body section. -/
theorem assemble_append (header bodies back : List UInt8) :
    assemble header bodies ++ back = assemble header (bodies ++ back) := by
  simp only [assemble, List.append_assoc]

/-- Whether the body of an entry ends behind a place in the body section. -/
def Entry.endsAfter (n : Nat) (e : Entry) : Bool :=
  e.body.any fun span => n < span.offset + span.length

/-- A body that ends behind its section is out of range. -/
theorem restore_of_endsAfter {bodies : List UInt8} {e : Entry}
    (h : e.endsAfter bodies.length = true) :
    restore bodies e = .error (.bodyOutOfRange e.func.name) := by
  obtain ⟨func, _ | span⟩ := e
  · cases h
  · exact if_pos (of_decide_eq_true h)

theorem exists_restore {bodies : List UInt8} {e : Entry} (h : e.endsAfter bodies.length = false) :
    ∃ f, restore bodies e = .ok f := by
  obtain ⟨func, _ | span⟩ := e
  · exact ⟨_, rfl⟩
  · exact ⟨_, if_neg (of_decide_eq_false h)⟩

/-- The first body that ends behind its section is reported. -/
theorem restoreAll_of_find? {bodies : List UInt8} {es : List Entry} {e : Entry}
    (h : es.find? (Entry.endsAfter bodies.length) = some e) :
    restoreAll bodies es = .error (.bodyOutOfRange e.func.name) := by
  induction es with
  | nil => cases h
  | cons e' es ih =>
      rw [restoreAll]
      cases hends : e'.endsAfter bodies.length with
      | true =>
          rw [List.find?_cons_of_pos hends] at h
          cases h
          rw [restore_of_endsAfter hends]
      | false =>
          rw [List.find?_cons_of_neg (by rw [hends]; exact Bool.false_ne_true)] at h
          obtain ⟨f, hf⟩ := exists_restore hends
          rw [hf, ih h]
          rfl

/-- Bodies that lie one behind the other leave no gap: behind every place before their end there is
the end of one, by induction on the functions. -/
theorem exists_endsAfter {fs : List Func} {offset n : Nat} (hoffset : offset ≤ n)
    (hn : n < offset + (fs.flatMap bodyBytes).length) :
    ∃ e ∈ entriesFrom offset fs, e.endsAfter n = true := by
  induction fs generalizing offset with
  | nil => exact absurd hn (Nat.not_lt.2 hoffset)
  | cons f fs ih =>
      rw [List.flatMap_cons, List.length_append] at hn
      by_cases hinside : n < offset + (bodyBytes f).length
      · refine ⟨_, List.mem_cons_self .., ?_⟩
        have hdefined : ¬ f.isDeclared = true := by
          intro hdeclared
          have hempty : bodyBytes f = [] := by
            rw [bodyBytes]
            cases hbody : f.body with
            | loaded bs => rw [Func.isDeclared, hbody] at hdeclared; cases hdeclared
            | _ => rfl
          rw [hempty, List.length_nil] at hinside
          omega
        rw [Entry.endsAfter, spanAt, if_neg hdefined]
        exact decide_eq_true hinside
      · obtain ⟨e, he, hends⟩ := ih (Nat.not_lt.1 hinside) (by omega)
        exact ⟨e, List.mem_cons_of_mem _ he, hends⟩

/-- Functions that were restored load as the functions they stand for. -/
theorem map_load_restored {fs gs : List Func} (h : List.Forall₂ Restored fs gs) :
    gs.map Func.load = fs.map .ok := by
  induction h with
  | nil => rfl
  | cons hg _ ih => rw [List.map_cons, List.map_cons, hg.load, ih]

end Archive

namespace Module

open Archive

/-- Each entry of a module's symbol table says where its body lies, whatever stands behind the
bodies. -/
theorem holds_header (m : Module) (back : List UInt8) :
    List.Forall₂ (Holds (m.bodySection ++ back)) m.functions m.header.entries :=
  holds_entriesFrom [] m.functions back

/-- The symbol table that is read from the archive of a module. -/
theorem read?_header {s : List UInt8} {m : Module} (h : Module.read? s = some m)
    (hbodies : m.bodySection.length < longBound) :
    Header.read? m.headerText = some ⟨m.name, (m.mapFloats Binary64.reread).globals,
      m.header.entries.map Entry.bare⟩ := by
  refine read?_headerText_reread h hbodies ?_
  have hholds := m.holds_header []
  rwa [List.append_nil] at hholds

/-- An archive is read whatever stands behind it, and its bodies load as the bodies of the module
with their doubles as the texts of those are read. -/
theorem exists_read_append {s : List UInt8} {m : Module} (h : Module.read? s = some m)
    (hheader : m.headerText.length < wordBound) (hbodies : m.bodySection.length < longBound)
    (back : List UInt8) :
    ∃ lib, Archive.read (assemble m.headerText m.bodySection ++ back) = .ok lib ∧
      List.Forall₂ Restored (m.mapFloats Binary64.reread).functions lib.functions ∧
      lib.loadAll = (.ok (), m.mapFloats Binary64.reread) := by
  obtain ⟨j, _, hj⟩ := Option.bind_eq_some_iff.1 h
  obtain ⟨gs, hgs, hrestored⟩ := exists_restored (m.holds_header back) fun f hf e he =>
    he.restored_mapFloats (func_of_read? h hf).1 (isStored_of_decode? hj hf)
      (func_of_read? h hf).2.2
  have hall : List.Forall₂ Restored (m.functions.map (Func.mapFloats Binary64.reread)) gs :=
    List.forall₂_map_left_iff.2 hrestored
  refine ⟨⟨m.name, (m.mapFloats Binary64.reread).globals, gs⟩, ?_, hall, ?_⟩
  · rw [assemble_append, read_assemble hheader, unpack, read?_header h hbodies]
    dsimp only
    rw [hgs]
    rfl
  · rw [loadAll, loadEach_restored hall]
    rfl

/-- An archive that is cut in its body section is out of range for the first body that is cut. -/
theorem exists_read_take {s : List UInt8} {m : Module} (h : Module.read? s = some m)
    (hheader : m.headerText.length < wordBound) (hbodies : m.bodySection.length < longBound)
    {n : Nat}
    (hn : 12 + m.headerText.length ≤ n) (hlt : n < (assemble m.headerText m.bodySection).length) :
    ∃ e, m.header.entries.find? (Entry.endsAfter (n - (12 + m.headerText.length))) = some e ∧
      Archive.read ((assemble m.headerText m.bodySection).take n) =
        .error (.bodyOutOfRange e.func.name) := by
  rw [length_assemble] at hlt
  have hinside : n - (12 + m.headerText.length) < 0 + m.bodySection.length := by omega
  have hends : ∃ e ∈ m.header.entries, e.endsAfter (n - (12 + m.headerText.length)) = true :=
    exists_endsAfter (Nat.zero_le _) hinside
  obtain ⟨e, he⟩ := Option.isSome_iff_exists.1 (List.find?_isSome.2 hends)
  refine ⟨e, he, ?_⟩
  have hcut : (m.bodySection.take (n - (12 + m.headerText.length))).length =
      n - (12 + m.headerText.length) := by
    rw [List.length_take]
    omega
  -- What the text leaves out of an entry is not where its body lies.
  have hbare : (m.header.entries.map Entry.bare).find? (Entry.endsAfter
      (m.bodySection.take (n - (12 + m.headerText.length))).length) = some e.bare := by
    rw [hcut, List.find?_map]
    exact congrArg (Option.map Entry.bare) he
  rw [take_assemble m.bodySection hn, read_assemble hheader, unpack, read?_header h hbodies]
  dsimp only
  rw [restoreAll_of_find? hbare]
  rfl

/-- The archive of a module that was read is not read if it is cut short: it ends too early if the
cut falls before the end of the header, and otherwise the first body that ends behind the cut is out
of range. With any bytes behind it the archive is read, and every function loads as it does without
them. The header has to be shorter than its length field can say; no section of bytes in memory is
as long as offsets can say. -/
theorem exists_archive_of_length {s : List UInt8} {m : Module} (h : Module.read? s = some m)
    (hheader : m.headerText.length < wordBound) (hbodies : m.bodySection.length < longBound) :
    ∃ bytes lib, m.archive = .ok bytes ∧ bytes = assemble m.headerText m.bodySection ∧
      Archive.read bytes = .ok lib ∧ lib.loadAll = (.ok (), m.mapFloats Binary64.reread) ∧
      (∀ p, p <+: bytes → p ≠ bytes →
        (p.length < 12 + m.headerText.length → Archive.read p = .error .truncated) ∧
        (12 + m.headerText.length ≤ p.length → ∃ e,
          m.header.entries.find? (Entry.endsAfter (p.length - (12 + m.headerText.length))) =
            some e ∧ Archive.read p = .error (.bodyOutOfRange e.func.name))) ∧
      ∀ x, ∃ lib', Archive.read (bytes ++ x) = .ok lib' ∧
        lib'.functions.map Func.load = lib.functions.map Func.load ∧
        lib'.loadAll = (.ok (), m.mapFloats Binary64.reread) := by
  obtain ⟨j, _, hj⟩ := Option.bind_eq_some_iff.1 h
  have harchive := archive_eq fun f hf => isStored_of_decode? hj (m := m) hf
  obtain ⟨lib, hlib, hrestored, hload⟩ := exists_read_append h hheader hbodies []
  rw [List.append_nil] at hlib
  refine ⟨_, lib, harchive, rfl, hlib, hload, fun p hp hne => ?_, fun x => ?_⟩
  · have hlt : p.length < (assemble m.headerText m.bodySection).length :=
      Nat.lt_of_le_of_ne hp.length_le fun heq => hne (hp.eq_of_length heq)
    rw [List.prefix_iff_eq_take] at hp
    refine ⟨fun hearly => ?_, fun hlate => ?_⟩
    · rw [hp]
      exact read_take_assemble_of_lt hheader m.bodySection hearly
    · obtain ⟨e, he, hread⟩ := exists_read_take h hheader hbodies hlate hlt
      rw [← hp] at hread
      exact ⟨e, he, hread⟩
  · obtain ⟨lib', hlib', hrestored', hload'⟩ := exists_read_append h hheader hbodies x
    exact ⟨lib', hlib', (map_load_restored hrestored').trans (map_load_restored hrestored).symm,
      hload'⟩

/-- A module as data: a declaration between two functions that only return. -/
def returning : Json :=
  let func (name : String) (body : Json) : Json :=
    .record [("name", .string name), ("ty", .arr [.string "Void", .arr []]), ("body", body)]
  let body : Json := .tagged "Defined" (.arr [.arr [.string "entry", .arr [
    .arr [.nat 0, .string "", .string "Void", .tagged "Ret" .null]]]])
  .arr [.string "m", .arr [],
    .arr [func "first" body, func "between" (.string "Declaration"), func "last" body]]

/-- Without its last byte the archive has an incomplete last body, with the header alone it lacks
the first one, and with a byte more nothing is missing. -/
theorem exists_archive_of_length_returning :
    ∃ m, Module.read? (utf8 returning.compact) = some m ∧ 0 < m.bodySection.length ∧
      m.headerText.length < wordBound ∧ m.bodySection.length < longBound ∧
      ∃ bytes, m.archive = .ok bytes ∧
        Archive.read bytes.dropLast = .error (.bodyOutOfRange "last") ∧
        Archive.read (bytes.take (12 + m.headerText.length)) = .error (.bodyOutOfRange "first") ∧
        ∃ lib, Archive.read (bytes ++ [0]) = .ok lib ∧
          lib.loadAll = (.ok (), m.mapFloats Binary64.reread) := by
  have hrun : (Module.read? (utf8 returning.compact)).any (fun m =>
      0 < m.bodySection.length ∧ m.headerText.length < wordBound ∧
      m.bodySection.length < longBound ∧
        (m.header.entries.find? (Entry.endsAfter (m.bodySection.length - 1))).map (·.func.name) =
          some "last" ∧
        (m.header.entries.find? (Entry.endsAfter 0)).map (·.func.name) = some "first") = true := by
    decide +kernel
  cases h : Module.read? (utf8 returning.compact) with
  | none => rw [h] at hrun; cases hrun
  | some m =>
      rw [h] at hrun
      obtain ⟨hpos, hheader, hbodies, hlast, hfirst⟩ := of_decide_eq_true hrun
      obtain ⟨bytes, lib, harchive, hbytes, _, _, hcut, hlonger⟩ :=
        exists_archive_of_length h hheader hbodies
      have hlength : bytes.length = 12 + m.headerText.length + m.bodySection.length := by
        rw [hbytes, length_assemble]
      have hshort : ∀ n < m.bodySection.length, ∀ name,
          (m.header.entries.find? (Entry.endsAfter n)).map (·.func.name) = some name →
            Archive.read (bytes.take (12 + m.headerText.length + n)) =
              .error (.bodyOutOfRange name) := by
        intro n hn name hfind
        have htake : (bytes.take (12 + m.headerText.length + n)).length =
            12 + m.headerText.length + n := by
          rw [List.length_take]
          omega
        have hne : bytes.take (12 + m.headerText.length + n) ≠ bytes := by
          intro heq
          rw [heq] at htake
          omega
        obtain ⟨e, he, hread⟩ := (hcut _ (List.take_prefix _ bytes) hne).2 (by omega)
        rw [htake, Nat.add_sub_cancel_left] at he
        rw [he, Option.map_some, Option.some.injEq] at hfind
        rwa [hfind] at hread
      obtain ⟨lib', hlib', _, hload⟩ := hlonger [0]
      have hdropLast : Archive.read bytes.dropLast = .error (.bodyOutOfRange "last") := by
        rw [List.dropLast_eq_take, hlength, Nat.add_sub_assoc hpos]
        exact hshort _ (by omega) _ hlast
      have hheaderOnly := hshort 0 hpos _ hfirst
      rw [Nat.add_zero] at hheaderOnly
      exact ⟨m, rfl, hpos, hheader, hbodies, bytes, harchive, hdropLast, hheaderOnly, lib',
        hlib', hload⟩

end Module

end Postlink

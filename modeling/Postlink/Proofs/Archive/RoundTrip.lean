import Postlink.Archive
import Postlink.Loading
import Postlink.Proofs.Codec.RoundTrip

/-!
# Modules are restored from their archives

The bodies of a module lie one behind the other in the body section of its archive, and each entry
of the symbol table says where its own body lies (`Archive.Holds`). Reading the archive gives every
function back without its body, and loading all bodies gives the module (`Module.exists_archive`).
-/

namespace Postlink

open Json

namespace Archive

/-- The bytes of a body in the body section. -/
def bodyBytes (f : Func) : List UInt8 :=
  match f.body with
  | .loaded bs => utf8 bs.encode.compact
  | _ => []

/-- Where a body lies that starts at an offset, if there is one. -/
def spanAt (offset : Nat) (f : Func) : Option Span :=
  if f.isDeclared then none else some ⟨offset, (bodyBytes f).length⟩

/-- The symbol table of functions whose bodies lie one behind the other from an offset on. -/
def entriesFrom : Nat → List Func → List Entry
  | _, [] => []
  | offset, f :: fs => ⟨f, spanAt offset f⟩ :: entriesFrom (offset + (bodyBytes f).length) fs

/-- Functions that are not stored are laid out in order. -/
theorem layOut_eq {fs : List Func} (h : ∀ f ∈ fs, f.isStored = false) (offset : Nat) :
    layOut offset fs = .ok (entriesFrom offset fs, fs.flatMap bodyBytes) := by
  induction fs generalizing offset with
  | nil => rfl
  | cons f fs ih =>
      have hf := h f (List.mem_cons_self ..)
      have hrest := ih fun g hg => h g (List.mem_cons_of_mem _ hg)
      rw [Func.isStored] at hf
      rw [layOut, entriesFrom, spanAt, Func.isDeclared, List.flatMap_cons]
      cases hbody : f.body with
      | stored s => rw [hbody] at hf; cases hf
      | declared =>
          have hbytes : bodyBytes f = [] := by rw [bodyBytes, hbody]
          dsimp only
          rw [hrest, hbytes]
          rfl
      | loaded bs =>
          have hbytes : bodyBytes f = utf8 bs.encode.compact := by rw [bodyBytes, hbody]
          dsimp only
          rw [hrest, hbytes]
          rfl

/-- An entry says where in a body section the body of a function lies. -/
structure Holds (bodies : List UInt8) (f : Func) (e : Entry) : Prop where
  /-- The entry is the function's. -/
  func : e.func = f
  /-- A declaration has no place. -/
  declared : f.isDeclared = true → e.body = none
  /-- A definition has the place of its bytes. -/
  defined : f.isDeclared = false → ∃ span, e.body = some span ∧
    span.offset + span.length ≤ bodies.length ∧ StoredBody.slice ⟨bodies, span⟩ = bodyBytes f

/-- Each entry says where its own body lies, by induction on the functions behind it. -/
theorem holds_entriesFrom (front : List UInt8) (fs : List Func) (back : List UInt8) :
    List.Forall₂ (Holds (front ++ (fs.flatMap bodyBytes ++ back))) fs
      (entriesFrom front.length fs) := by
  induction fs generalizing front with
  | nil => exact .nil
  | cons f fs ih =>
      rw [entriesFrom, List.flatMap_cons]
      refine .cons ⟨rfl, ?_, ?_⟩ ?_
      · intro hdeclared
        rw [spanAt, if_pos hdeclared]
      · intro hdefined
        refine ⟨_, if_neg (by rw [hdefined]; exact Bool.false_ne_true), ?_, ?_⟩
        · simp only [List.length_append]
          omega
        · simp [StoredBody.slice]
      · have hrest := ih (front ++ bodyBytes f)
        rw [List.length_append, List.append_assoc] at hrest
        rwa [List.append_assoc (bodyBytes f)]

/-- Every entry of a header belongs to a function. -/
theorem exists_holds {bodies : List UInt8} {fs : List Func} {es : List Entry}
    (h : List.Forall₂ (Holds bodies) fs es) {e : Entry} (he : e ∈ es) :
    ∃ f ∈ fs, Holds bodies f e := by
  induction h with
  | nil => cases he
  | @cons f e' fs es hf _ ih =>
      rcases List.mem_cons.1 he with rfl | he
      · exact ⟨f, List.mem_cons_self .., hf⟩
      · obtain ⟨g, hg, hholds⟩ := ih he
        exact ⟨g, List.mem_cons_of_mem _ hg, hholds⟩

/-- A body that lies in a section starts and ends below the section's length. -/
theorem Holds.span_le {bodies : List UInt8} {f : Func} {e : Entry} (h : Holds bodies f e) {s : Span}
    (hs : s ∈ e.body) : s.offset + s.length ≤ bodies.length := by
  cases hdeclared : f.isDeclared with
  | true =>
      rw [h.declared hdeclared] at hs
      cases hs
  | false =>
      obtain ⟨span, hspan, hrange, _⟩ := h.defined hdeclared
      rw [hspan] at hs
      cases hs
      exact hrange

/-- The fields of a span. -/
def spanSlots (s : Span) : Slots :=
  ⟨[("offset", some (.nat s.offset)), ("len", some (.nat s.length))], by simp⟩

/-- A span can be written. -/
theorem writable_encodeSpan (s : Span) : (encodeSpan s).Writable := by
  have hslots : (spanSlots s).toJson.Writable := by
    refine Slots.writable ?_
    simpa [spanSlots] using ⟨Writable.nat s.offset, Writable.nat s.length⟩
  exact hslots

/-- A span of 64-bit numbers is read back as it was written. -/
theorem decodeSpan?_encodeSpan {s : Span} (hoffset : s.offset < longBound)
    (hlength : s.length < longBound) (d : Nat) : decodeSpan? (d + 1) (encodeSpan s) = some s := by
  have hencode : encodeSpan s = (spanSlots s).toJson := rfl
  rw [hencode, decodeSpan?, fields?_toJson]
  simp only [Option.bind_eq_bind, Option.bind_some]
  rw [Fields.required?_ofSlots rfl, nat?_nat hoffset, Fields.required?_ofSlots rfl,
    nat?_nat hlength]
  rfl

namespace Entry

/-- The fields of a symbol table entry. -/
def slots (e : Entry) : Slots :=
  ⟨[("name", some (.string e.func.name)), ("ty", some e.func.sig.encode),
    ("conv", some (.string e.func.conv.key)), ("linkage", some (.string e.func.linkage.key)),
    ("dll_export", some (.bool e.func.exported)), ("attributes", some (.strings e.func.attributes)),
    ("intrinsic", some (.ofOption (fun op => .string op.key) e.func.intrinsic)),
    ("params", some (.strings e.func.params)),
      ("body", some (.ofOption encodeSpan e.body))], by simp⟩

theorem encode_eq (e : Entry) : e.encode = e.slots.toJson := rfl

/-- An entry can be written. -/
theorem writable (e : Entry) : e.encode.Writable := by
  rw [encode_eq]
  refine Slots.writable ?_
  have hintrinsic : (Json.ofOption (fun op : Intrinsic => .string op.key)
      e.func.intrinsic).Writable :=
    .ofOption fun op _ => .string op.key
  have hbody : (Json.ofOption encodeSpan e.body).Writable :=
    .ofOption fun s _ => writable_encodeSpan s
  simpa [slots] using ⟨Writable.string e.func.name, e.func.sig.writable,
    Writable.string e.func.conv.key, Writable.string e.func.linkage.key,
    Writable.bool e.func.exported,
    writable_strings e.func.attributes, hintrinsic, writable_strings e.func.params, hbody⟩

/-- The fields of an entry describe its function. -/
theorem describes_slots (e : Entry) (d : Nat) : e.func.Describes (d + 1) e.slots := by
  refine ⟨rfl, rfl, rfl, rfl, rfl, ⟨_, rfl, strings?_strings _ (Nat.succ_pos d)⟩, ⟨_, rfl, ?_⟩,
    ⟨_, rfl, strings?_strings _ (Nat.succ_pos d)⟩⟩
  exact orNull?_ofOption (fun _ => nofun) fun op _ => op.decode?_key (d + 1)

/-- An entry without what its data form leaves out. -/
def bare (e : Entry) : Entry := ⟨{ e.func with body := .declared, nextId := none }, e.body⟩

/-- An entry is read back without the body, if its signature and its span are. -/
theorem decode?_encode {e : Entry} {d : Nat}
    (hsig : Signature.decode? (d + 1) e.func.sig.encode = some e.func.sig)
    (hspan : ∀ s ∈ e.body, s.offset < longBound ∧ s.length < longBound) :
    Entry.decode? (d + 2) e.encode = some e.bare := by
  have hbody : orNull? (decodeSpan? (d + 1)) (.ofOption encodeSpan e.body) = some e.body := by
    refine orNull?_ofOption (fun _ => nofun) fun s hs => ?_
    obtain ⟨hoffset, hlength⟩ := hspan s hs
    exact decodeSpan?_encodeSpan hoffset hlength d
  rw [encode_eq, decode?, fields?_toJson]
  simp only [Option.bind_eq_bind, Option.bind_some]
  rw [(e.describes_slots d).decodeWith? hsig, Fields.omissible?_ofSlots rfl, hbody]
  rfl

end Entry

namespace Header

/-- The fields of a symbol table. -/
def slots (h : Header) : Slots :=
  ⟨[("name", some (.string h.name)), ("globals", some (.arr (h.globals.map Global.encode))),
    ("functions", some (.arr (h.entries.map Entry.encode)))], by simp⟩

theorem encode_eq (h : Header) : h.encode = h.slots.toJson := rfl

/-- A header can be written. -/
theorem writable (h : Header) : h.encode.Writable := by
  rw [encode_eq]
  refine Slots.writable ?_
  simpa [slots] using ⟨Writable.string h.name, Writable.map Global.writable h.globals,
    Writable.map Entry.writable h.entries⟩

/-- A symbol table comes back as its variables and entries do. -/
theorem decode?_encode {h : Header} {d : Nat} {k : Global → Global}
    (hglobals : ∀ g ∈ h.globals, Global.decode? d g.encode = some (k g))
    (hentries : ∀ e ∈ h.entries, Entry.decode? d e.encode = some e.bare) :
    Header.decode? (d + 2) h.encode = some ⟨h.name, h.globals.map k, h.entries.map Entry.bare⟩ := by
  have hglobals' : list? Global.decode? (d + 1) (.arr (h.globals.map Global.encode)) =
      some (h.globals.map k) := items?_arr_map hglobals
  have hentries' : list? Entry.decode? (d + 1) (.arr (h.entries.map Entry.encode)) =
      some (h.entries.map Entry.bare) := items?_arr_map hentries
  rw [encode_eq, decode?, fields?_toJson]
  simp only [Option.bind_eq_bind, Option.bind_some]
  rw [Fields.required?_ofSlots rfl, Fields.required?_ofSlots rfl, hglobals',
    Fields.required?_ofSlots rfl, hentries']
  rfl

end Header

/-- A word is read back as the number it was made from. -/
theorem wordValue_word {n : Nat} (h : n < wordBound) : wordValue (word n) = n := by
  rw [wordBound] at h
  simp only [word, wordValue, Nat.toUInt8, UInt8.toNat_ofNat']
  omega

/-- The parts of an archive. -/
theorem assemble_eq (header bodies : List UInt8) :
    assemble header bodies = mark ++
    (word version ++ (word header.length ++ (header ++ bodies))) := by
  simp only [assemble, List.append_assoc]

/-- An archive consists of three words, the header and the bodies. -/
theorem length_assemble (header bodies : List UInt8) :
    (assemble header bodies).length = 12 + header.length + bodies.length := by
  rw [assemble_eq]
  simp only [List.length_append, mark, word, List.length_cons, List.length_nil]
  omega

/-- An archive starts with the mark of the format. -/
theorem mark_assemble (header bodies : List UInt8) : (assemble header bodies).take 4 = mark := by
  rw [assemble_eq]
  rfl

/-- After the mark comes the version of the format. -/
theorem version_assemble (header bodies : List UInt8) :
    wordValue (((assemble header bodies).drop 4).take 4) = version := by
  rw [assemble_eq]
  rfl

/-- The third word of an archive is the length of its header. -/
theorem headerLength_assemble {header : List UInt8} (h : header.length < wordBound)
    (bodies : List UInt8) :
    wordValue (((assemble header bodies).drop 8).take 4) = header.length := by
  rw [assemble_eq]
  exact wordValue_word h

/-- An archive is taken apart where it was put together. -/
theorem read_assemble {header : List UInt8} (h : header.length < wordBound) (bodies : List UInt8) :
    read (assemble header bodies) = unpack header bodies := by
  have hrest : (assemble header bodies).drop 12 = header ++ bodies := by
    rw [assemble_eq]
    rfl
  have hheader : ¬ (header ++ bodies).length < header.length := by
    rw [List.length_append]
    omega
  rw [read, mark_assemble, version_assemble, headerLength_assemble h, hrest, length_assemble]
  rw [if_neg (by omega), if_neg (by simp), if_neg (by omega), if_neg (by simp), if_neg (by omega),
    if_neg hheader, List.take_left, List.drop_left]

/-- A function as an archive gives it back: without the body that it has, if it has one. -/
structure Restored (f g : Func) : Prop where
  /-- A declaration stays one. -/
  isDeclared : g.isDeclared = f.isDeclared
  /-- The body of a definition is stored. -/
  isStored : g.isStored = !f.isDeclared
  /-- Loading gives the function. -/
  load : g.load = .ok f

/-- An entry is restored as its function with other doubles if the bytes of the body are read so. -/
theorem Holds.restored_mapFloats {bodies : List UInt8} {f : Func} {e : Entry} (h : Holds bodies f e)
    {r : Binary64 → Binary64} (hnext : f.nextId = none) (hstored : f.isStored = false)
    (hread : ∀ bs, f.body = .loaded bs →
      Blocks.read? (utf8 bs.encode.compact) = some (bs.mapFloats r)) :
    ∃ g, restore bodies e.bare = .ok g ∧ Restored (f.mapFloats r) g := by
  obtain ⟨name, sig, conv, linkage, exported, attributes, intrinsic, params, body, next⟩ := f
  obtain ⟨func, span?⟩ := e
  obtain rfl := h.func
  subst hnext
  cases body with
  | stored s => cases hstored
  | declared =>
      have hspan := h.declared rfl
      subst hspan
      exact ⟨_, rfl, rfl, rfl, rfl⟩
  | loaded bs =>
      obtain ⟨span, hspan, hrange, hslice⟩ := h.defined rfl
      subst hspan
      refine ⟨_, if_neg (Nat.not_lt.2 hrange), rfl, rfl, ?_⟩
      have hblocks : Blocks.read? (StoredBody.slice ⟨bodies, span⟩) = some (bs.mapFloats r) := by
        rw [hslice]
        exact hread bs rfl
      simp only [Func.load, hblocks]
      rfl

/-- An entry is restored as its function if the bytes of the body are read as the body. -/
theorem Holds.restored {bodies : List UInt8} {f : Func} {e : Entry} (h : Holds bodies f e)
    (hnext : f.nextId = none) (hstored : f.isStored = false)
    (hread : ∀ bs, f.body = .loaded bs → Blocks.read? (utf8 bs.encode.compact) = some bs) :
    ∃ g, restore bodies e.bare = .ok g ∧ Restored f g := by
  have hblocks (bs : Blocks) : bs.mapFloats id = bs := Blocks.mapFloats_eq_self fun _ _ => rfl
  have hfunc : f.mapFloats id = f := Func.mapFloats_eq_self fun _ _ => rfl
  have hall := h.restored_mapFloats (r := id) hnext hstored fun bs hbs => by
    rw [hread bs hbs, hblocks]
  rwa [hfunc] at hall

/-- All entries are restored as each of them is. -/
theorem exists_restored {bodies : List UInt8} {R : Func → Func → Prop} {fs : List Func}
    {es : List Entry} (h : List.Forall₂ (Holds bodies) fs es)
    (hf : ∀ f ∈ fs, ∀ e, Holds bodies f e → ∃ g, restore bodies e.bare = .ok g ∧ R f g) :
    ∃ gs, restoreAll bodies (es.map Entry.bare) = .ok gs ∧ List.Forall₂ R fs gs := by
  induction h with
  | nil => exact ⟨[], rfl, .nil⟩
  | @cons f e fs es he _ ih =>
      obtain ⟨g, hg, hrestored⟩ := hf f (List.mem_cons_self ..) e he
      obtain ⟨gs, hgs, hall⟩ := ih fun f' hf' => hf f' (List.mem_cons_of_mem _ hf')
      refine ⟨g :: gs, ?_, .cons hrestored hall⟩
      rw [List.map_cons, restoreAll, hg, hgs]
      rfl

/-- Loading functions that were restored gives the functions. -/
theorem loadEach_restored {fs gs : List Func} (h : List.Forall₂ Restored fs gs) :
    loadEach gs = (.ok (), fs) := by
  induction h with
  | nil => rfl
  | @cons f g fs gs hg _ ih =>
      rw [loadEach, hg.load]
      dsimp only
      rw [ih]

end Archive

/-- The blocks of a decoded body are read back from their compact text, up to the value of
floats. -/
theorem Blocks.read?_compact {d : Nat} (hd : d ≤ nestingLimit) {j : Json} {bs : Blocks}
    (h : Blocks.decode? d j = some bs) :
    Blocks.read? (utf8 bs.encode.compact) = some (bs.mapFloats Binary64.reread) := by
  rw [Blocks.read?, parse?_compact bs.writable, Option.bind_some]
  exact Blocks.decode?_encode hd h

/-- A body with blocks was decoded from a text of blocks. -/
theorem Body.blocks_of_decode? {d : Nat} {j : Json} {b : Body} (h : Body.decode? d j = some b)
    {bs : Blocks} (hbs : b = .loaded bs) : ∃ e, d = e + 1 ∧ ∃ j, Blocks.decode? e j = some bs := by
  subst hbs
  unfold decode? at h
  split at h
  · cases h
  · cases h
  · obtain ⟨_, hbs, heq⟩ := Option.map_eq_some_iff.1 h
    cases heq
    exact ⟨_, rfl, _, hbs⟩
  · cases h

namespace Module

open Archive

/-- The symbol table of a module's archive. -/
def header (m : Module) : Header := ⟨m.name, m.globals, entriesFrom 0 m.functions⟩

/-- The text of the symbol table. -/
def headerText (m : Module) : List UInt8 := utf8 m.header.encode.compact

/-- The body section of a module's archive. -/
def bodySection (m : Module) : List UInt8 := m.functions.flatMap bodyBytes

/-- A module whose bodies are all decoded can be archived. -/
theorem archive_eq {m : Module} (h : ∀ f ∈ m.functions, f.isStored = false) :
    m.archive = .ok (assemble m.headerText m.bodySection) := by
  rw [archive, layOut_eq h]
  rfl

/-- What is known of the functions of a module that was read: no counter is set, and signatures and
blocks come back, the blocks with their doubles as their texts are read. -/
theorem func_of_read? {s : List UInt8} {m : Module} (h : Module.read? s = some m) {f : Func}
    (hf : f ∈ m.functions) :
    f.nextId = none ∧ Signature.decode? 124 f.sig.encode = some f.sig ∧
      ∀ bs, f.body = .loaded bs →
        Blocks.read? (utf8 bs.encode.compact) = some (bs.mapFloats Binary64.reread) := by
  obtain ⟨j, _, hj⟩ := Option.bind_eq_some_iff.1 h
  obtain ⟨d, hd, _, hfunc⟩ := (of_decode? hj).2 f hf
  obtain ⟨hnext, e, rfl, ⟨_, hsig⟩, ⟨_, hbody⟩⟩ := Func.of_decode? hfunc
  have he : e = 124 := by
    rw [nestingLimit] at hd
    omega
  subst he
  refine ⟨hnext, Signature.decode?_encode (Nat.le_refl _) hsig, fun bs hbs => ?_⟩
  obtain ⟨c, hc, _, hblocks⟩ := Body.blocks_of_decode? hbody hbs
  exact Blocks.read?_compact (by rw [nestingLimit]; omega) hblocks

/-- Blocks whose doubles survive come back as they are. -/
theorem of_mem_read? {s : List UInt8} {m : Module} (h : Module.read? s = some m)
    (hx : ∀ x ∈ m.floats, x.Survives) {f : Func} (hf : f ∈ m.functions) :
    f.nextId = none ∧ Signature.decode? 124 f.sig.encode = some f.sig ∧
      ∀ bs, f.body = .loaded bs → Blocks.read? (utf8 bs.encode.compact) = some bs := by
  obtain ⟨hnext, hsig, hread⟩ := func_of_read? h hf
  refine ⟨hnext, hsig, fun bs hbs => ?_⟩
  rw [hread bs hbs, Blocks.mapFloats_eq_self]
  intro x hxb
  refine (hx x (List.mem_append_right _ (List.mem_flatMap.2 ⟨f, hf, ?_⟩))).reread_eq
  rwa [Func.floats, hbs]

/-- The symbol table of a module that was read comes back from its text, with the doubles of
variables as their texts are read. -/
theorem read?_headerText_reread {s : List UInt8} {m : Module} (h : Module.read? s = some m)
    (hbodies : m.bodySection.length < longBound)
    (hholds : List.Forall₂ (Holds m.bodySection) m.functions m.header.entries) :
    Header.read? m.headerText = some ⟨m.name, (m.mapFloats Binary64.reread).globals,
      m.header.entries.map Entry.bare⟩ := by
  rw [Header.read?, headerText, parse?_compact m.header.writable, Option.bind_some]
  obtain ⟨j, _, hj⟩ := Option.bind_eq_some_iff.1 h
  refine Header.decode?_encode (d := 125) (fun g hg => ?_) fun e he => ?_
  · obtain ⟨d, hd, _, hg'⟩ := (of_decode? hj).1 g hg
    have hle : d ≤ 125 := by
      rw [nestingLimit] at hd
      omega
    exact Global.decode?_encode hle hg'
  · obtain ⟨f, hf, hfe⟩ := exists_holds hholds he
    refine Entry.decode?_encode ?_ fun span hspan => ?_
    · rw [hfe.func]
      exact (func_of_read? h hf).2.1
    · have hle := hfe.span_le hspan
      omega

/-- The header of a module is read back from its text. -/
theorem read?_headerText {s : List UInt8} {m : Module} (h : Module.read? s = some m)
    (hx : ∀ x ∈ m.floats, x.Survives) (hbodies : m.bodySection.length < longBound)
    (hholds : List.Forall₂ (Holds m.bodySection) m.functions m.header.entries) :
    Header.read? m.headerText = some ⟨m.name, m.globals, m.header.entries.map Entry.bare⟩ := by
  rw [read?_headerText_reread h hbodies hholds, mapFloats_reread hx]

/-- A module that was read is archived, its archive is read, with definitions stored and
declarations as they are, and loading all bodies gives the module, in which no counter is set. The
header has to be shorter than its length field can say; no section of bytes in memory is as long as
offsets can say. -/
theorem exists_archive {s : List UInt8} {m : Module} (h : Module.read? s = some m)
    (hx : ∀ x ∈ m.floats, x.Survives) (hheader : m.headerText.length < wordBound)
    (hbodies : m.bodySection.length < longBound) :
    ∃ bytes lib, m.archive = .ok bytes ∧ bytes = assemble m.headerText m.bodySection ∧
      Archive.read bytes = .ok lib ∧ lib.name = m.name ∧ lib.globals = m.globals ∧
      List.Forall₂ Restored m.functions lib.functions ∧ lib.loadAll = (.ok (), m) ∧
      ∀ f ∈ m.functions, f.nextId = none := by
  obtain ⟨j, _, hj⟩ := Option.bind_eq_some_iff.1 h
  have hstored : ∀ f ∈ m.functions, f.isStored = false := fun f hf => isStored_of_decode? hj hf
  have hholds : List.Forall₂ (Holds m.bodySection) m.functions m.header.entries := by
    have hall := holds_entriesFrom [] m.functions []
    rwa [List.append_nil, List.nil_append] at hall
  obtain ⟨gs, hgs, hrestored⟩ := exists_restored hholds fun f hf e he =>
    he.restored (of_mem_read? h hx hf).1 (hstored f hf) (of_mem_read? h hx hf).2.2
  refine ⟨_, ⟨m.name, m.globals, gs⟩, archive_eq hstored, rfl, ?_, rfl, rfl, hrestored, ?_,
    fun f hf => (of_mem_read? h hx hf).1⟩
  · rw [read_assemble hheader, unpack, read?_headerText h hx hbodies hholds]
    dsimp only
    rw [hgs]
    rfl
  · rw [loadAll, loadEach_restored hrestored]

/-- The draft is archived with one declaration and two bodies. -/
theorem exists_archive_draft :
    ∃ m, Module.read? (utf8 (draft.indented 0)) = some m ∧
      m.functions.map Func.isDeclared = [true, false, false] ∧ (∀ x ∈ m.floats, x.Survives) ∧
      m.headerText.length < wordBound ∧ m.bodySection.length < longBound ∧
      ∃ bytes lib, m.archive = .ok bytes ∧ Archive.read bytes = .ok lib ∧
        List.Forall₂ Restored m.functions lib.functions ∧ lib.loadAll = (.ok (), m) := by
  have hrun : (Module.read? (utf8 (draft.indented 0))).any (fun m =>
      m.functions.map Func.isDeclared = [true, false, false] ∧ (∀ x ∈ m.floats, x.Survives) ∧
        m.headerText.length < wordBound ∧ m.bodySection.length < longBound) = true := by
    decide +kernel
  cases h : Module.read? (utf8 (draft.indented 0)) with
  | none => rw [h] at hrun; cases hrun
  | some m =>
      rw [h] at hrun
      obtain ⟨hdeclared, hx, hheader, hbodies⟩ := of_decide_eq_true hrun
      obtain ⟨bytes, lib, harchive, _, hread, _, _, hrestored, hload, _⟩ :=
        exists_archive h hx hheader hbodies
      exact ⟨m, rfl, hdeclared, hx, hheader, hbodies, bytes, lib, harchive, hread, hrestored, hload⟩

end Module

end Postlink

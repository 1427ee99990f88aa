import Postlink.Proofs.Codec.Syntax

/-!
# Modules are read back from their texts

A module that was read from any text is written, and reading what was written gives the module with
its doubles as their texts are read (`Module.decode?_encoded`). That is the same module if its
doubles survive being written (`Module.exists_text`). So the text of a module says all there is to
say about it, and a text that was written is written the same way again.
-/

namespace Postlink

open Json

theorem Linkage.decode?_key (l : Linkage) (d : Nat) : Linkage.decode? d (.string l.key) = some l :=
  choice?_string (by cases l <;> rfl) d

theorem Intrinsic.decode?_key (op : Intrinsic) (d : Nat) :
    Intrinsic.decode? d (.string op.key) = some op :=
  choice?_string (by cases op <;> rfl) d

theorem Json.writable_strings (ss : List String) : (Json.strings ss).Writable := .map .string ss

/-- A list of strings is read back. -/
theorem Json.strings?_strings (ss : List String) {d : Nat} (hd : 0 < d) :
    strings? d (Json.strings ss) = some ss := by
  obtain ⟨e, rfl⟩ : ∃ e, d = e + 1 := ⟨d - 1, by omega⟩
  exact items?_arr fun _ _ => rfl

/-- The items of a list that may be left out were decoded one level down. -/
theorem Json.exists_of_mem_optional_list? {α : Type} {dec : Nat → Json → Option α} {d : Nat}
    {fs : Fields}
    {name : String} {as : List α} (h : fs.optional? name [] (list? dec d) = some as) {a : α}
    (ha : a ∈ as) : ∃ e, d = e + 1 ∧ ∃ j, dec e j = some a := by
  obtain rfl | ⟨j, hj⟩ := Fields.eq_or_exists_of_optional? h
  · cases ha
  · exact exists_of_mem_list? hj ha

namespace Global

/-- The doubles in a variable. -/
def floats (g : Global) : List Binary64 := g.init.toList.flatMap Constant.floats

/-- Change the doubles in a variable. -/
def mapFloats (f : Binary64 → Binary64) (g : Global) : Global :=
  { g with init := g.init.map (Constant.mapFloats f) }

theorem mapFloats_eq_self {f : Binary64 → Binary64} {g : Global} (h : ∀ x ∈ g.floats, f x = x) :
    g.mapFloats f = g := by
  obtain ⟨name, ty, _ | c, linkage⟩ := g
  · rfl
  · have hc : c.mapFloats f = c := Constant.mapFloats_eq_self fun x hx =>
      h x (List.mem_flatMap.2 ⟨c, Option.mem_toList.2 rfl, hx⟩)
    rw [mapFloats, Option.map_some, hc]

/-- The fields of a variable. -/
def slots (g : Global) : Slots :=
  ⟨[("name", some (.string g.name)), ("ty", some g.ty.encode),
    ("initializer", g.init.map Constant.encode),
      ("linkage", some (.string g.linkage.key))], by simp⟩

theorem encode_eq (g : Global) : g.encode = g.slots.toJson := by
  obtain ⟨name, ty, _ | init, linkage⟩ := g <;> rfl

/-- A variable can be written. -/
theorem writable (g : Global) : g.encode.Writable := by
  rw [encode_eq]
  refine Slots.writable ?_
  simp only [slots, List.mem_cons, List.not_mem_nil, or_false, forall_eq_or_imp, forall_eq,
    Option.mem_def, Option.some.injEq, Option.map_eq_some_iff]
  refine ⟨?_, ?_, ?_, ?_⟩
  · rintro _ rfl
    exact .string g.name
  · rintro _ rfl
    exact g.ty.writable
  · rintro _ ⟨c, _, rfl⟩
    exact c.writable
  · rintro _ rfl
    exact .string g.linkage.key

/-- A variable comes back with its double as the text of that is read. -/
theorem decode?_encode {d d' : Nat} (hd : d ≤ d') {j : Json} {g : Global}
    (h : Global.decode? d j = some g) :
    Global.decode? d' g.encode = some (g.mapFloats Binary64.reread) := by
  unfold decode? at h
  split at h
  · simp only [Option.bind_eq_bind, Option.bind_eq_some_iff, Option.pure_def,
      Option.some.injEq] at h
    obtain ⟨fs, _, name, _, ty, hty, init, hinit, linkage, _, rfl⟩ := h
    obtain ⟨_, hty⟩ := Fields.exists_of_required? hty
    obtain ⟨e, rfl⟩ : ∃ e, d' = e + 1 := ⟨d' - 1, by omega⟩
    have hinit' : (init.map Constant.encode).elim (some none) (orNull? (Constant.decode? e)) =
        some (init.map (Constant.mapFloats Binary64.reread)) := by
      refine elim_map_orNull?_map Constant.encode_ne_null fun c hc => ?_
      obtain ⟨_, hc'⟩ := Fields.exists_of_mem_optional? hinit hc
      exact Constant.decode?_encode (by omega) hc'
    rw [encode_eq, decode?, fields?_toJson]
    simp only [Option.bind_eq_bind, Option.bind_some]
    rw [Fields.required?_ofSlots rfl, Fields.required?_ofSlots rfl,
      Ty.decode?_encode (by omega) hty,
      Fields.optional?_ofSlots rfl, hinit', Fields.optional?_ofSlots rfl, Option.elim_some,
      Linkage.decode?_key]
    rfl
  · cases h

end Global

namespace Body

/-- The doubles in a body that is loaded. -/
def floats (b : Body) : List Binary64 := b.blocks.floats

/-- Change the doubles in a body that is loaded. -/
def mapFloats (f : Binary64 → Binary64) (b : Body) : Body := b.mapBlocks (Blocks.mapFloats f)

theorem mapFloats_eq_self {f : Binary64 → Binary64} {b : Body} (h : ∀ x ∈ b.floats, f x = x) :
    b.mapFloats f = b := by
  cases b with
  | loaded bs => exact congrArg Body.loaded (Blocks.mapFloats_eq_self h)
  | _ => rfl

/-- The data form of a body that is not stored. -/
def encoded (b : Body) : Json := b.encode?.getD .null

/-- A body can be written. -/
theorem writable (b : Body) : b.encoded.Writable := by
  cases b with
  | declared => exact .string _
  | loaded bs => exact .tagged _ bs.writable
  | stored s => exact .null

/-- A body that is not stored has a data form. -/
theorem encode?_eq_some {b : Body} (h : b.isStored = false) : b.encode? = some b.encoded := by
  cases b with
  | stored s => cases h
  | _ => rfl

/-- No text decodes to a stored body. -/
theorem isStored_of_decode? {d : Nat} {j : Json} {b : Body} (h : Body.decode? d j = some b) :
    b.isStored = false := by
  unfold decode? at h
  split at h
  · cases h
    rfl
  · cases h
    rfl
  · obtain ⟨bs, _, rfl⟩ := Option.map_eq_some_iff.1 h
    rfl
  · cases h

/-- A body comes back with its doubles as their texts are read. -/
theorem decode?_encoded {d d' : Nat} (hd : d ≤ d') {j : Json} {b : Body}
    (h : Body.decode? d j = some b) :
    Body.decode? d' b.encoded = some (b.mapFloats Binary64.reread) := by
  unfold decode? at h
  split at h
  · cases h
    rw [encoded, encode?, Option.getD_some, string, decode?]
    rfl
  · cases h
    rw [encoded, encode?, Option.getD_some, string, decode?]
    rfl
  · obtain ⟨bs, hbs, rfl⟩ := Option.map_eq_some_iff.1 h
    obtain ⟨e, rfl⟩ : ∃ e, d' = e + 1 := ⟨d' - 1, by omega⟩
    rw [encoded, encode?, Option.getD_some, tagged, decode?, Blocks.decode?_encode (by omega) hbs,
      Option.map_some]
    rfl
  · cases h

end Body

namespace Func

/-- The doubles in a function. -/
def floats (f : Func) : List Binary64 := f.body.floats

/-- Change the doubles in a function. -/
def mapFloats (r : Binary64 → Binary64) (f : Func) : Func := { f with body := f.body.mapFloats r }

theorem mapFloats_eq_self {r : Binary64 → Binary64} {f : Func} (h : ∀ x ∈ f.floats, r x = x) :
    f.mapFloats r = f := by
  rw [mapFloats, Body.mapFloats_eq_self h]

/-- The fields of a record say what a function is, its body apart. -/
structure Describes (f : Func) (d : Nat) (slots : Slots) : Prop where
  /-- The name. -/
  name : slots.fields.lookup "name" = some (some (.string f.name))
  /-- The signature. -/
  ty : slots.fields.lookup "ty" = some (some f.sig.encode)
  /-- The convention. -/
  conv : slots.fields.lookup "conv" = some (some (.string f.conv.key))
  /-- The linkage. -/
  linkage : slots.fields.lookup "linkage" = some (some (.string f.linkage.key))
  /-- Whether it is an entry point. -/
  exported : slots.fields.lookup "dll_export" = some (some (.bool f.exported))
  /-- The attributes, or nothing if there are none. -/
  attributes : ∃ v, slots.fields.lookup "attributes" = some v ∧
    v.elim (some []) (strings? d) = some f.attributes
  /-- The intrinsic, or nothing if there is none. -/
  intrinsic : ∃ v, slots.fields.lookup "intrinsic" = some v ∧
    v.elim (some none) (orNull? (Intrinsic.decode? d)) = some f.intrinsic
  /-- The names of parameters, or nothing if there are none. -/
  params : ∃ v, slots.fields.lookup "params" = some v ∧
    v.elim (some []) (strings? d) = some f.params

/-- A function comes back from a record that describes it, if its signature does. -/
theorem Describes.decodeWith? {f : Func} {d : Nat} {slots : Slots} (h : f.Describes d slots)
    (hsig : Signature.decode? d f.sig.encode = some f.sig) (body : Body) :
    decodeWith? d (.ofSlots slots) body = some { f with body := body, nextId := none } := by
  obtain ⟨attributes, hattributes, hattributes'⟩ := h.attributes
  obtain ⟨intrinsic, hintrinsic, hintrinsic'⟩ := h.intrinsic
  obtain ⟨params, hparams, hparams'⟩ := h.params
  rw [Func.decodeWith?, Fields.required?_ofSlots h.name, Fields.required?_ofSlots h.ty, hsig,
    Fields.optional?_ofSlots h.conv, Option.elim_some, Convention.decode?_key,
    Fields.optional?_ofSlots h.linkage, Option.elim_some, Linkage.decode?_key,
    Fields.optional?_ofSlots h.exported, Fields.optional?_ofSlots hattributes, hattributes',
    Fields.optional?_ofSlots hintrinsic, hintrinsic', Fields.optional?_ofSlots hparams, hparams']
  rfl

/-- What is known of a function whose fields were decoded. -/
theorem of_decodeWith? {d : Nat} {fs : Fields} {body : Body} {f : Func}
    (h : decodeWith? d fs body = some f) :
    f.body = body ∧ f.nextId = none ∧ ∃ j, Signature.decode? d j = some f.sig := by
  simp only [decodeWith?, Option.bind_eq_bind, Option.bind_eq_some_iff, Option.pure_def,
    Option.some.injEq] at h
  obtain ⟨name, _, sig, hsig, conv, _, linkage, _, exported, _, attributes, _, intrinsic,
    _, params, _, rfl⟩ := h
  exact ⟨rfl, rfl, Fields.exists_of_required? hsig⟩

/-- The fields of a function, its body written as `body`. -/
def slots (body : Json) (f : Func) : Slots :=
  ⟨[("name", some (.string f.name)), ("ty", some f.sig.encode), ("conv", some (.string f.conv.key)),
    ("linkage", some (.string f.linkage.key)), ("dll_export", some (.bool f.exported)),
    ("attributes", if f.attributes.isEmpty then none else some (.strings f.attributes)),
    ("intrinsic", f.intrinsic.map fun op => .string op.key),
    ("params", if f.params.isEmpty then none else some (.strings f.params)),
    ("body", some body)], by simp⟩

theorem encodeWith_eq (body : Json) (f : Func) : f.encodeWith body = (f.slots body).toJson := by
  obtain ⟨name, sig, conv, linkage, exported, attributes, intrinsic, params, b, next⟩ := f
  cases attributes <;> cases intrinsic <;> cases params <;> rfl

/-- A function can be written if its body can. -/
theorem writable_encodeWith (f : Func) {body : Json} (h : body.Writable) :
    (f.encodeWith body).Writable := by
  rw [encodeWith_eq]
  refine Slots.writable ?_
  simp only [slots, List.mem_cons, List.not_mem_nil, or_false, forall_eq_or_imp, forall_eq,
    Option.mem_def, Option.some.injEq, Option.map_eq_some_iff, Option.ite_none_left_eq_some]
  refine ⟨?_, ?_, ?_, ?_, ?_, ?_, ?_, ?_, ?_⟩
  · rintro _ rfl
    exact .string f.name
  · rintro _ rfl
    exact f.sig.writable
  · rintro _ rfl
    exact .string f.conv.key
  · rintro _ rfl
    exact .string f.linkage.key
  · rintro _ rfl
    exact .bool f.exported
  · rintro _ ⟨_, rfl⟩
    exact writable_strings f.attributes
  · rintro _ ⟨op, _, rfl⟩
    exact .string op.key
  · rintro _ ⟨_, rfl⟩
    exact writable_strings f.params
  · rintro _ rfl
    exact h

/-- The fields that are written describe the function. -/
theorem describes_slots (f : Func) (body : Json) {d : Nat} (hd : 0 < d) :
    f.Describes d (f.slots body) := by
  have hstrings : ∀ ss : List String, (if ss.isEmpty then none else some (Json.strings ss)).elim
      (some []) (strings? d) = some ss := by
    intro ss
    split
    · rename_i hempty
      rw [List.isEmpty_iff.1 hempty]
      rfl
    · exact strings?_strings ss hd
  refine ⟨rfl, rfl, rfl, rfl, rfl, ⟨_, rfl, hstrings f.attributes⟩, ⟨_, rfl, ?_⟩,
    ⟨_, rfl, hstrings f.params⟩⟩
  exact elim_map_orNull? (fun _ => nofun) fun op _ => op.decode?_key d

/-- The data form of a function that is not stored. -/
def encoded (f : Func) : Json := f.encodeWith f.body.encoded

/-- A function that is not stored has a data form. -/
theorem encode?_eq_some {f : Func} (h : f.isStored = false) : f.encode? = some f.encoded := by
  rw [encode?, Body.encode?_eq_some h]
  rfl

/-- What is known of a function that was decoded: its parts were. -/
theorem of_decode? {d : Nat} {j : Json} {f : Func} (h : Func.decode? d j = some f) :
    f.nextId = none ∧ ∃ e, d = e + 1 ∧ (∃ j, Signature.decode? e j = some f.sig) ∧
      ∃ j, Body.decode? e j = some f.body := by
  unfold decode? at h
  split at h
  · simp only [Option.bind_eq_bind, Option.bind_eq_some_iff] at h
    obtain ⟨fs, _, body, hbody, hfunc⟩ := h
    obtain ⟨rfl, hnext, hsig⟩ := of_decodeWith? hfunc
    exact ⟨hnext, _, rfl, hsig, Fields.exists_of_required? hbody⟩
  · cases h

/-- A function comes back with its doubles as their texts are read. -/
theorem decode?_encoded {d d' : Nat} (hd : d ≤ d') {j : Json} {f : Func}
    (h : Func.decode? d j = some f) :
    Func.decode? d' f.encoded = some (f.mapFloats Binary64.reread) := by
  obtain ⟨hnext, c, rfl, ⟨_, hsig⟩, ⟨_, hbody⟩⟩ := of_decode? h
  obtain ⟨e, rfl⟩ : ∃ e, d' = e + 1 := ⟨d' - 1, by omega⟩
  have hdepth := Signature.two_le_of_decode? hsig
  have hsig' : Signature.decode? e f.sig.encode = some f.sig :=
    Signature.decode?_encode (by omega) hsig
  rw [encoded, encodeWith_eq, decode?, fields?_toJson]
  simp only [Option.bind_eq_bind, Option.bind_some]
  rw [Fields.required?_ofSlots rfl, Body.decode?_encoded (by omega) hbody, Option.bind_some,
    (f.describes_slots _ (by omega)).decodeWith? hsig', mapFloats, hnext]

end Func

namespace Module

/-- The doubles in a module. -/
def floats (m : Module) : List Binary64 :=
  m.globals.flatMap Global.floats ++ m.functions.flatMap Func.floats

/-- Change the doubles in a module. -/
def mapFloats (r : Binary64 → Binary64) (m : Module) : Module :=
  { m with
    globals := m.globals.map (Global.mapFloats r)
    functions := m.functions.map (Func.mapFloats r) }

theorem mapFloats_eq_self {r : Binary64 → Binary64} {m : Module} (h : ∀ x ∈ m.floats, r x = x) :
    m.mapFloats r = m := by
  have hglobals : ∀ g ∈ m.globals, g.mapFloats r = g := fun g hg => Global.mapFloats_eq_self
    fun x hx => h x (List.mem_append_left _ (List.mem_flatMap.2 ⟨g, hg, hx⟩))
  have hfunctions : ∀ f ∈ m.functions, f.mapFloats r = f := fun f hf => Func.mapFloats_eq_self
    fun x hx => h x (List.mem_append_right _ (List.mem_flatMap.2 ⟨f, hf, hx⟩))
  rw [mapFloats, List.map_congr_left hglobals, List.map_congr_left hfunctions, List.map_id',
    List.map_id']

/-- A module whose doubles survive is not changed by reading them again. -/
theorem mapFloats_reread {m : Module} (hx : ∀ x ∈ m.floats, x.Survives) :
    m.mapFloats Binary64.reread = m :=
  mapFloats_eq_self fun x hxm => (hx x hxm).reread_eq

/-- The fields of a module. -/
def slots (m : Module) : Slots :=
  ⟨[("name", some (.string m.name)), ("globals", some (.arr (m.globals.map Global.encode))),
    ("functions", some (.arr (m.functions.map Func.encoded)))], by simp⟩

/-- The data form of a module without stored bodies. -/
def encoded (m : Module) : Json := m.slots.toJson

/-- A module can be written. -/
theorem writable (m : Module) : m.encoded.Writable := by
  refine Slots.writable ?_
  simpa [slots] using ⟨Writable.string m.name, Writable.map Global.writable m.globals,
    Writable.map (fun f : Func => f.writable_encodeWith f.body.writable) m.functions⟩

/-- A module without stored bodies has a data form. -/
theorem encode?_eq_some {m : Module} (h : ∀ f ∈ m.functions, f.isStored = false) :
    m.encode? = some m.encoded := by
  rw [encode?, mapM_eq_some_map fun f hf => Func.encode?_eq_some (h f hf)]
  rfl

/-- What is known of a module that was decoded: its variables and functions were. -/
theorem of_decode? {d : Nat} {j : Json} {m : Module} (h : Module.decode? d j = some m) :
    (∀ g ∈ m.globals, ∃ e, d = e + 2 ∧ ∃ j, Global.decode? e j = some g) ∧
      ∀ f ∈ m.functions, ∃ e, d = e + 2 ∧ ∃ j, Func.decode? e j = some f := by
  unfold decode? at h
  split at h
  · simp only [Option.bind_eq_bind, Option.bind_eq_some_iff, Option.pure_def,
      Option.some.injEq] at h
    obtain ⟨fs, _, name, _, globals, hglobals, functions, hfunctions, rfl⟩ := h
    refine ⟨fun g hg => ?_, fun f hf => ?_⟩
    · obtain ⟨e, rfl, hg'⟩ := exists_of_mem_optional_list? hglobals hg
      exact ⟨e, rfl, hg'⟩
    · obtain ⟨e, rfl, hf'⟩ := exists_of_mem_optional_list? hfunctions hf
      exact ⟨e, rfl, hf'⟩
  · cases h

/-- No text decodes to a module with a stored body. -/
theorem isStored_of_decode? {d : Nat} {j : Json} {m : Module} (h : Module.decode? d j = some m)
    {f : Func} (hf : f ∈ m.functions) : f.isStored = false := by
  obtain ⟨_, _, _, hf'⟩ := (of_decode? h).2 f hf
  obtain ⟨_, _, _, _, _, hbody⟩ := Func.of_decode? hf'
  exact Body.isStored_of_decode? hbody

/-- A module comes back with its doubles as their texts are read. -/
theorem decode?_encoded {d d' : Nat} (hd : d ≤ d') (hpos : 2 ≤ d') {j : Json} {m : Module}
    (h : Module.decode? d j = some m) :
    Module.decode? d' m.encoded = some (m.mapFloats Binary64.reread) := by
  obtain ⟨hglobals, hfunctions⟩ := of_decode? h
  obtain ⟨e, rfl⟩ : ∃ e, d' = e + 2 := ⟨d' - 2, by omega⟩
  have hglobals' : list? Global.decode? (e + 1) (.arr (m.globals.map Global.encode)) =
      some (m.globals.map (Global.mapFloats Binary64.reread)) := by
    refine items?_arr_map fun g hg => ?_
    obtain ⟨c, rfl, _, hg'⟩ := hglobals g hg
    exact Global.decode?_encode (by omega) hg'
  have hfunctions' : list? Func.decode? (e + 1) (.arr (m.functions.map Func.encoded)) =
      some (m.functions.map (Func.mapFloats Binary64.reread)) := by
    refine items?_arr_map fun f hf => ?_
    obtain ⟨c, rfl, _, hf'⟩ := hfunctions f hf
    exact Func.decode?_encoded (by omega) hf'
  rw [encoded, decode?, fields?_toJson]
  simp only [Option.bind_eq_bind, Option.bind_some]
  rw [Fields.required?_ofSlots rfl, Fields.optional?_ofSlots rfl, Option.elim_some, hglobals',
    Fields.optional?_ofSlots rfl, Option.elim_some, hfunctions']
  rfl

/-- What reading gives is written, and comes back from its data form if its doubles do. -/
theorem encoded_of_read? {s : List UInt8} {m : Module} (h : Module.read? s = some m)
    (hx : ∀ x ∈ m.floats, x.Survives) :
    m.encode? = some m.encoded ∧ Module.decode? nestingLimit m.encoded = some m := by
  obtain ⟨j, _, hj⟩ := Option.bind_eq_some_iff.1 h
  have hdecode := decode?_encoded (Nat.le_refl _) (by decide) hj
  rw [mapFloats_reread hx] at hdecode
  exact ⟨encode?_eq_some fun f hf => isStored_of_decode? hj hf, hdecode⟩

/-- A module that was read is read back from its compact text, if its doubles survive. -/
theorem read?_compact {s : List UInt8} {m : Module} (h : Module.read? s = some m)
    (hx : ∀ x ∈ m.floats, x.Survives) : Module.read? (utf8 m.encoded.compact) = some m := by
  rw [Module.read?, parse?_compact m.writable, Option.bind_some]
  exact (encoded_of_read? h hx).2

/-- What was read is written, and what is written is read as the same module. So no other module
that comes back has its text, and a text that was written is written the same way again. -/
theorem exists_text {s : List UInt8} {m : Module} (h : Module.read? s = some m)
    (hx : ∀ x ∈ m.floats, x.Survives) :
    ∃ j, m.encode? = some j ∧ m.write? = some j.compact ∧
      Module.read? (utf8 j.compact) = some m ∧ Module.read? (utf8 (j.indented 0)) = some m ∧
      (∀ s' m', Module.read? s' = some m' → (∀ x ∈ m'.floats, x.Survives) →
        m'.write? = some j.compact → m' = m) ∧
      (Module.read? s).bind Module.write? = some j.compact ∧
      (Module.read? (utf8 j.compact)).bind Module.write? = some j.compact := by
  obtain ⟨hencode, hdecode⟩ := encoded_of_read? h hx
  have hread := read?_compact h hx
  have hwrite : m.write? = some m.encoded.compact := by rw [write?, hencode, Option.map_some]
  refine ⟨m.encoded, hencode, hwrite, hread, ?_, ?_, ?_, ?_⟩
  · rw [Module.read?, parse?_indented m.writable, Option.bind_some]
    exact hdecode
  · intro s' m' h' hx' hsame
    have hread' := read?_compact h' hx'
    rw [write?, (encoded_of_read? h' hx').1, Option.map_some, Option.some.injEq] at hsame
    rw [hsame, hread] at hread'
    exact (Option.some.inj hread').symm
  · rw [h, Option.bind_some, hwrite]
  · rw [hread, Option.bind_some, hwrite]

/-- A module as data in an uncommon form: records as arrays, members out of order or unknown,
defaults left out, a number with an exponent. Two functions, one with a name that takes escapes,
hand a double to a third one through a cast. -/
def draft : Json :=
  let real : Json := .tagged "Float" (.nat 64)
  let sig : Json := .arr [real, .arr [real]]
  let number : Json := .tagged "Float" (.arr [.nat 64,
    .num ⟨true, Digit.ofNat 1, Digit.ofNat 50, some (-1)⟩])
  let callee : Json := .tagged "Cast" (.arr [.tagged "Function" (.string "g"),
    .tagged "Ptr" (.tagged "Function" sig)])
  let call : Json := .record [("args", .arr [.tagged "Const" number]), ("note", .null),
    ("fn_ty", sig), ("callee", callee)]
  let body : Json := .arr [.arr [.string "entry", .arr [
    .record [("kind", .tagged "Call" call), ("ty", real), ("id", .nat 0)],
    .arr [.nat 1, .string "", .string "Void", .tagged "Ret" .null]]]]
  .arr [.string "m", .arr [.arr [.string "bias", real, number]],
    .arr [.arr [.string "g", sig, .string "C", .string "External", .bool false, .arr [],
      .null, .arr [],
        .string "Declaration"],
      .record [("name", .string "say \"hé\"\n"), ("ty", sig), ("body", .tagged "Defined" body)],
      .record [("body", .tagged "Defined" body), ("params", .strings ["x"]), ("name", .string "h"),
        ("ty", sig), ("linkage", .string "Internal")]]]

/-- The draft is read, and all of its doubles survive. -/
theorem exists_text_draft :
    ∃ m, Module.read? (utf8 (draft.indented 0)) = some m ∧ m.floats.length = 3 ∧
      (∀ x ∈ m.floats, x.Survives) ∧ ∃ j, m.encode? = some j ∧
      Module.read? (utf8 j.compact) = some m ∧ Module.read? (utf8 (j.indented 0)) = some m := by
  have hrun : (Module.read? (utf8 (draft.indented 0))).any (fun m =>
      m.floats.length = 3 ∧ ∀ x ∈ m.floats, x.Survives) = true := by decide +kernel
  cases h : Module.read? (utf8 (draft.indented 0)) with
  | none => rw [h] at hrun; cases hrun
  | some m =>
      rw [h] at hrun
      obtain ⟨hlength, hx⟩ := of_decide_eq_true hrun
      obtain ⟨j, hj, _, hcompact, hindented, _⟩ := exists_text h hx
      exact ⟨m, rfl, hlength, hx, j, hj, hcompact, hindented⟩

end Module

end Postlink

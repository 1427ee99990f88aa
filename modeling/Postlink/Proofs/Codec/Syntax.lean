import Postlink.Proofs.Bodies
import Postlink.Proofs.Codec.Records

/-!
# Types, operands and instructions are decoded as they are encoded

For each kind of syntax: what a decoder accepts at some depth, it reads again from the data form at
that depth or a greater one, with each double as its text is read (`Blocks.decode?_encode`). The
induction over types and operands is on the depth, which goes down where the syntax is nested.
-/

namespace Postlink

open Json

/-- A list of types is written type by type. -/
theorem Ty.encodeAll_eq (ts : List Ty) : Ty.encodeAll ts = ts.map Ty.encode := by
  induction ts with
  | nil => rfl
  | cons t ts ih => rw [Ty.encodeAll, ih, List.map_cons]

mutual

/-- A type can be written. -/
theorem Ty.writable : (t : Ty) → t.encode.Writable
  | .void => .string _
  | .int n => .tagged _ (.nat n)
  | .float n => .tagged _ (.nat n)
  | .ptr t => .tagged _ t.writable
  | .func r ps => by
      have hfields : ∀ f ∈ [("ret", r.encode), ("params", Json.arr (Ty.encodeAll ps))],
          f.2.Writable := by
        simpa using ⟨r.writable, .arr (Ty.writable_encodeAll ps)⟩
      exact .tagged _ (.record hfields)

/-- A list of types can be written. -/
theorem Ty.writable_encodeAll : (ts : List Ty) → ∀ j ∈ Ty.encodeAll ts, j.Writable
  | [] => by simp [Ty.encodeAll]
  | t :: ts => by
      simp only [Ty.encodeAll, List.mem_cons, forall_eq_or_imp]
      exact ⟨t.writable, Ty.writable_encodeAll ts⟩

end

namespace Signature

/-- The fields of a signature. -/
def slots (s : Signature) : Slots :=
  ⟨[("ret", some s.ret.encode), ("params", some (.arr (s.params.map Ty.encode)))], by simp⟩

/-- A signature is written as the record of its fields. -/
theorem encode_eq (s : Signature) : s.encode = s.slots.toJson := by
  rw [encode, Ty.encodeAll_eq]
  rfl

theorem encode_toTy (s : Signature) : s.toTy.encode = tagged "Function" s.encode := rfl

/-- A signature can be written. -/
theorem writable (s : Signature) : s.encode.Writable := by
  rw [encode_eq]
  refine Slots.writable ?_
  simpa [slots] using ⟨s.ret.writable, Writable.map Ty.writable s.params⟩

/-- A signature comes back if its types do. -/
theorem decodeWith?_encode {ret ret' param param' : Json → Option Ty} {j : Json} {s : Signature}
    (h : decodeWith? ret param j = some s) (hret : ∀ j t, ret j = some t → ret' t.encode = some t)
    (hparam : ∀ j t, param j = some t → param' t.encode = some t) :
    decodeWith? ret' param' s.encode = some s := by
  simp only [decodeWith?, Option.bind_eq_bind, Option.bind_eq_some_iff, Option.pure_def,
    Option.some.injEq] at h
  obtain ⟨fs, _, r, hr, ps, hps, rfl⟩ := h
  obtain ⟨jr, hr⟩ := Fields.exists_of_required? hr
  obtain ⟨jps, hps⟩ := Fields.exists_of_required? hps
  rw [encode_eq, decodeWith?, fields?_toJson]
  simp only [Option.bind_eq_bind, Option.bind_some]
  rw [Fields.required?_ofSlots rfl, hret jr r hr, Fields.required?_ofSlots rfl,
    items?_map hps fun t _ j => hparam j t]
  rfl

end Signature

/-- A type comes back at any greater depth. -/
theorem Ty.decode?_encode {d d' : Nat} (hd : d ≤ d') {j : Json} {t : Ty}
    (h : Ty.decode? d j = some t) : Ty.decode? d' t.encode = some t := by
  induction d using Nat.strongRecOn generalizing d' j t with
  | ind d ih =>
      unfold Ty.decode? at h
      split at h
      · cases h
        rw [encode, string, Ty.decode?]
      · cases h
        rw [encode, string, Ty.decode?]
      · obtain ⟨n, hn, rfl⟩ := Option.map_eq_some_iff.1 h
        obtain ⟨e, rfl⟩ : ∃ e, d' = e + 1 := ⟨d' - 1, by omega⟩
        rw [encode, tagged, Ty.decode?, nat?_nat (lt_of_nat?_eq_some hn), Option.map_some]
      · obtain ⟨n, hn, rfl⟩ := Option.map_eq_some_iff.1 h
        obtain ⟨e, rfl⟩ : ∃ e, d' = e + 1 := ⟨d' - 1, by omega⟩
        rw [encode, tagged, Ty.decode?, nat?_nat (lt_of_nat?_eq_some hn), Option.map_some]
      · obtain ⟨t, ht, rfl⟩ := Option.map_eq_some_iff.1 h
        obtain ⟨e, rfl⟩ : ∃ e, d' = e + 1 := ⟨d' - 1, by omega⟩
        rw [encode, tagged, Ty.decode?, ih _ (Nat.lt_succ_self _) (by omega) ht, Option.map_some]
      · obtain ⟨s, hs, rfl⟩ := Option.map_eq_some_iff.1 h
        obtain ⟨e, rfl⟩ : ∃ e, d' = e + 3 := ⟨d' - 3, by omega⟩
        rw [Signature.encode_toTy, tagged, Ty.decode?, Signature.decodeWith?_encode hs,
          Option.map_some]
        · exact fun j t ht => ih _ (by omega) (by omega) ht
        · exact fun j t ht => ih _ (by omega) (by omega) ht
      · cases h

/-- A signature is read back, at the depth it was read at or deeper. -/
theorem Signature.decode?_encode {d d' : Nat} (hd : d ≤ d') {j : Json} {s : Signature}
    (h : Signature.decode? d j = some s) : Signature.decode? d' s.encode = some s := by
  unfold decode? at h
  split at h
  · obtain ⟨e, rfl⟩ : ∃ e, d' = e + 2 := ⟨d' - 2, by omega⟩
    exact decodeWith?_encode h (fun j t => Ty.decode?_encode (by omega))
      fun j t => Ty.decode?_encode (by omega)
  · cases h

/-- A signature takes at least two levels. -/
theorem Signature.two_le_of_decode? {d : Nat} {j : Json} {s : Signature}
    (h : Signature.decode? d j = some s) : 2 ≤ d := by
  unfold decode? at h
  split at h
  · omega
  · cases h

namespace Constant

/-- The doubles in a constant. -/
def floats : Constant → List Binary64
  | .float _ value => [value]
  | _ => []

/-- Change the doubles in a constant. -/
def mapFloats (f : Binary64 → Binary64) : Constant → Constant
  | .float width value => .float width (f value)
  | c => c

theorem mapFloats_eq_self {f : Binary64 → Binary64} {c : Constant} (h : ∀ x ∈ c.floats, f x = x) :
    c.mapFloats f = c := by
  cases c with
  | float width value => rw [mapFloats, h value (List.mem_singleton_self value)]
  | _ => rfl

/-- The fields of a number constant. -/
def slots (width : Nat) (value : Json) : Slots :=
  ⟨[("bits", some (.nat width)), ("value", some value)], by simp⟩

/-- A number constant can be written if its value can. -/
theorem writable_slots (width : Nat) {value : Json} (h : value.Writable) :
    (slots width value).toJson.Writable := by
  refine Slots.writable ?_
  simpa [slots] using ⟨Writable.nat width, h⟩

theorem encode_ne_null (c : Constant) : c.encode ≠ .null := by
  cases c <;> exact nofun

/-- A constant can be written. -/
theorem writable (c : Constant) : c.encode.Writable := by
  cases c with
  | int width value => exact .tagged _ (writable_slots width (.nat value))
  | float width value => exact .tagged _ (writable_slots width (.binary64 value))
  | null ty => exact .tagged _ ty.writable
  | undef ty => exact .tagged _ ty.writable

/-- A constant comes back at any greater depth with its double as the text of that is read. -/
theorem decode?_encode {d d' : Nat} (hd : d ≤ d') {j : Json} {c : Constant}
    (h : Constant.decode? d j = some c) :
    Constant.decode? d' c.encode = some (c.mapFloats Binary64.reread) := by
  unfold decode? at h
  split at h
  · simp only [Option.bind_eq_bind, Option.bind_eq_some_iff, Option.pure_def,
      Option.some.injEq] at h
    obtain ⟨fs, _, width, hwidth, value, hvalue, rfl⟩ := h
    obtain ⟨_, hwidth⟩ := Fields.exists_of_required? hwidth
    obtain ⟨_, hvalue⟩ := Fields.exists_of_required? hvalue
    obtain ⟨e, rfl⟩ : ∃ e, d' = e + 2 := ⟨d' - 2, by omega⟩
    have hencode : (int width value).encode = tagged "Int" (slots width (.nat value)).toJson := rfl
    rw [hencode, tagged, decode?, fields?_toJson]
    simp only [Option.bind_eq_bind, Option.bind_some]
    rw [Fields.required?_ofSlots rfl, nat?_nat (lt_of_nat?_eq_some hwidth),
      Fields.required?_ofSlots rfl, nat?_nat (lt_of_nat?_eq_some hvalue)]
    rfl
  · simp only [Option.bind_eq_bind, Option.bind_eq_some_iff, Option.pure_def,
      Option.some.injEq] at h
    obtain ⟨fs, _, width, hwidth, value, hvalue, rfl⟩ := h
    obtain ⟨_, hwidth⟩ := Fields.exists_of_required? hwidth
    obtain ⟨_, hvalue⟩ := Fields.exists_of_required? hvalue
    obtain ⟨e, rfl⟩ : ∃ e, d' = e + 2 := ⟨d' - 2, by omega⟩
    have hencode : (float width value).encode =
        tagged "Float" (slots width (.binary64 value)).toJson :=
      rfl
    rw [hencode, tagged, decode?, fields?_toJson]
    simp only [Option.bind_eq_bind, Option.bind_some]
    rw [Fields.required?_ofSlots rfl, nat?_nat (lt_of_nat?_eq_some hwidth),
      Fields.required?_ofSlots rfl, binary64?_of_eq_some hvalue]
    rfl
  · obtain ⟨t, ht, rfl⟩ := Option.map_eq_some_iff.1 h
    obtain ⟨e, rfl⟩ : ∃ e, d' = e + 1 := ⟨d' - 1, by omega⟩
    rw [encode, tagged, decode?, Ty.decode?_encode (by omega) ht, Option.map_some]
    rfl
  · obtain ⟨t, ht, rfl⟩ := Option.map_eq_some_iff.1 h
    obtain ⟨e, rfl⟩ : ∃ e, d' = e + 1 := ⟨d' - 1, by omega⟩
    rw [encode, tagged, decode?, Ty.decode?_encode (by omega) ht, Option.map_some]
    rfl
  · cases h

end Constant

namespace Operand

/-- The doubles in an operand. -/
def floats : Operand → List Binary64
  | .const c => c.floats
  | .cast value _ => value.floats
  | _ => []

/-- Change the doubles in an operand. -/
def mapFloats (f : Binary64 → Binary64) : Operand → Operand
  | .const c => .const (c.mapFloats f)
  | .cast value ty => .cast (value.mapFloats f) ty
  | o => o

theorem mapFloats_eq_self {f : Binary64 → Binary64} {o : Operand} (h : ∀ x ∈ o.floats, f x = x) :
    o.mapFloats f = o := by
  induction o with
  | const c => rw [mapFloats, Constant.mapFloats_eq_self h]
  | cast value ty ih => rw [mapFloats, ih h]
  | _ => rfl

/-- The fields of a pointer cast. -/
def slots (value : Operand) (ty : Ty) : Slots :=
  ⟨[("value", some value.encode), ("to", some ty.encode)], by simp⟩

/-- An operand can be written. -/
theorem writable (o : Operand) : o.encode.Writable := by
  induction o with
  | inst id => exact .tagged _ (.nat id)
  | arg index => exact .tagged _ (.nat index)
  | const c => exact .tagged _ c.writable
  | func name => exact .tagged _ (.string name)
  | global name => exact .tagged _ (.string name)
  | cast value ty ih =>
      have hslots : (slots value ty).toJson.Writable := by
        refine Slots.writable ?_
        simpa [slots] using ⟨ih, ty.writable⟩
      exact .tagged _ hslots

theorem encode_ne_null (o : Operand) : o.encode ≠ .null := by
  cases o <;> exact nofun

/-- An operand comes back at any greater depth with its doubles as their texts are read. -/
theorem decode?_encode {d d' : Nat} (hd : d ≤ d') {j : Json} {o : Operand}
    (h : Operand.decode? d j = some o) :
    Operand.decode? d' o.encode = some (o.mapFloats Binary64.reread) := by
  induction d using Nat.strongRecOn generalizing d' j o with
  | ind d ih =>
      unfold decode? at h
      split at h
      · obtain ⟨n, hn, rfl⟩ := Option.map_eq_some_iff.1 h
        obtain ⟨e, rfl⟩ : ∃ e, d' = e + 1 := ⟨d' - 1, by omega⟩
        rw [encode, tagged, decode?, nat?_nat (lt_of_nat?_eq_some hn), Option.map_some]
        rfl
      · obtain ⟨n, hn, rfl⟩ := Option.map_eq_some_iff.1 h
        obtain ⟨e, rfl⟩ : ∃ e, d' = e + 1 := ⟨d' - 1, by omega⟩
        rw [encode, tagged, decode?, nat?_nat (lt_of_nat?_eq_some hn), Option.map_some]
        rfl
      · obtain ⟨c, hc, rfl⟩ := Option.map_eq_some_iff.1 h
        obtain ⟨e, rfl⟩ : ∃ e, d' = e + 1 := ⟨d' - 1, by omega⟩
        rw [encode, tagged, decode?, Constant.decode?_encode (by omega) hc, Option.map_some]
        rfl
      · obtain ⟨name, _, rfl⟩ := Option.map_eq_some_iff.1 h
        obtain ⟨e, rfl⟩ : ∃ e, d' = e + 1 := ⟨d' - 1, by omega⟩
        rw [encode, tagged, decode?]
        rfl
      · obtain ⟨name, _, rfl⟩ := Option.map_eq_some_iff.1 h
        obtain ⟨e, rfl⟩ : ∃ e, d' = e + 1 := ⟨d' - 1, by omega⟩
        rw [encode, tagged, decode?]
        rfl
      · simp only [Option.bind_eq_bind, Option.bind_eq_some_iff, Option.pure_def,
          Option.some.injEq] at h
        obtain ⟨fs, _, value, hvalue, ty, hty, rfl⟩ := h
        obtain ⟨_, hvalue⟩ := Fields.exists_of_required? hvalue
        obtain ⟨_, hty⟩ := Fields.exists_of_required? hty
        obtain ⟨e, rfl⟩ : ∃ e, d' = e + 2 := ⟨d' - 2, by omega⟩
        have hencode : (Operand.cast value ty).encode = tagged "Cast" (slots value ty).toJson := rfl
        rw [hencode, tagged, decode?, fields?_toJson]
        simp only [Option.bind_eq_bind, Option.bind_some]
        rw [Fields.required?_ofSlots rfl, ih _ (by omega) (by omega) hvalue,
          Fields.required?_ofSlots rfl, Ty.decode?_encode (by omega) hty]
        rfl
      · cases h

end Operand

theorem Convention.decode?_key (conv : Convention) (d : Nat) :
    Convention.decode? d (.string conv.key) = some conv :=
  choice?_string (by cases conv <;> rfl) d

theorem BinaryOp.decode?_name (op : BinaryOp) (d : Nat) :
    BinaryOp.decode? d (.string op.name) = some op :=
  choice?_string (by cases op <;> rfl) d

theorem CastOp.decode?_name (op : CastOp) (d : Nat) :
    CastOp.decode? d (.string op.name) = some op :=
  choice?_string (by cases op <;> rfl) d

namespace Loc

/-- The fields of a place. -/
def slots (l : Loc) : Slots :=
  ⟨[("line", some (.nat l.line)), ("column", some (.nat l.column)),
    ("scope", l.scope.map Json.string)], by simp⟩

/-- A place is written as the record of its fields. -/
theorem encode_eq (l : Loc) : l.encode = l.slots.toJson := by
  obtain ⟨line, column, _ | scope⟩ := l <;> rfl

theorem encode_ne_null (l : Loc) : l.encode ≠ .null := by
  rw [encode_eq]
  exact nofun

/-- A place can be written. -/
theorem writable (l : Loc) : l.encode.Writable := by
  rw [encode_eq]
  refine Slots.writable ?_
  simp only [slots, List.mem_cons, List.not_mem_nil, or_false, forall_eq_or_imp, forall_eq,
    Option.mem_def, Option.some.injEq, Option.map_eq_some_iff]
  refine ⟨?_, ?_, ?_⟩
  · rintro _ rfl
    exact .nat l.line
  · rintro _ rfl
    exact .nat l.column
  · rintro _ ⟨scope, _, rfl⟩
    exact .string scope

/-- A place is read back, at the depth it was read at or deeper. -/
theorem decode?_encode {d d' : Nat} (hd : d ≤ d') {j : Json} {l : Loc}
    (h : Loc.decode? d j = some l) : Loc.decode? d' l.encode = some l := by
  unfold decode? at h
  split at h
  · simp only [Option.bind_eq_bind, Option.bind_eq_some_iff, Option.pure_def,
      Option.some.injEq] at h
    obtain ⟨fs, _, line, hline, column, hcolumn, scope, _, rfl⟩ := h
    obtain ⟨_, hline⟩ := Fields.exists_of_required? hline
    obtain ⟨_, hcolumn⟩ := Fields.exists_of_required? hcolumn
    obtain ⟨e, rfl⟩ : ∃ e, d' = e + 1 := ⟨d' - 1, by omega⟩
    rw [encode_eq, decode?, fields?_toJson]
    simp only [Option.bind_eq_bind, Option.bind_some]
    rw [Fields.required?_ofSlots rfl, nat?_nat (lt_of_nat?_eq_some hline),
      Fields.required?_ofSlots rfl, nat?_nat (lt_of_nat?_eq_some hcolumn),
      Fields.optional?_ofSlots rfl]
    cases scope with
    | none => rfl
    | some scope => rfl
  · cases h

end Loc

namespace InstrKind

/-- The doubles in the operands. -/
def floats (k : InstrKind) : List Binary64 := k.operands.flatMap Operand.floats

/-- The fields of a call. -/
def callSlots (c : Call) : Slots :=
  ⟨[("callee", some c.callee.encode), ("fn_ty", some c.sig.encode),
    ("args", some (.arr (c.args.map Operand.encode))),
      ("conv", some (.string c.conv.key))], by simp⟩

/-- The fields of an arithmetic operation. -/
def binarySlots (op : BinaryOp) (lhs rhs : Operand) : Slots :=
  ⟨[("op", some (.string op.name)), ("lhs", some lhs.encode), ("rhs", some rhs.encode)], by simp⟩

/-- The fields of a conversion. -/
def castSlots (op : CastOp) (value : Operand) : Slots :=
  ⟨[("op", some (.string op.name)), ("value", some value.encode)], by simp⟩

/-- What an instruction does can be written. -/
theorem writable (k : InstrKind) : k.encode.Writable := by
  cases k with
  | call c =>
      have hslots : (callSlots c).toJson.Writable := by
        refine Slots.writable ?_
        simpa [callSlots] using ⟨c.callee.writable, c.sig.writable,
          Writable.map Operand.writable c.args, Writable.string c.conv.key⟩
      exact .tagged _ hslots
  | binary op lhs rhs =>
      have hslots : (binarySlots op lhs rhs).toJson.Writable := by
        refine Slots.writable ?_
        simpa [binarySlots] using ⟨Writable.string op.name, lhs.writable, rhs.writable⟩
      exact .tagged _ hslots
  | cast op value =>
      have hslots : (castSlots op value).toJson.Writable := by
        refine Slots.writable ?_
        simpa [castSlots] using ⟨Writable.string op.name, value.writable⟩
      exact .tagged _ hslots
  | ret value => exact .tagged _ (.ofOption fun o _ => o.writable)

/-- What an instruction does comes back with the doubles in its operands as their texts are read. -/
theorem decode?_encode {d d' : Nat} (hd : d ≤ d') {j : Json} {k : InstrKind}
    (h : InstrKind.decode? d j = some k) :
    InstrKind.decode? d' k.encode = some (k.mapOperands (Operand.mapFloats Binary64.reread)) := by
  unfold decode? at h
  split at h
  · simp only [Option.bind_eq_bind, Option.bind_eq_some_iff, Option.pure_def,
      Option.some.injEq] at h
    obtain ⟨fs, _, callee, hcallee, sig, hsig, args, hargs, conv, _, rfl⟩ := h
    obtain ⟨_, hcallee⟩ := Fields.exists_of_required? hcallee
    obtain ⟨_, hsig⟩ := Fields.exists_of_required? hsig
    obtain ⟨_, hargs⟩ := Fields.exists_of_required? hargs
    obtain ⟨e, rfl⟩ : ∃ e, d' = e + 2 := ⟨d' - 2, by omega⟩
    have hargs' : list? Operand.decode? e (.arr (args.map Operand.encode)) =
        some (args.map (Operand.mapFloats Binary64.reread)) :=
      list?_map (by omega) hargs Operand.decode?_encode
    have hencode : (call ⟨callee, sig, args, conv⟩).encode =
        tagged "Call" (callSlots ⟨callee, sig, args, conv⟩).toJson := rfl
    rw [hencode, tagged, decode?, fields?_toJson]
    simp only [Option.bind_eq_bind, Option.bind_some]
    rw [Fields.required?_ofSlots rfl, Operand.decode?_encode (by omega) hcallee,
      Fields.required?_ofSlots rfl, Signature.decode?_encode (by omega) hsig,
      Fields.required?_ofSlots rfl, hargs', Fields.optional?_ofSlots rfl, Option.elim_some,
      Convention.decode?_key]
    rfl
  · simp only [Option.bind_eq_bind, Option.bind_eq_some_iff, Option.pure_def,
      Option.some.injEq] at h
    obtain ⟨fs, _, op, _, lhs, hlhs, rhs, hrhs, rfl⟩ := h
    obtain ⟨_, hlhs⟩ := Fields.exists_of_required? hlhs
    obtain ⟨_, hrhs⟩ := Fields.exists_of_required? hrhs
    obtain ⟨e, rfl⟩ : ∃ e, d' = e + 2 := ⟨d' - 2, by omega⟩
    have hencode : (binary op lhs rhs).encode = tagged "Binary" (binarySlots op lhs rhs).toJson :=
      rfl
    rw [hencode, tagged, decode?, fields?_toJson]
    simp only [Option.bind_eq_bind, Option.bind_some]
    rw [Fields.required?_ofSlots rfl, BinaryOp.decode?_name, Fields.required?_ofSlots rfl,
      Operand.decode?_encode (by omega) hlhs, Fields.required?_ofSlots rfl,
      Operand.decode?_encode (by omega) hrhs]
    rfl
  · simp only [Option.bind_eq_bind, Option.bind_eq_some_iff, Option.pure_def,
      Option.some.injEq] at h
    obtain ⟨fs, _, op, _, value, hvalue, rfl⟩ := h
    obtain ⟨_, hvalue⟩ := Fields.exists_of_required? hvalue
    obtain ⟨e, rfl⟩ : ∃ e, d' = e + 2 := ⟨d' - 2, by omega⟩
    have hencode : (cast op value).encode = tagged "Cast" (castSlots op value).toJson := rfl
    rw [hencode, tagged, decode?, fields?_toJson]
    simp only [Option.bind_eq_bind, Option.bind_some]
    rw [Fields.required?_ofSlots rfl, CastOp.decode?_name, Fields.required?_ofSlots rfl,
      Operand.decode?_encode (by omega) hvalue]
    rfl
  · obtain ⟨value, hvalue, rfl⟩ := Option.map_eq_some_iff.1 h
    obtain ⟨e, rfl⟩ : ∃ e, d' = e + 1 := ⟨d' - 1, by omega⟩
    have hvalue' : orNull? (Operand.decode? e) (.ofOption Operand.encode value) =
        some (value.map (Operand.mapFloats Binary64.reread)) := by
      refine orNull?_ofOption_map Operand.encode_ne_null fun o ho => ?_
      cases ho
      exact Operand.decode?_encode (by omega) (orNull?_eq_some_some hvalue)
    rw [encode, tagged, decode?, hvalue', Option.map_some]
    rfl
  · cases h

end InstrKind

namespace Instr

/-- The doubles in an instruction. -/
def floats (i : Instr) : List Binary64 := i.kind.floats

/-- Change the doubles in an instruction. -/
def mapFloats (f : Binary64 → Binary64) (i : Instr) : Instr := i.mapOperands (Operand.mapFloats f)

theorem mapFloats_eq_self {f : Binary64 → Binary64} {i : Instr} (h : ∀ x ∈ i.floats, f x = x) :
    i.mapFloats f = i := by
  have hoperands : ∀ o ∈ i.operands, o.mapFloats f = o := fun o ho =>
    Operand.mapFloats_eq_self fun x hx => h x (List.mem_flatMap.2 ⟨o, ho, hx⟩)
  rw [mapFloats, mapOperands_congr hoperands, mapOperands_self]

/-- The fields of an instruction. -/
def slots (i : Instr) : Slots :=
  ⟨[("id", some (.nat i.id)), ("name", if i.name.isEmpty then none else some (.string i.name)),
    ("ty", some i.ty.encode), ("kind", some i.kind.encode), ("loc", i.loc.map Loc.encode)], by simp⟩

/-- An instruction is written as the record of its fields. -/
theorem encode_eq (i : Instr) : i.encode = i.slots.toJson := by
  obtain ⟨id, name, ty, kind, loc⟩ := i
  cases hname : name.isEmpty with
  | true => cases loc <;> simp [encode, slots, Slots.toJson, Slots.given, hname]
  | false => cases loc <;> simp [encode, slots, Slots.toJson, Slots.given, hname]

/-- An instruction can be written. -/
theorem writable (i : Instr) : i.encode.Writable := by
  rw [encode_eq]
  refine Slots.writable ?_
  simp only [slots, List.mem_cons, List.not_mem_nil, or_false, forall_eq_or_imp, forall_eq,
    Option.mem_def, Option.some.injEq, Option.map_eq_some_iff, Option.ite_none_left_eq_some]
  refine ⟨?_, ?_, ?_, ?_, ?_⟩
  · rintro _ rfl
    exact .nat i.id
  · rintro _ ⟨_, rfl⟩
    exact .string i.name
  · rintro _ rfl
    exact i.ty.writable
  · rintro _ rfl
    exact i.kind.writable
  · rintro _ ⟨l, _, rfl⟩
    exact l.writable

/-- An instruction comes back with its doubles as their texts are read. -/
theorem decode?_encode {d d' : Nat} (hd : d ≤ d') {j : Json} {i : Instr}
    (h : Instr.decode? d j = some i) :
    Instr.decode? d' i.encode = some (i.mapFloats Binary64.reread) := by
  unfold decode? at h
  split at h
  · simp only [Option.bind_eq_bind, Option.bind_eq_some_iff, Option.pure_def,
      Option.some.injEq] at h
    obtain ⟨fs, _, id, hid, name, _, ty, hty, kind, hkind, loc, hloc, rfl⟩ := h
    obtain ⟨_, hid⟩ := Fields.exists_of_required? hid
    obtain ⟨_, hty⟩ := Fields.exists_of_required? hty
    obtain ⟨_, hkind⟩ := Fields.exists_of_required? hkind
    obtain ⟨e, rfl⟩ : ∃ e, d' = e + 1 := ⟨d' - 1, by omega⟩
    have hname : (if name.isEmpty then none else some (Json.string name)).elim (some "") string? =
        some name := by
      split
      · rename_i hempty
        rw [String.isEmpty_iff.1 hempty]
        rfl
      · rfl
    have hloc' : (loc.map Loc.encode).elim (some none) (orNull? (Loc.decode? e)) = some loc := by
      refine elim_map_orNull? Loc.encode_ne_null fun l hl => ?_
      obtain ⟨_, hl'⟩ := Fields.exists_of_mem_optional? hloc hl
      exact Loc.decode?_encode (by omega) hl'
    rw [encode_eq, decode?, fields?_toJson]
    simp only [Option.bind_eq_bind, Option.bind_some]
    rw [Fields.required?_ofSlots rfl, nat?_nat (lt_of_nat?_eq_some hid),
      Fields.optional?_ofSlots rfl, hname, Fields.required?_ofSlots rfl,
      Ty.decode?_encode (by omega) hty, Fields.required?_ofSlots rfl,
      InstrKind.decode?_encode (by omega) hkind, Fields.optional?_ofSlots rfl, hloc']
    rfl
  · cases h

end Instr

namespace Block

/-- The doubles in a block. -/
def floats (b : Block) : List Binary64 := b.instrs.flatMap Instr.floats

/-- Change the doubles in a block. -/
def mapFloats (f : Binary64 → Binary64) (b : Block) : Block := b.mapInstrs (Instr.mapFloats f)

theorem mapFloats_eq_self {f : Binary64 → Binary64} {b : Block} (h : ∀ x ∈ b.floats, f x = x) :
    b.mapFloats f = b := by
  have hinstrs : ∀ i ∈ b.instrs, i.mapFloats f = i := fun i hi =>
    Instr.mapFloats_eq_self fun x hx => h x (List.mem_flatMap.2 ⟨i, hi, hx⟩)
  rw [mapFloats, mapInstrs, List.map_congr_left hinstrs, List.map_id']

/-- The fields of a block. -/
def slots (b : Block) : Slots :=
  ⟨[("label", some (.string b.label)), ("insts", some (.arr (b.instrs.map Instr.encode)))], by simp⟩

theorem encode_eq (b : Block) : b.encode = b.slots.toJson := rfl

/-- A block can be written. -/
theorem writable (b : Block) : b.encode.Writable := by
  rw [encode_eq]
  refine Slots.writable ?_
  simpa [slots] using ⟨Writable.string b.label, Writable.map Instr.writable b.instrs⟩

/-- A block comes back with its doubles as their texts are read. -/
theorem decode?_encode {d d' : Nat} (hd : d ≤ d') {j : Json} {b : Block}
    (h : Block.decode? d j = some b) :
    Block.decode? d' b.encode = some (b.mapFloats Binary64.reread) := by
  unfold decode? at h
  split at h
  · simp only [Option.bind_eq_bind, Option.bind_eq_some_iff, Option.pure_def,
      Option.some.injEq] at h
    obtain ⟨fs, _, label, _, instrs, hinstrs, rfl⟩ := h
    obtain ⟨_, hinstrs⟩ := Fields.exists_of_required? hinstrs
    obtain ⟨e, rfl⟩ : ∃ e, d' = e + 1 := ⟨d' - 1, by omega⟩
    have hinstrs' : list? Instr.decode? e (.arr (instrs.map Instr.encode)) =
        some (instrs.map (Instr.mapFloats Binary64.reread)) :=
      list?_map (by omega) hinstrs Instr.decode?_encode
    rw [encode_eq, decode?, fields?_toJson]
    simp only [Option.bind_eq_bind, Option.bind_some]
    rw [Fields.required?_ofSlots rfl, Fields.required?_ofSlots rfl, hinstrs']
    rfl
  · cases h

end Block

namespace Blocks

/-- The doubles in a body. -/
def floats (bs : Blocks) : List Binary64 := bs.flatMap Block.floats

/-- Change the doubles in a body. -/
def mapFloats (f : Binary64 → Binary64) (bs : Blocks) : Blocks := bs.map (Block.mapFloats f)

theorem mapFloats_eq_self {f : Binary64 → Binary64} {bs : Blocks} (h : ∀ x ∈ bs.floats, f x = x) :
    bs.mapFloats f = bs := by
  have hblocks : ∀ b ∈ bs, b.mapFloats f = b := fun b hb =>
    Block.mapFloats_eq_self fun x hx => h x (List.mem_flatMap.2 ⟨b, hb, hx⟩)
  rw [mapFloats, List.map_congr_left hblocks, List.map_id']

/-- A body can be written. -/
theorem writable (bs : Blocks) : bs.encode.Writable := .map Block.writable bs

/-- The blocks of a body come back with their doubles as the texts of these are read. -/
theorem decode?_encode {d d' : Nat} (hd : d ≤ d') {j : Json} {bs : Blocks}
    (h : Blocks.decode? d j = some bs) :
    Blocks.decode? d' bs.encode = some (bs.mapFloats Binary64.reread) :=
  list?_map hd h Block.decode?_encode

end Blocks

end Postlink

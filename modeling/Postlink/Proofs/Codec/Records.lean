import Mathlib.Data.List.Nodup
import Postlink.Codec.Modules
import Postlink.Proofs.Decimal.Rereading
import Postlink.Proofs.Json.Reading

/-!
# Fields and lists are decoded as they are encoded

Laws for the parts that data forms are made of: numbers, choices, lists, and records some of whose
fields are left out (`Slots`). What a record says about a field is what was put there. A double may
come back as a neighbour of itself, so lists and values that may be missing come back with their
items changed, and the doubles that come back unchanged are named (`Binary64.Survives`).
-/

namespace Postlink

open Json

namespace Interval

/-- The multiple chosen on a grid is above zero if the interval is. -/
theorem ne_zero_of_onGrid? {i : Interval} (hlow : 0 < i.low) {tie : Tie} {k : Int} {n : Nat}
    (h : i.onGrid? tie k = some n) : n ≠ 0 := by
  have hscale : 0 < i.low * i.scale k :=
    Nat.mul_pos hlow (Nat.mul_pos (Nat.pow_pos (by decide)) (Nat.pow_pos (by decide)))
  rcases onGrid?_cases h with ⟨_, hin⟩ | ⟨hne, _⟩
  · rintro rfl
    omega
  · exact hne

/-- The shortest decimal in an interval of positive numbers is not zero. -/
theorem ne_zero_of_shortest? {i : Interval} (hlow : 0 < i.low) {tie : Tie} {n : Nat} {k : Int}
    (h : i.shortest? tie = some (n, k)) : n ≠ 0 :=
  ne_zero_of_onGrid? hlow (onGrid?_of_shortest? h)

end Interval

/-- The interval of a double that is not zero has only positive numbers. -/
theorem Binary64.low_interval_pos {x : Binary64} (h : x.isZero = false) : 0 < x.interval.low := by
  simp only [isZero, Bool.and_eq_false_iff, beq_eq_false_iff_ne] at h
  simp only [interval]
  split
  · split <;> omega
  · split <;> omega

namespace Layout

/-- Digits without a leading zero have none before the point, unless it stands alone. -/
theorem isWhole_place (l : Layout) (negative : Bool) {ds : List Digit} (hne : ds ≠ [])
    (hhead : ds.head? ≠ some Digit.zero) (e : Int) :
    isWhole (l.place negative ds e).whole = true := by
  unfold place
  split
  · split
    · rfl
    · cases ds with
      | nil => exact absurd rfl hne
      | cons d ds =>
          dsimp only
          rw [List.take_succ_cons, List.cons_append]
          exact isWhole_of_head? (List.cons_ne_nil _ _) hhead
  · cases ds with
    | nil => exact absurd rfl hne
    | cons d ds => rfl

/-- A double is written with a whole part. -/
theorem isWhole_decimal (l : Layout) (x : Binary64) : isWhole (l.decimal x).whole = true := by
  unfold decimal
  split
  · rfl
  · rename_i hzero
    have hlow := Binary64.low_interval_pos (Bool.eq_false_iff.2 hzero)
    split
    · rfl
    · rename_i n k hshortest
      have hn := Interval.ne_zero_of_shortest? hlow hshortest
      exact l.isWhole_place _ (Digit.ofNat_ne_nil n) (Digit.head?_ofNat_ne_zero hn) _

end Layout

namespace Json

theorem Writable.nat (n : Nat) : (Json.nat n).Writable := .num (isWhole_ofNat n)

theorem Writable.binary64 (x : Binary64) : (Json.binary64 x).Writable := by
  unfold Json.binary64
  split
  · exact .num (Layout.data.isWhole_decimal x)
  · exact .null

theorem Writable.tagged (name : String) {payload : Json} (h : payload.Writable) :
    (Json.tagged name payload).Writable := by
  have hfields : ∀ f ∈ [(name, payload)], f.2.Writable := by simpa using h
  exact .record hfields

theorem Writable.map {α : Type} {f : α → Json} (h : ∀ a, (f a).Writable) (as : List α) :
    (Json.arr (as.map f)).Writable := by
  refine .arr fun j hj => ?_
  obtain ⟨a, _, rfl⟩ := List.mem_map.1 hj
  exact h a

theorem Writable.ofOption {α : Type} {f : α → Json} {o : Option α} (h : ∀ a ∈ o, (f a).Writable) :
    (Json.ofOption f o).Writable := by
  cases o with
  | none => exact .null
  | some a => exact h a rfl

/-- The fields of a record in order, each with its value or left out. -/
structure Slots where
  /-- Names and values. -/
  fields : List (String × Option Json)
  /-- No name comes twice. -/
  distinct : (fields.map Prod.fst).Nodup

namespace Slots

/-- The fields that are not left out. -/
def given (slots : Slots) : List (String × Json) :=
  slots.fields.filterMap fun s => s.2.map (Prod.mk s.1)

/-- The record as an object. -/
def toJson (slots : Slots) : Json := .record slots.given

/-- The fields that are given are those with a value. -/
theorem mem_given {slots : Slots} {f : String × Json} :
    f ∈ slots.given ↔ (f.1, some f.2) ∈ slots.fields := by
  rw [given, List.mem_filterMap]
  constructor
  · rintro ⟨s, hs, hf⟩
    obtain ⟨j, hj, rfl⟩ := Option.map_eq_some_iff.1 hf
    rwa [← hj]
  · intro hf
    exact ⟨_, hf, rfl⟩

/-- A record can be written if its fields can. -/
theorem writable {slots : Slots} (h : ∀ s ∈ slots.fields, ∀ j ∈ s.2, j.Writable) :
    slots.toJson.Writable :=
  .record fun f hf => h _ (mem_given.1 hf) f.2 rfl

/-- The fields that are given stand in the order of all fields. -/
theorem names_given_sublist (slots : Slots) :
    (slots.given.map Prod.fst).Sublist (slots.fields.map Prod.fst) := by
  rw [given]
  induction slots.fields with
  | nil => exact List.Sublist.slnil
  | cons s fields ih =>
      obtain ⟨name, _ | j⟩ := s
      · exact ih.cons _
      · exact ih.cons_cons _

end Slots

/-- The fields of a record that is an object. -/
def Fields.ofSlots (slots : Slots) : Fields := .named (slots.given.map fun f => (some f.1, f.2))

/-- The fields of a record are read back from its object. -/
theorem fields?_toJson (slots : Slots) (names : List String) :
    fields? names slots.toJson = some (.ofSlots slots) := by
  have honce : ∀ n, (slots.given.map fun f => ((some f.1 : Option String), f.2)).countP
      (fun m => m.1 == some n) ≤ 1 := by
    intro n
    have hcount := List.nodup_iff_count_le_one.1 (slots.distinct.sublist slots.names_given_sublist)
      n
    rw [List.count, List.countP_map] at hcount
    rw [List.countP_map]
    exact hcount
  rw [Slots.toJson, record, fields?, if_pos]
  · rfl
  · simp only [Bool.and_eq_true, List.all_eq_true, decide_eq_true_eq]
    refine ⟨?_, fun n _ => honce n⟩
    intro m hm
    obtain ⟨f, _, rfl⟩ := List.mem_map.1 hm
    rfl

namespace Fields

variable {slots : Slots} {name : String}

/-- What a record says about a field is what was put there. -/
theorem slot_ofSlots {v : Option Json} (hv : slots.fields.lookup name = some v) :
    (ofSlots slots).slot name = v.elim .omitted .given := by
  have hmem : (name, v) ∈ slots.fields := by
    obtain ⟨l, r, hfields, _⟩ := List.lookup_eq_some_iff.1 hv
    rw [hfields]
    exact List.mem_append_right _ (List.mem_cons_self ..)
  have hsame : ∀ w, (name, w) ∈ slots.fields → w = v := by
    intro w hw
    have hpair := List.inj_on_of_nodup_map slots.distinct hw hmem rfl
    exact congrArg Prod.snd hpair
  unfold slot ofSlots
  dsimp only
  cases hfind : (slots.given.map fun f => ((some f.1 : Option String), f.2)).find?
      (fun m => m.1 == some name) with
  | some m =>
      obtain ⟨f, hf, rfl⟩ := List.mem_map.1 (List.mem_of_find?_eq_some hfind)
      have hname : f.1 = name := by simpa using List.find?_some hfind
      rw [← hsame (some f.2) (hname ▸ Slots.mem_given.1 hf)]
      rfl
  | none =>
      cases v with
      | none => rfl
      | some j =>
          have hgiven : (name, j) ∈ slots.given := Slots.mem_given.2 hmem
          exact absurd (beq_self_eq_true _)
            (List.find?_eq_none.1 hfind _ (List.mem_map_of_mem hgiven))

variable {α : Type} {dec : Json → Option α}

/-- A required field is read from its value. -/
theorem required?_ofSlots {j : Json} (hj : slots.fields.lookup name = some (some j)) :
    (ofSlots slots).required? name dec = dec j := by
  rw [required?, slot_ofSlots hj]
  rfl

/-- An optional field is read from its value, or has its default. -/
theorem optional?_ofSlots {v : Option Json} (hv : slots.fields.lookup name = some v) (default : α) :
    (ofSlots slots).optional? name default dec = v.elim (some default) dec := by
  rw [optional?, slot_ofSlots hv]
  cases v with
  | none => rfl
  | some j => rfl

/-- A field that may be null is read from its value. -/
theorem omissible?_ofSlots {j : Json} (hj : slots.fields.lookup name = some (some j)) :
    (ofSlots slots).omissible? name dec = orNull? dec j := by
  rw [omissible?, slot_ofSlots hj]
  rfl

variable {fs : Fields} {a default : α}

/-- The value of a required field was read from something. -/
theorem exists_of_required? (h : fs.required? name dec = some a) : ∃ j, dec j = some a := by
  unfold required? at h
  split at h
  · exact ⟨_, h⟩
  · cases h

/-- The value of an optional field is its default or was read from something. -/
theorem eq_or_exists_of_optional? (h : fs.optional? name default dec = some a) :
    a = default ∨ ∃ j, dec j = some a := by
  unfold optional? at h
  split at h
  · exact Or.inr ⟨_, h⟩
  · exact Or.inl (Option.some.inj h).symm

end Fields

/-- A number that was read lies below the bound. -/
theorem lt_of_nat?_eq_some {bound n : Nat} {j : Json} (h : nat? bound j = some n) : n < bound := by
  cases j with
  | num d => exact Decimal.lt_of_toNat?_eq_some h
  | _ => cases h

theorem nat?_nat {bound n : Nat} (h : n < bound) : nat? bound (.nat n) = some n :=
  Decimal.toNat?_ofNat h

/-- What is there and was read was not null. -/
theorem orNull?_eq_some_some {α : Type} {dec : Json → Option α} {j : Json} {a : α}
    (h : orNull? dec j = some (some a)) : dec j = some a := by
  unfold orNull? at h
  split at h
  · cases h
  · obtain ⟨b, hb, heq⟩ := Option.map_eq_some_iff.1 h
    cases heq
    exact hb

/-- A value that is there is decoded as such. -/
theorem orNull?_of_ne_null {α : Type} {dec : Json → Option α} {j : Json} {a : α}
    (h : dec j = some a) (hj : j ≠ .null) : orNull? dec j = some (some a) := by
  unfold orNull?
  split
  · exact absurd rfl hj
  · rw [h, Option.map_some]

section Missing

variable {α : Type} {dec : Json → Option α} {enc : α → Json} {o : Option α}

/-- A value that may be missing comes back changed, unless its own data form says that it is
missing. -/
theorem orNull?_ofOption_map {f : α → α} (hnull : ∀ a, enc a ≠ .null)
    (h : ∀ a ∈ o, dec (enc a) = some (f a)) : orNull? dec (.ofOption enc o) = some (o.map f) := by
  cases o with
  | none => rfl
  | some a => exact orNull?_of_ne_null (h a rfl) (hnull a)

/-- An optional value is read back, if no value is written as null. -/
theorem orNull?_ofOption (hnull : ∀ a, enc a ≠ .null) (h : ∀ a ∈ o, dec (enc a) = some a) :
    orNull? dec (.ofOption enc o) = some o := by
  rw [orNull?_ofOption_map hnull h, Option.map_id']

/-- A value comes back changed from a field that is left out where the value is missing. -/
theorem elim_map_orNull?_map {f : α → α} (hnull : ∀ a, enc a ≠ .null)
    (h : ∀ a ∈ o, dec (enc a) = some (f a)) :
    (o.map enc).elim (some none) (orNull? dec) = some (o.map f) := by
  cases o with
  | none => rfl
  | some a => exact orNull?_of_ne_null (h a rfl) (hnull a)

/-- An optional value is read back also where its absence leaves the field out. -/
theorem elim_map_orNull? (hnull : ∀ a, enc a ≠ .null) (h : ∀ a ∈ o, dec (enc a) = some a) :
    (o.map enc).elim (some none) (orNull? dec) = some o := by
  rw [elim_map_orNull?_map hnull h, Option.map_id']

/-- A value in an optional field was read from something. -/
theorem Fields.exists_of_mem_optional? {fs : Fields} {name : String}
    (h : fs.optional? name none (orNull? dec) = some o) {a : α} (ha : a ∈ o) :
    ∃ j, dec j = some a := by
  cases ha
  obtain hdefault | ⟨j, hj⟩ := eq_or_exists_of_optional? h
  · cases hdefault
  · exact ⟨j, orNull?_eq_some_some hj⟩

end Missing

/-- Every item of a list that was decoded was decoded. -/
theorem exists_of_mem_items? {α : Type} {dec : Json → Option α} {j : Json} {as : List α}
    (h : items? dec j = some as) {a : α} (ha : a ∈ as) : ∃ j, dec j = some a := by
  cases j with
  | arr items =>
      replace h : items.mapM dec = some as := h
      induction items generalizing as with
      | nil =>
          cases h
          cases ha
      | cons j items ih =>
          rw [List.mapM_cons] at h
          obtain ⟨b, hb, h⟩ := Option.bind_eq_some_iff.1 h
          obtain ⟨bs, hbs, h⟩ := Option.bind_eq_some_iff.1 h
          cases h
          rcases List.mem_cons.1 ha with rfl | ha
          · exact ⟨j, hb⟩
          · exact ih ha hbs
  | _ => cases h

/-- Reading element by element, if every element can be read. -/
theorem mapM_eq_some_map {α β : Type} {f : α → Option β} {g : α → β} {as : List α}
    (h : ∀ a ∈ as, f a = some (g a)) : as.mapM f = some (as.map g) := by
  induction as with
  | nil => rfl
  | cons a as ih =>
      rw [List.mapM_cons, h a (List.mem_cons_self ..),
        ih fun b hb => h b (List.mem_cons_of_mem _ hb)]
      rfl

/-- A list comes back changed as its items do. -/
theorem items?_arr_map {α : Type} {dec : Json → Option α} {enc : α → Json} {f : α → α} {as : List α}
    (h : ∀ a ∈ as, dec (enc a) = some (f a)) :
    items? dec (.arr (as.map enc)) = some (as.map f) := by
  rw [items?, List.mapM_map]
  exact mapM_eq_some_map h

/-- A list is read back if its elements are. -/
theorem items?_arr {α : Type} {dec : Json → Option α} {enc : α → Json} {as : List α}
    (h : ∀ a ∈ as, dec (enc a) = some a) : items? dec (.arr (as.map enc)) = some as := by
  rw [items?_arr_map h, List.map_id']

/-- A list that was decoded comes back if its items do. -/
theorem items?_map {α : Type} {dec dec' : Json → Option α} {enc : α → Json} {j : Json} {as : List α}
    (h : items? dec j = some as)
    (hitem : ∀ a ∈ as, ∀ j, dec j = some a → dec' (enc a) = some a) :
    items? dec' (.arr (as.map enc)) = some as := by
  refine items?_arr fun a ha => ?_
  obtain ⟨i, hi⟩ := exists_of_mem_items? h ha
  exact hitem a ha i hi

/-- The elements of a list were read one level deeper. -/
theorem exists_of_mem_list? {α : Type} {dec : Nat → Json → Option α} {d : Nat} {j : Json}
    {as : List α} (h : list? dec d j = some as) {a : α} (ha : a ∈ as) :
    ∃ e, d = e + 1 ∧ ∃ j, dec e j = some a := by
  cases d with
  | zero => cases h
  | succ e => exact ⟨e, rfl, exists_of_mem_items? h ha⟩

/-- A list comes back changed at any depth at which its items do. -/
theorem list?_map {α : Type} {dec : Nat → Json → Option α} {enc : α → Json} {f : α → α} {d d' : Nat}
    (hd : d ≤ d') {j : Json} {as : List α} (h : list? dec d j = some as)
    (hitem : ∀ {e e' : Nat}, e ≤ e' → ∀ {j : Json} {a : α}, dec e j = some a →
      dec e' (enc a) = some (f a)) :
    list? dec d' (.arr (as.map enc)) = some (as.map f) := by
  cases d with
  | zero => cases h
  | succ d =>
      obtain ⟨e, rfl⟩ : ∃ e, d' = e + 1 := ⟨d' - 1, by omega⟩
      refine items?_arr_map fun a ha => ?_
      obtain ⟨i, hi⟩ := exists_of_mem_items? h ha
      exact hitem (by omega) hi

/-- A choice comes back from its name. -/
theorem choice?_string {α : Type} {all : List α} {name : α → String} {a : α}
    (h : all.find? (fun b => name b = name a) = some a) (d : Nat) :
    choice? all name d (.string (name a)) = some a := by
  cases d with
  | zero => exact h
  | succ d => exact h

end Json

/-- A double that is read from its text as it was written. -/
def Binary64.Survives (x : Binary64) : Prop :=
  (parse? (utf8 (Json.binary64 x).compact)).bind binary64? = some x

instance (x : Binary64) : Decidable x.Survives :=
  inferInstanceAs (Decidable ((parse? (utf8 (Json.binary64 x).compact)).bind binary64? = some x))

/-- A double that survives is read as itself. -/
theorem Binary64.Survives.reread_eq {x : Binary64} (h : x.Survives) : x.reread = x := by
  rw [Survives, parse?_compact (.binary64 x), Option.bind_some] at h
  exact (Option.some.inj (h.symm.trans (binary64?_of_eq_some h))).symm

end Postlink

import Mathlib.Data.List.Forall2
import Postlink.Proofs.Json.Tokens

/-!
# Written values are read back

A text writes a value if the reader, wherever it may find a value and whatever may follow, takes the
text for that value (`Writes`). Numbers and strings do by their tokens, arrays and objects if their
parts do, with or without blanks between them. So both forms that a value is written in are read as
the value again (`parse?_compact`, `parse?_indented`).
-/

namespace Postlink.Json

namespace State

/-- A token takes the reader one step further. -/
theorem run?_token {p s : List UInt8} {t : Token} (h : Lexes p t s) (st : State) :
    st.run? (p ++ s) = (st.step? t).bind fun st' => st'.run? s := by
  obtain ⟨b, r, rfl, hblank, htoken⟩ := h
  rw [List.cons_append, run?, if_neg (by simp [hblank])]
  split
  · rename_i hnone
    rw [htoken] at hnone
    cases hnone
  · rename_i r' hsome
    rw [htoken] at hsome
    cases hsome
    cases st.step? t with
    | none => rfl
    | some st' => rfl

/-- A mark takes the reader one step further. -/
theorem run?_mark {b : UInt8} {t : Token} (hb : isBlank b = false)
    (ht : ∀ s, token? b s = some (t, s)) {st st' : State} (hstep : st.step? t = some st')
    (s : List UInt8) : st.run? (b :: s) = st'.run? s := by
  have hrun := run?_token ⟨b, [], rfl, hb, ht s⟩ st
  rw [hstep, Option.bind_some] at hrun
  exact hrun

/-- Blanks in front of anything are skipped. -/
theorem run?_blanks {blanks : List UInt8} (h : ∀ b ∈ blanks, isBlank b = true) (st : State)
    (s : List UInt8) : st.run? (blanks ++ s) = st.run? s := by
  induction blanks with
  | nil => rfl
  | cons b blanks ih =>
      rw [List.cons_append, run?, if_pos (h b (List.mem_cons_self ..))]
      exact ih fun b' hb' => h b' (List.mem_cons_of_mem _ hb')

/-- A value may come next, inside some containers. -/
def Reads (st : State) (outer : List Frame) : Prop :=
  ∀ t, t ≠ .arrClose → st.step? t = enter? outer t

theorem reads_value (outer : List Frame) : (value outer).Reads outer := fun _ _ => rfl

theorem reads_firstItem (outer : List Frame) : (firstItem outer).Reads (.items [] :: outer) := by
  intro t ht
  cases t with
  | arrClose => exact absurd rfl ht
  | _ => rfl

end State

/-- The reader takes a text for a value. -/
def Writes (p : List UInt8) (j : Json) : Prop :=
  ∀ (st : State) (outer : List Frame) (s : List UInt8), st.Reads outer → Ends s →
    st.run? (p ++ s) = (State.complete outer j).run? s

/-- A text that is a token for a leaf is read as that value. -/
theorem writes_leaf {p : List UInt8} {j : Json} (h : ∀ s, Ends s → Lexes p (.leaf j) s) :
    Writes p j := by
  intro st outer s hst hs
  rw [State.run?_token (h s hs), hst _ (by simp)]
  rfl

/-- A quoted string is read as the string. -/
theorem writes_quote (s : String) : Writes (utf8 (quote s)) (.string s) := by
  intro st outer rest hst _
  rw [State.run?_token (lexes_quote s rest), hst _ (by simp)]
  rfl

theorem writes_null : Writes (utf8 "null") .null :=
  writes_leaf fun _ _ => ⟨110, [117, 108, 108], by decide, rfl, rfl⟩

/-- A truth value is read from its name. -/
theorem writes_bool (b : Bool) : Writes (utf8 (if b then "true" else "false")) (.bool b) := by
  cases b with
  | true => exact writes_leaf fun _ _ => ⟨116, [114, 117, 101], by decide, rfl, rfl⟩
  | false => exact writes_leaf fun _ _ => ⟨102, [97, 108, 115, 101], by decide, rfl, rfl⟩

/-- A number is read from its text. -/
theorem writes_num {d : Decimal} (h : isWhole d.whole = true) :
    Writes (utf8 (d.text true)) (.num d) :=
  writes_leaf fun _ hs => lexes_text h hs

/-- How the reader goes through a container: an array or an object. -/
structure Walk (α : Type) where
  /-- The closing mark. -/
  closing : UInt8
  /-- The state after the opening mark. -/
  first : State
  /-- The state after a comma, with the elements before it in reverse. -/
  next : List α → State
  /-- The state after an element. -/
  after : List α → State
  /-- The state after the closing mark. -/
  finish : List α → State
  /-- The closing mark ends a value inside the container. -/
  ends : closing ∈ [10, 44, 93, 125]
  /-- The container may be empty. -/
  close_first : ∀ s, first.run? (closing :: s) = (finish []).run? s
  /-- Elements are separated by commas. -/
  comma : ∀ done, (after done).step? .comma = some (next done)
  /-- The container may end after an element. -/
  close : ∀ done s, (after done).run? (closing :: s) = (finish done.reverse).run? s

/-- The walk through an array. -/
def Walk.items (outer : List Frame) : Walk Json where
  closing := 93
  first := .firstItem outer
  next done := .value (.items done :: outer)
  after := .afterItem outer
  finish js := .complete outer (.arr js)
  ends := by decide
  close_first := State.run?_mark (t := .arrClose) rfl (fun _ => rfl) rfl
  comma := fun _ => rfl
  close := fun _ => State.run?_mark (t := .arrClose) rfl (fun _ => rfl) rfl

/-- The walk through an object. -/
def Walk.members (outer : List Frame) : Walk (Option String × Json) where
  closing := 125
  first := .firstName outer
  next := .nextName outer
  after := .afterMember outer
  finish ms := .complete outer (.obj ms)
  ends := by decide
  close_first := State.run?_mark (t := .objClose) rfl (fun _ => rfl) rfl
  comma := fun _ => rfl
  close := fun _ => State.run?_mark (t := .objClose) rfl (fun _ => rfl) rfl

/-- Blanks between the parts of a container: none, or the end of a line and more. -/
structure Gap (blanks : List UInt8) : Prop where
  /-- There are only blanks. -/
  isBlank : ∀ b ∈ blanks, isBlank b = true
  /-- The first one ends a line. -/
  head : ∀ b ∈ blanks.head?, b = 10

/-- The parts of a container after its opening mark, with blanks in front of each part and in front
of the closing mark. -/
def listed (closing : UInt8) (gap last : List UInt8) : List (List UInt8) → List UInt8
  | [] => [closing]
  | p :: ps => gap ++ (p ++ (ps.flatMap (fun q => 44 :: (gap ++ q)) ++ (last ++ [closing])))

namespace Walk

variable {α : Type} (w : Walk α)

/-- The reader takes a text for an element of the container. -/
structure Element (p : List UInt8) (a : α) : Prop where
  /-- The first element. -/
  first : ∀ s, Ends s → w.first.run? (p ++ s) = (w.after [a]).run? s
  /-- A further element. -/
  next : ∀ done s, Ends s → (w.next done).run? (p ++ s) = (w.after (a :: done)).run? s

variable {w} {gap last : List UInt8}

/-- The text after an element. -/
theorem ends_tail (hlast : Gap last) (ps : List (List UInt8)) (s : List UInt8) :
    Ends (ps.flatMap (fun q => 44 :: (gap ++ q)) ++ (last ++ w.closing :: s)) := by
  intro b hb
  cases ps with
  | cons _ _ =>
      cases hb
      decide
  | nil =>
      cases last with
      | nil =>
          cases hb
          exact w.ends
      | cons c last =>
          rw [hlast.head b hb]
          decide

/-- The elements after the first one, by induction on how many are left. -/
theorem run?_tail (hgap : Gap gap) (hlast : Gap last) {ps : List (List UInt8)} {as : List α}
    (h : List.Forall₂ w.Element ps as) (done : List α) (s : List UInt8) :
    (w.after done).run? (ps.flatMap (fun q => 44 :: (gap ++ q)) ++ (last ++ w.closing :: s)) =
      (w.finish (done.reverse ++ as)).run? s := by
  induction h generalizing done with
  | nil =>
      rw [List.flatMap_nil, List.nil_append, State.run?_blanks hlast.isBlank, w.close,
        List.append_nil]
  | @cons p a ps as hp hps ih =>
      rw [List.flatMap_cons, List.append_assoc, List.cons_append, List.append_assoc,
        State.run?_mark (t := .comma) rfl (fun _ => rfl) (w.comma done),
        State.run?_blanks hgap.isBlank, hp.next done _ (ends_tail hlast ps s), ih,
        List.reverse_cons, List.append_assoc, List.singleton_append]

/-- All elements of the container. -/
theorem run?_listed (hgap : Gap gap) (hlast : Gap last) {ps : List (List UInt8)} {as : List α}
    (h : List.Forall₂ w.Element ps as) (s : List UInt8) :
    w.first.run? (listed w.closing gap last ps ++ s) = (w.finish as).run? s := by
  cases h with
  | nil => exact w.close_first s
  | @cons p a ps as hp hps =>
      have htext : listed w.closing gap last (p :: ps) ++ s =
          gap ++ (p ++ (ps.flatMap (fun q => 44 :: (gap ++ q)) ++ (last ++ w.closing :: s))) := by
        simp [listed]
      rw [htext, State.run?_blanks hgap.isBlank, hp.first _ (ends_tail hlast ps s),
        run?_tail hgap hlast hps]
      rfl

end Walk

/-- An array is written by its items. -/
theorem writes_arr {gap last : List UInt8} (hgap : Gap gap) (hlast : Gap last)
    {ps : List (List UInt8)} {js : List Json} (h : List.Forall₂ Writes ps js) :
    Writes (91 :: listed 93 gap last ps) (.arr js) := by
  intro st outer s hst _
  have helement : List.Forall₂ (Walk.items outer).Element ps js := by
    refine h.imp fun p j hp => ⟨?_, ?_⟩
    · exact fun s hs => hp _ _ s (State.reads_firstItem outer) hs
    · exact fun done s hs => hp _ _ s (State.reads_value _) hs
  have hopen : st.step? .arrOpen = some (.firstItem outer) := hst _ (by simp)
  rw [List.cons_append, State.run?_mark rfl (fun _ => rfl) hopen]
  exact Walk.run?_listed hgap hlast helement s

/-- A member is written by its name and its value. -/
theorem element_member (outer : List Frame) (name : String) {space p : List UInt8} {j : Json}
    (hspace : ∀ b ∈ space, isBlank b = true) (hp : Writes p j) :
    (Walk.members outer).Element (utf8 (quote name) ++ (58 :: (space ++ p))) (some name, j) := by
  have hread : ∀ (st : State) done s, st.step? (.text (some name)) =
      some (.colon outer done (some name)) → Ends s →
      st.run? ((utf8 (quote name) ++ (58 :: (space ++ p))) ++ s) =
        (State.afterMember outer ((some name, j) :: done)).run? s := by
    intro st done s hst hs
    rw [List.append_assoc, State.run?_token (lexes_quote name _), hst, Option.bind_some,
      List.cons_append, List.append_assoc, State.run?_mark (t := .colon) rfl (fun _ => rfl) rfl,
      State.run?_blanks hspace]
    exact hp _ _ s (State.reads_value _) hs
  exact ⟨fun s hs => hread _ [] s rfl hs, fun done s hs => hread _ done s rfl hs⟩

/-- An object is written by its members. -/
theorem writes_obj {gap last : List UInt8} (hgap : Gap gap) (hlast : Gap last)
    {ps : List (List UInt8)} {ms : List (Option String × Json)}
    (h : ∀ outer, List.Forall₂ (Walk.members outer).Element ps ms) :
    Writes (123 :: listed 125 gap last ps) (.obj ms) := by
  intro st outer s hst _
  have hopen : st.step? .objOpen = some (.firstName outer) := hst _ (by simp)
  rw [List.cons_append, State.run?_mark rfl (fun _ => rfl) hopen]
  exact Walk.run?_listed hgap hlast (h outer) s

/-- Values that texts write: numbers in the way they are written, strings that are texts. -/
inductive Writable : Json → Prop where
  /-- The literal `null`. -/
  | null : Writable .null
  /-- A truth value. -/
  | bool (b : Bool) : Writable (.bool b)
  /-- A number with digits before its point and without a leading zero. -/
  | num {d : Decimal} (h : isWhole d.whole = true) : Writable (.num d)
  /-- A string. -/
  | string (s : String) : Writable (.string s)
  /-- An array. -/
  | arr {js : List Json} (h : ∀ j ∈ js, Writable j) : Writable (.arr js)
  /-- An object whose names are texts. -/
  | record {fields : List (String × Json)} (h : ∀ f ∈ fields, Writable f.2) :
      Writable (.record fields)

/-- The bytes of parts in a row. -/
theorem utf8_intercalate (sep s : String) (ss : List String) :
    utf8 (String.intercalate sep (s :: ss)) =
      utf8 s ++ (ss.map utf8).flatMap fun p => utf8 sep ++ p := by
  induction ss generalizing s with
  | nil => simp
  | cons t ss ih =>
      rw [String.intercalate_cons_cons, utf8_append, utf8_append, ih, List.map_cons,
        List.flatMap_cons]
      simp

/-- Parts between marks without blanks. -/
theorem utf8_listed {closing : String} {c : UInt8} (hc : utf8 closing = [c]) (opening : String)
    (parts : List String) : utf8 (opening ++ String.intercalate "," parts ++ closing) =
      utf8 opening ++ listed c [] [] (parts.map utf8) := by
  have hcomma : utf8 "," = [44] := by decide
  rw [utf8_append, utf8_append, List.append_assoc]
  cases parts with
  | nil =>
      rw [String.intercalate_nil, hc]
      rfl
  | cons s ss =>
      rw [utf8_intercalate, hcomma, hc]
      simp [listed]

/-- Parts between marks on lines of their own. -/
theorem utf8_bracket {closing : String} {c : UInt8} (hc : utf8 closing = [c]) (level : Nat)
    (opening : String) (parts : List String) : utf8 (bracket level opening closing parts) =
      utf8 opening ++ listed c (utf8 (newline (level + 1))) (utf8 (newline level))
        (parts.map utf8) := by
  have hcomma : utf8 "," = [44] := by decide
  cases parts with
  | nil =>
      show utf8 (opening ++ closing) = _
      rw [utf8_append, hc]
      rfl
  | cons s ss =>
      show utf8 (opening ++ newline (level + 1) ++
        String.intercalate ("," ++ newline (level + 1)) (s :: ss) ++ newline level ++ closing) = _
      simp only [utf8_append, utf8_intercalate, hcomma, hc]
      simp [listed]

/-- The end of a line and an indentation are blanks. -/
theorem gap_newline (level : Nat) : Gap (utf8 (newline level)) := by
  have hblank : utf8 (newline level) = 10 :: List.replicate (2 * level) 32 := by
    have hspace : String.utf8EncodeChar ' ' = [32] := by decide
    have hend : utf8 "\n" = [10] := by decide
    rw [newline, utf8_append, hend, utf8_ofList]
    simp [List.flatMap_replicate, hspace]
  rw [hblank]
  refine ⟨?_, ?_⟩
  · intro b hb
    rcases List.mem_cons.1 hb with rfl | hb
    · decide
    · rw [List.eq_of_mem_replicate hb]
      decide
  · intro b hb
    cases hb
    rfl

theorem gap_nil : Gap [] := ⟨by simp, by simp⟩

/-- Elements of an array are written one by one. -/
theorem compactItems_eq (js : List Json) : compactItems js = js.map compact := by
  induction js with
  | nil => rfl
  | cons j js ih => rw [compactItems, ih, List.map_cons]

/-- Members of an object are written one by one. -/
theorem compactMembers_eq (fields : List (String × Json)) :
    compactMembers (fields.map fun f => (some f.1, f.2)) =
      fields.map fun f => quote f.1 ++ ":" ++ f.2.compact := by
  induction fields with
  | nil => rfl
  | cons f fields ih =>
      rw [List.map_cons, compactMembers, ih, List.map_cons]
      rfl

/-- Elements of an array are written one by one, one level deeper. -/
theorem indentedItems_eq (level : Nat) (js : List Json) :
    indentedItems level js = js.map (indented (level + 1)) := by
  induction js with
  | nil => rfl
  | cons j js ih => rw [indentedItems, ih, List.map_cons]

/-- Members of an object are written one by one, one level deeper. -/
theorem indentedMembers_eq (level : Nat) (fields : List (String × Json)) :
    indentedMembers level (fields.map fun f => (some f.1, f.2)) =
      fields.map fun f => quote f.1 ++ ": " ++ f.2.indented (level + 1) := by
  induction fields with
  | nil => rfl
  | cons f fields ih =>
      rw [List.map_cons, indentedMembers, ih, List.map_cons]
      rfl

/-- The items of an array, each by its own text. -/
theorem forall₂_writes {text : Json → String} {js : List Json}
    (h : ∀ j ∈ js, Writes (utf8 (text j)) j) :
    List.Forall₂ Writes ((js.map text).map utf8) js := by
  rw [List.map_map, List.forall₂_map_left_iff]
  exact List.forall₂_same.2 h

/-- The members of an object, each by its name and the text of its value. -/
theorem forall₂_element {text : Json → String} {colon : String} (space : List UInt8)
    (hcolon : utf8 colon = 58 :: space) (hspace : ∀ b ∈ space, isBlank b = true)
    {fields : List (String × Json)} (h : ∀ f ∈ fields, Writes (utf8 (text f.2)) f.2)
    (outer : List Frame) :
    List.Forall₂ (Walk.members outer).Element
      ((fields.map fun f => quote f.1 ++ colon ++ text f.2).map utf8)
      (fields.map fun f => (some f.1, f.2)) := by
  rw [List.map_map, List.forall₂_map_left_iff, List.forall₂_map_right_iff]
  refine List.forall₂_same.2 fun f hf => ?_
  have hmember := element_member outer f.1 hspace (h f hf)
  rwa [Function.comp_apply, utf8_append, utf8_append, hcolon, List.append_assoc]

theorem utf8_arrClose : utf8 "]" = [93] := by decide

theorem utf8_objClose : utf8 "\x7d" = [125] := by decide

/-- A value is read back from its compact text. -/
theorem Writable.writes_compact {j : Json} (h : j.Writable) : Writes (utf8 j.compact) j := by
  induction h with
  | null => exact writes_null
  | bool b => exact writes_bool b
  | num h => exact writes_num h
  | string s => exact writes_quote s
  | @arr js h ih =>
      rw [compact, compactItems_eq, utf8_listed utf8_arrClose]
      exact writes_arr gap_nil gap_nil (forall₂_writes ih)
  | @record fields h ih =>
      rw [Json.record, compact, compactMembers_eq, utf8_listed utf8_objClose]
      exact writes_obj gap_nil gap_nil (forall₂_element [] (by decide) (List.forall_mem_nil _) ih)

/-- A value is read back from its indented text. -/
theorem Writable.writes_indented {j : Json} (h : j.Writable) (level : Nat) :
    Writes (utf8 (j.indented level)) j := by
  induction h generalizing level with
  | null => exact writes_null
  | bool b => exact writes_bool b
  | num h => exact writes_num h
  | string s => exact writes_quote s
  | @arr js h ih =>
      rw [indented, indentedItems_eq, utf8_bracket utf8_arrClose]
      exact writes_arr (gap_newline _) (gap_newline _)
        (forall₂_writes fun j hj => ih j hj (level + 1))
  | @record fields h ih =>
      rw [Json.record, indented, indentedMembers_eq, utf8_bracket utf8_objClose]
      exact writes_obj (gap_newline _) (gap_newline _)
        (forall₂_element [32] (by decide) (List.forall_mem_singleton.2 rfl) fun f hf =>
          ih f hf (level + 1))

/-- A text that the reader takes for a value is parsed as that value. -/
theorem Writes.parse? {p : List UInt8} {j : Json} (h : Writes p j) : parse? p = some j := by
  have hrun := h (.value []) [] [] (State.reads_value []) (by simp [Ends])
  rw [List.append_nil, State.run?] at hrun
  rw [Json.parse?, hrun]
  rfl

/-- Reading the compact text of a value gives the value. -/
theorem parse?_compact {j : Json} (h : j.Writable) : parse? (utf8 j.compact) = some j :=
  h.writes_compact.parse?

/-- Reading the indented text of a value gives the value. -/
theorem parse?_indented {j : Json} (h : j.Writable) : parse? (utf8 (j.indented 0)) = some j :=
  (h.writes_indented 0).parse?

end Postlink.Json

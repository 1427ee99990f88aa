import Postlink.Json.Token

/-!
# Reading JSON text

The reader is a machine that takes one token after another. Its state is what may come next together
with the arrays and objects still open, innermost first, so the depth of a value costs no recursion.
A text is read when the machine stands at one finished value after its last byte.
-/

namespace Postlink.Json

/-- A container still open around the value being read, its finished contents in reverse. -/
inductive Frame where
  /-- An array. -/
  | items (done : List Json)
  /-- An object whose current member has this name. -/
  | members (done : List (Option String × Json)) (name : Option String)

/-- What the reader expects next. -/
inductive State where
  /-- A value. -/
  | value (outer : List Frame)
  /-- The first item of an array, or its end. -/
  | firstItem (outer : List Frame)
  /-- A comma or the end of an array. -/
  | afterItem (outer : List Frame) (done : List Json)
  /-- The first name in an object, or its end. -/
  | firstName (outer : List Frame)
  /-- A further name in an object. -/
  | nextName (outer : List Frame) (done : List (Option String × Json))
  /-- The colon after a name. -/
  | colon (outer : List Frame) (done : List (Option String × Json)) (name : Option String)
  /-- A comma or the end of an object. -/
  | afterMember (outer : List Frame) (done : List (Option String × Json))
  /-- Nothing: the value is complete. -/
  | finished (j : Json)

/-- The state after a value is complete inside the open containers. -/
def State.complete : List Frame → Json → State
  | [], j => .finished j
  | .items done :: outer, j => .afterItem outer (j :: done)
  | .members done name :: outer, j => .afterMember outer ((name, j) :: done)

/-- The state after the first token of a value. -/
def State.enter? (outer : List Frame) : Token → Option State
  | .arrOpen => some (.firstItem outer)
  | .objOpen => some (.firstName outer)
  | .text s => some (.complete outer (.str s))
  | .leaf j => some (.complete outer j)
  | _ => none

/-- The state after one token, if the token may stand here. -/
def State.step? : State → Token → Option State
  | .value outer, t => State.enter? outer t
  | .firstItem outer, .arrClose => some (.complete outer (.arr []))
  | .firstItem outer, t => State.enter? (.items [] :: outer) t
  | .afterItem outer done, .comma => some (.value (.items done :: outer))
  | .afterItem outer done, .arrClose => some (.complete outer (.arr done.reverse))
  | .firstName outer, .objClose => some (.complete outer (.obj []))
  | .firstName outer, .text name => some (.colon outer [] name)
  | .nextName outer done, .text name => some (.colon outer done name)
  | .colon outer done name, .colon => some (.value (.members done name :: outer))
  | .afterMember outer done, .comma => some (.nextName outer done)
  | .afterMember outer done, .objClose => some (.complete outer (.obj done.reverse))
  | _, _ => none

/-- The state after all of a text. -/
def State.run? (st : State) (s : List UInt8) : Option State :=
  match s with
  | [] => some st
  | b :: rest =>
      if isBlank b then run? st rest
      else match _ : token? b rest with
        | none => none
        | some r =>
            match st.step? r.1 with
            | none => none
            | some st' => run? st' r.2
termination_by s.length
decreasing_by
  · simp
  · exact Nat.lt_succ_of_le (length_token?_le (by assumption))

/-- The value that a text writes. -/
def parse? (s : List UInt8) : Option Json :=
  match State.run? (.value []) s with
  | some (.finished j) => some j
  | _ => none

/-- The bytes of a text. -/
def utf8 (s : String) : List UInt8 := s.toUTF8.data.toList

end Postlink.Json

import Postlink.Decimal.Layout

/-!
# JSON values

A value keeps what its text says. Numbers stay decimal literals, an object keeps its members in
order and may repeat a name, and a string whose bytes or escapes form no text is kept as `none`:
such a string is harmless where its contents do not matter.
-/

namespace Postlink

/-- A JSON value. -/
inductive Json where
  /-- The literal `null`. -/
  | null
  /-- A truth value. -/
  | bool (b : Bool)
  /-- A number, as it is written. -/
  | num (d : Decimal)
  /-- A string, `none` when it is no text. -/
  | str (s : Option String)
  /-- An array. -/
  | arr (items : List Json)
  /-- An object, member by member. -/
  | obj (members : List (Option String × Json))

namespace Json

/-- A string value. -/
def string (s : String) : Json := .str (some s)

/-- A natural number. -/
def nat (n : Nat) : Json := .num (.ofNat n)

/-- A double, `null` when it is not finite. -/
def binary64 (x : Binary64) : Json := if x.isFinite then .num (Layout.data.decimal x) else .null

/-- An object with named members. -/
def record (fields : List (String × Json)) : Json := .obj (fields.map fun f => (some f.1, f.2))

/-- An object with the single member `name`. -/
def tagged (name : String) (payload : Json) : Json := .obj [(some name, payload)]

/-- A value or `null`. -/
def ofOption {α : Type} (f : α → Json) : Option α → Json
  | none => .null
  | some a => f a

end Json

end Postlink

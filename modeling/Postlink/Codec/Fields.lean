import Postlink.Json.Reader
import Postlink.Json.Writer

/-!
# Decoding records and choices

A record is an object with known names or an array of its fields in order. Members with other names
are ignored whatever they hold, and no known name may come twice. A choice without payload is its
name or an object with that name and `null`. A decoder takes the number of arrays and objects that
may still be entered and counts it down, so values nested too deeply are refused where they would be
decoded.
-/

namespace Postlink.Json

/-- How many arrays and objects may lie one inside another. -/
def nestingLimit : Nat := 127

/-- A natural number below a bound. -/
def nat? (bound : Nat) : Json → Option Nat
  | .num d => d.toNat? bound
  | _ => none

/-- A double. -/
def binary64? : Json → Option Binary64
  | .num d => d.toBinary64?
  | _ => none

/-- A string. -/
def string? : Json → Option String
  | .str s => s
  | _ => none

/-- A truth value. -/
def bool? : Json → Option Bool
  | .bool b => some b
  | _ => none

/-- A value or `null`. -/
def orNull? {α : Type} (dec : Json → Option α) : Json → Option (Option α)
  | .null => some none
  | j => (dec j).map some

/-- An array, item by item. -/
def items? {α : Type} (dec : Json → Option α) : Json → Option (List α)
  | .arr items => items.mapM dec
  | _ => none

/-- An array whose items are decoded one level down. -/
def list? {α : Type} (dec : Nat → Json → Option α) : Nat → Json → Option (List α)
  | depth + 1, j => items? (dec depth) j
  | _, _ => none

/-- One of several names without payload. -/
def choice? {α : Type} (all : List α) (name : α → String) : Nat → Json → Option α
  | _, .str (some s) => all.find? fun a => name a = s
  | _ + 1, .obj [(some s, .null)] => all.find? fun a => name a = s
  | _, _ => none

/-- The fields of a record before they are decoded. -/
inductive Fields where
  /-- An array of fields in the order of their names. -/
  | listed (names : List String) (items : List Json)
  /-- An object. -/
  | named (members : List (Option String × Json))

/-- What a record says about one field. -/
inductive Slot where
  /-- It has this value. -/
  | given (j : Json)
  /-- An object leaves it out. -/
  | omitted
  /-- An array ends before it. -/
  | cut

/-- The fields of a record with these names in order. -/
def fields? (names : List String) : Json → Option Fields
  | .arr items => if items.length ≤ names.length then some (.listed names items) else none
  | .obj members =>
      if members.all (fun m => m.1.isSome)
          && names.all (fun n => members.countP (fun m => m.1 == some n) ≤ 1) then
        some (.named members)
      else none
  | _ => none

namespace Fields

/-- What the record says about a field. -/
def slot (name : String) : Fields → Slot
  | .listed names items =>
      match items[names.idxOf name]? with
      | some j => .given j
      | none => .cut
  | .named members =>
      match members.find? fun m => m.1 == some name with
      | some m => .given m.2
      | none => .omitted

/-- A field that has to be there. -/
def required? {α : Type} (fs : Fields) (name : String) (dec : Json → Option α) : Option α :=
  match fs.slot name with
  | .given j => dec j
  | _ => none

/-- A field with a default. -/
def optional? {α : Type} (fs : Fields) (name : String) (default : α) (dec : Json → Option α) :
    Option α :=
  match fs.slot name with
  | .given j => dec j
  | _ => some default

/-- A field that an object may leave out but an array may not. -/
def omissible? {α : Type} (fs : Fields) (name : String) (dec : Json → Option α) :
    Option (Option α) :=
  match fs.slot name with
  | .given j => orNull? dec j
  | .omitted => some none
  | .cut => none

end Fields

end Postlink.Json

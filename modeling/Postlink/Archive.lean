import Postlink.Codec.Modules

/-!
# Archives

An archive keeps a module's bodies apart from its symbol table, so that a reader decodes only the
bodies it needs. It consists of a mark, a version and the length of a header, each four bytes, then
the header as data, then the body section. The header says where in the section each body lies, and
reading checks that it lies there; what the bytes say is not looked at.
-/

namespace Postlink

/-- Why a module cannot be archived or an archive cannot be read. -/
inductive ArchiveError where
  /-- The bytes do not start with the mark. -/
  | badMark
  /-- The version is not the one this library knows. -/
  | unsupportedVersion (version : Nat)
  /-- The bytes end too early. -/
  | truncated
  /-- The header does not decode. -/
  | malformedHeader
  /-- A body lies outside the body section. -/
  | bodyOutOfRange (function : String)
  /-- A body is still in another archive. -/
  | unloadedBody (function : String)
  deriving DecidableEq, Repr

/-- The message of an archive error. -/
def ArchiveError.message : ArchiveError → String
  | .badMark => "not a builtin library archive"
  | .unsupportedVersion version => "unsupported archive version " ++ toString version
  | .truncated => "archive is truncated"
  | .malformedHeader => "malformed archive header: "
  | .bodyOutOfRange function => "body of '" ++ function ++ "' lies outside the archive"
  | .unloadedBody function => "cannot archive '" ++ function ++ "': body is not materialized"

namespace Archive

open Json

/-- The mark at the start of every archive. -/
def mark : List UInt8 := [66, 73, 70, 65]

/-- The version of the layout. -/
def version : Nat := 1

/-- The low four bytes of a number, least significant first. -/
def word (n : Nat) : List UInt8 :=
  [n.toUInt8, (n / 0x100).toUInt8, (n / 0x10000).toUInt8, (n / 0x1000000).toUInt8]

/-- The number that bytes write, least significant first. -/
def wordValue : List UInt8 → Nat
  | [] => 0
  | b :: bs => b.toNat + 256 * wordValue bs

/-- A function in the symbol table: its properties, and where its body lies if it has one. -/
structure Entry where
  /-- The function without its body. -/
  func : Func
  /-- The place of the body in the body section. -/
  body : Option Span
  deriving DecidableEq, Repr

/-- The symbol table of an archive. -/
structure Header where
  /-- The name of the module. -/
  name : String
  /-- The global variables. -/
  globals : List Global
  /-- The functions. -/
  entries : List Entry
  deriving DecidableEq, Repr

/-- The data form of a span. -/
def encodeSpan (s : Span) : Json := .record [("offset", .nat s.offset), ("len", .nat s.length)]

/-- Decode a span. -/
def decodeSpan? : Nat → Json → Option Span
  | _ + 1, j => do
      let fs ← j.fields? ["offset", "len"]
      return ⟨← fs.required? "offset" (nat? longBound), ← fs.required? "len" (nat? longBound)⟩
  | _, _ => none

/-- The data form of a symbol table entry; nothing is left out. -/
def Entry.encode (e : Entry) : Json :=
  .record [("name", .string e.func.name), ("ty", e.func.sig.encode),
    ("conv", .string e.func.conv.key), ("linkage", .string e.func.linkage.key),
    ("dll_export", .bool e.func.exported), ("attributes", .strings e.func.attributes),
    ("intrinsic", .ofOption (fun op => .string op.key) e.func.intrinsic),
    ("params", .strings e.func.params), ("body", .ofOption encodeSpan e.body)]

/-- Decode a symbol table entry. -/
def Entry.decode? : Nat → Json → Option Entry
  | depth + 1, j => do
      let fs ← j.fields? Func.fieldNames
      return ⟨← Func.decodeWith? depth fs .declared, ← fs.omissible? "body" (decodeSpan? depth)⟩
  | _, _ => none

/-- The data form of a symbol table. -/
def Header.encode (h : Header) : Json :=
  .record [("name", .string h.name), ("globals", .arr (h.globals.map Global.encode)),
    ("functions", .arr (h.entries.map Entry.encode))]

/-- Decode a symbol table. -/
def Header.decode? : Nat → Json → Option Header
  | depth + 1, j => do
      let fs ← j.fields? ["name", "globals", "functions"]
      return ⟨← fs.required? "name" string?, ← fs.required? "globals" (list? Global.decode? depth),
        ← fs.required? "functions" (list? Entry.decode? depth)⟩
  | _, _ => none

/-- The symbol table that a text writes. -/
def Header.read? (s : List UInt8) : Option Header := (parse? s).bind (Header.decode? nestingLimit)

/-- The symbol table entries of functions whose bodies are laid out from an offset on, and the bytes
of those bodies. -/
def layOut (offset : Nat) : List Func → Except ArchiveError (List Entry × List UInt8)
  | [] => .ok ([], [])
  | f :: fs =>
      match f.body with
      | .stored _ => .error (.unloadedBody f.name)
      | .declared => (layOut offset fs).map fun r => (⟨f, none⟩ :: r.1, r.2)
      | .loaded bs =>
          let bytes := utf8 bs.encode.compact
          (layOut (offset + bytes.length) fs).map fun r =>
            (⟨f, some ⟨offset, bytes.length⟩⟩ :: r.1, bytes ++ r.2)

/-- The bytes of an archive with a header text and a body section. -/
def assemble (header bodies : List UInt8) : List UInt8 :=
  mark ++ word version ++ word header.length ++ header ++ bodies

/-- The function of an entry, its body still in the body section. -/
def restore (bodies : List UInt8) (e : Entry) : Except ArchiveError Func :=
  match e.body with
  | none => .ok e.func
  | some span =>
      if bodies.length < span.offset + span.length then .error (.bodyOutOfRange e.func.name)
      else .ok { e.func with body := .stored ⟨bodies, span⟩ }

/-- The functions of entries in order, up to the first that cannot be restored. -/
def restoreAll (bodies : List UInt8) : List Entry → Except ArchiveError (List Func)
  | [] => .ok []
  | e :: es =>
      match restore bodies e with
      | .error err => .error err
      | .ok f => (restoreAll bodies es).map (f :: ·)

/-- The module of a header text and a body section. -/
def unpack (header bodies : List UInt8) : Except ArchiveError Module :=
  match Header.read? header with
  | none => .error .malformedHeader
  | some h => (restoreAll bodies h.entries).map fun fs => ⟨h.name, h.globals, fs⟩

/-- Read an archive, leaving its bodies stored. -/
def read (bytes : List UInt8) : Except ArchiveError Module :=
  let found := wordValue ((bytes.drop 4).take 4)
  let length := wordValue ((bytes.drop 8).take 4)
  let rest := bytes.drop 12
  if bytes.length < 4 then .error .truncated
  else if bytes.take 4 ≠ mark then .error .badMark
  else if bytes.length < 8 then .error .truncated
  else if found ≠ version then .error (.unsupportedVersion found)
  else if bytes.length < 12 then .error .truncated
  else if rest.length < length then .error .truncated
  else unpack (rest.take length) (rest.drop length)

end Archive

/-- The archive of a module whose bodies are all loaded. -/
def Module.archive (m : Module) : Except ArchiveError (List UInt8) :=
  (Archive.layOut 0 m.functions).map fun r =>
    Archive.assemble (Json.utf8 (Archive.Header.encode ⟨m.name, m.globals, r.1⟩).compact) r.2

end Postlink

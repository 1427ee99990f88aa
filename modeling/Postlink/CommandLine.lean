import Postlink.Archive
import Postlink.Pipeline

/-!
# The command line

Two commands: `pack` writes a library module as an archive, and `import` prepares a program module
with such an archive. Files are reached through two operations of any monad, so the same commands
run on a disk and on files held in memory.
-/

namespace Postlink

/-- Access to files by name. An error is the system's reason. -/
structure Files (m : Type → Type) where
  /-- Read all bytes of a file. -/
  read : String → m (Except String (List UInt8))
  /-- Replace the contents of a file. -/
  write : String → List UInt8 → m (Except String Unit)

/-- What `import` is asked to do. -/
structure ImportRequest where
  /-- The program module. -/
  program : String
  /-- The library archive. -/
  library : String
  /-- Where the result goes, if not to the standard output. -/
  output : Option String
  /-- Whether the result is a listing rather than data. -/
  text : Bool
  /-- Whether symbols become internal. -/
  internalize : Bool
  deriving DecidableEq, Repr

/-- What the command line asks for. -/
inductive Command where
  /-- Write a library module as an archive. -/
  | pack (input output : String)
  /-- Prepare a program. -/
  | prepare (request : ImportRequest)
  /-- Show how the commands are used. -/
  | usage
  deriving DecidableEq, Repr

/-- What a run leaves behind besides files. -/
structure Report where
  /-- The standard output. -/
  stdout : String
  /-- The standard error. -/
  stderr : String
  /-- The exit code. -/
  code : Nat
  deriving DecidableEq, Repr

/-- Why a command fails. -/
inductive CommandError where
  /-- A module cannot be read. -/
  | unreadable (path reason : String)
  /-- A file holds no module. -/
  | unparsable (path : String)
  /-- An archive cannot be loaded. -/
  | unloadable (path reason : String)
  /-- A result cannot be written. -/
  | unwritable (path reason : String)
  /-- The program cannot be prepared. -/
  | unprepared (reason : Failure)
  deriving DecidableEq, Repr

/-- The message of a command error. -/
def CommandError.message : CommandError → String
  | .unreadable path reason => "failed to read '" ++ path ++ "': " ++ reason
  | .unparsable path => "failed to parse '" ++ path ++ "': "
  | .unloadable path reason => "failed to load '" ++ path ++ "': " ++ reason
  | .unwritable path reason => "failed to write '" ++ path ++ "': " ++ reason
  | .unprepared reason => "builtin import failed: " ++ reason.message

namespace Command

/-- Arguments of `import` read so far: file names, and options over their defaults. -/
structure Options where
  /-- The file names in order. -/
  paths : List String
  /-- Where the result goes. -/
  output : Option String
  /-- Whether a listing is asked for. -/
  text : Bool
  /-- Whether symbols become internal. -/
  internalize : Bool

/-- Read the arguments of `import`. An unknown option and an output option without a name are
refused. -/
def readArgs? (p : Options) : List String → Option Options
  | [] => some p
  | arg :: rest =>
      if arg = "-o" ∨ arg = "--output" then
        match rest with
        | [] => none
        | path :: rest => readArgs? { p with output := some path } rest
      else if arg = "--text" then readArgs? { p with text := true } rest
      else if arg = "--no-internalize" then readArgs? { p with internalize := false } rest
      else if arg.toList.head? = some '-' then none
      else readArgs? { p with paths := p.paths ++ [arg] } rest

/-- The request that the arguments of `import` make. Exactly two files have to be named. -/
def request? (args : List String) : Option ImportRequest :=
  match readArgs? ⟨[], none, false, true⟩ args with
  | some ⟨[program, library], output, text, internalize⟩ =>
      some ⟨program, library, output, text, internalize⟩
  | _ => none

/-- The command that the arguments ask for. -/
def ofArgs : List String → Command
  | ["pack", input, output] => .pack input output
  | "import" :: args =>
      match request? args with
      | some request => .prepare request
      | none => .usage
  | _ => .usage

/-- How the commands are used. -/
def usageText : String :=
  "USAGE:\n    biflink pack <library.json> <out.bifa>\n"
    ++ "    biflink import <program.json> <library.bifa> [-o out.json] [--text]"
    ++ " [--no-internalize]\n"

/-- The reason that a file was reached but not read or written. -/
def systemReason (reason : String) : String := "IO error: " ++ reason

/-- The module in the bytes of a file. -/
def moduleOf (path : String) (bytes : List UInt8) : Except CommandError Module :=
  match String.fromUTF8? ⟨bytes.toArray⟩ with
  | none => .error (.unreadable path "stream did not contain valid UTF-8")
  | some _ =>
      match Module.read? bytes with
      | none => .error (.unparsable path)
      | some m => .ok m

/-- The text of a prepared program. -/
def rendered (listing : Bool) (m : Module) : String :=
  if listing then m.text else (m.encode?.map (Json.indented 0)).getD ""

variable {m : Type → Type} [Monad m]

/-- Read a module from a file. -/
def readModule (files : Files m) (path : String) : m (Except CommandError Module) := do
  match ← files.read path with
  | .error reason => return .error (.unreadable path reason)
  | .ok bytes => return moduleOf path bytes

/-- Load an archive from a file. -/
def loadArchive (files : Files m) (path : String) : m (Except CommandError Module) := do
  match ← files.read path with
  | .error reason => return .error (.unloadable path (systemReason reason))
  | .ok bytes =>
      match Archive.read bytes with
      | .error e => return .error (.unloadable path e.message)
      | .ok lib => return .ok lib

/-- Write a library module as an archive. -/
def runPack (files : Files m) (input output : String) : m (Except CommandError String) := do
  match ← readModule files input with
  | .error e => return .error e
  | .ok lib =>
      match lib.archive with
      | .error e => return .error (.unwritable output e.message)
      | .ok bytes =>
          match ← files.write output bytes with
          | .error reason => return .error (.unwritable output (systemReason reason))
          | .ok () => return .ok ""

/-- Prepare a program and write the result. -/
def runPrepare (files : Files m) (r : ImportRequest) : m (Except CommandError String) := do
  match ← readModule files r.program with
  | .error e => return .error e
  | .ok program =>
      match ← loadArchive files r.library with
      | .error e => return .error e
      | .ok lib =>
          match Module.prepare .wraps (Config.standard.withInternalize r.internalize)
            program lib with
          | .error e => return .error (.unprepared e)
          | .ok (_, program) =>
              match r.output with
              | none => return .ok (rendered r.text program ++ "\n")
              | some path =>
                  match ← files.write path (Json.utf8 (rendered r.text program)) with
                  | .error reason => return .error (.unwritable path reason)
                  | .ok () => return .ok ""

/-- What a run reports: the standard output of a success, the message of a failure. -/
def report : Except CommandError String → Report
  | .ok out => ⟨out, "", 0⟩
  | .error e => ⟨"", "biflink: " ++ e.message ++ "\n", 1⟩

/-- Run the command that the arguments ask for. -/
def run (files : Files m) (args : List String) : m Report :=
  match ofArgs args with
  | .usage => pure ⟨"", usageText, 1⟩
  | .pack input output => report <$> runPack files input output
  | .prepare r => report <$> runPrepare files r

end Command

end Postlink

import Stencil.Command.Arguments
import Stencil.Command.Directory
import Stencil.Config.Reader
import Stencil.Diagnostic.Filtered
import Stencil.Emit.Compile
import Stencil.Listing.Basic
import Stencil.Markup.Selector
import Stencil.Report.Render

/-!
# Running commands

A command reads its configuration, then its source, then compiles the template. `compile` writes
the image whatever was reported, `dump` lists it unless there are errors, and `check` only decides
whether the diagnostics are grave enough to fail.

## Main definitions

* `Channel`, `Outcome`: where a command prints, its exit status and its output
* `Failure`: why a command stops
* `template`: the compiled template of a source
* `dumpOf`, `checkOf`: what `dump` and `check` do with a compiled template
* `run`: an invocation
-/

namespace Stencil.Command

open Stencil.Text Stencil.Wire

/-- Where a command prints. -/
inductive Channel where
  | stdout
  | stderr
  deriving DecidableEq, Repr

/-- The exit status of a command and what it printed. -/
structure Outcome where
  status : Nat := 0
  stdout : List UInt8 := []
  stderr : String := ""

/-- Why a command stops. -/
inductive Failure where
  | input (fault : FileFault)
  | file (path : String) (fault : FileFault)
  | config (path : String)
  | selector (name : String)
  | compile (error : CompileError)
  | image (error : ImageError)
  | output (fault : FileFault)

/-- The wording of a failure. -/
def Failure.message : Failure → String
  | input fault => s!"failed to read stdin: {fault.message}"
  | file path fault => s!"failed to read '{path}': {fault.message}"
  | config path => s!"invalid config '{path}': not a configuration"
  | selector name => s!"no element matches selector '{name}'"
  | compile error => error.message
  | image error => error.message
  | output fault => s!"failed to write output: {fault.message}"

/-- The outcome of a command that stops. -/
def Failure.outcome (f : Failure) : Outcome :=
  { status := 1, stderr := s!"error: {f.message}\n" }

/-- A source and the name under which diagnostics show it. -/
structure Source where
  name : String
  text : String

/-- The compiled template of a source: all of it, or what is inside the element that a selector
picks. The reports of parsing the whole source come first. -/
def template (c : Config) (selector : Option String) (source : String) :
    Except Failure Compiled :=
  let document := Markup.parse source
  let nodes : Except Failure (List Markup.Node) :=
    match selector with
    | none => .ok document.nodes
    | some s =>
      match Markup.select document.nodes s with
      | none => .error (.selector s)
      | some element => .ok element.children
  match nodes with
  | .error failure => .error failure
  | .ok nodes =>
    match Stencil.compile c nodes with
    | .error error => .error (.compile error)
    | .ok compiled =>
      .ok { compiled with diagnostics := document.diagnostics ++ compiled.diagnostics }

/-- How the diagnostics of a source are printed. -/
def reportOptions (source : Source) (colored : Bool) : Report.Options :=
  { source := some source.text, path := some source.name, colored }

/-- What is printed about a compiled template whose image is written. -/
def compileReport (source : Source) (colored : Bool) (ds : List Diagnostic) : String :=
  if ds.isEmpty then "" else Report.render (reportOptions source colored) ds ++ "\n"

/-- The listing of an image. -/
def listingOf (colored : Bool) (bytes : List UInt8) : Outcome :=
  match Image.load bytes with
  | .error error => (Failure.image error).outcome
  | .ok image =>
    match Listing.listing (.ofEnabled colored) image with
    | .error error => (Failure.image error).outcome
    | .ok text => { stdout := Utf8.encode text }

/-- Lists a compiled template, unless it has errors. -/
def dumpOf (source : Source) (colored : Bool) (compiled : Compiled) : Outcome :=
  if Diagnostic.hasErrors compiled.diagnostics then
    { status := 1
      stderr := Report.render (reportOptions source colored) compiled.diagnostics ++ "\n" }
  else listingOf colored compiled.bytes

/-- Fails if there are errors, or any diagnostics if `strict`. -/
def checkOf (source : Source) (strict compact colored : Bool) (compiled : Compiled) : Outcome :=
  let ds := Diagnostic.filtered compiled.diagnostics
  let blocking := if strict then ds.length else Diagnostic.errorCount ds
  if blocking = 0 then {}
  else
    { status := 1
      stderr := Report.render
        { reportOptions source colored with compact, summary := true } ds ++ "\n" }

/-! ## Reading and writing -/

variable {m : Type → Type} [Monad m]

/-- The bytes of the input, a single hyphen being the standard input. -/
def readBytes (f : Files m) (path : String) : ExceptT Failure m (List UInt8) := do
  if path = "-" then
    match ← f.readInput with
    | .error fault => throw (.input fault)
    | .ok bytes => return bytes
  else
    match ← f.read path with
    | .error fault => throw (.file path fault)
    | .ok bytes => return bytes

/-- The source of the input, which has to be text. -/
def readSource (f : Files m) (path : String) : ExceptT Failure m Source := do
  let bytes ← readBytes f path
  let name := if path = "-" then "<stdin>" else path
  match Utf8.decode? bytes with
  | some text => return { name, text }
  | none => throw (if path = "-" then .input .notText else .file path .notText)

/-- The configuration of a file, or the default one. -/
def readConfig (f : Files m) (path : Option String) (plainClose : Bool) :
    ExceptT Failure m Config := do
  let config ←
    match path with
    | none => pure {}
    | some path =>
      match ← f.read path with
      | .error fault => throw (.file path fault)
      | .ok bytes =>
        match Utf8.decode? bytes with
        | none => throw (.file path .notText)
        | some text =>
          match Config.ofText? text with
          | none => throw (.config path)
          | some config => pure config
  return if plainClose then { config with closeMode := .plainClose } else config

/-- The source of the input and its compiled template. -/
def readTemplate (f : Files m) (input : Input) (plainClose : Bool) :
    ExceptT Failure m (Source × Compiled) := do
  let config ← readConfig f input.config plainClose
  let source ← readSource f input.path
  let compiled ← template config input.selector source.text
  return (source, compiled)

/-- Writes an image to a file, or prints it. -/
def writeImage (f : Files m) (output : Option String) (bytes : List UInt8) (stderr : String) :
    m Outcome := do
  match output with
  | none => return { stdout := bytes, stderr }
  | some path =>
    match ← f.write path bytes with
    | .ok () => return { stderr }
    | .error fault =>
      -- The reports are out by the time that writing fails.
      let failed := (Failure.output fault).outcome
      return { failed with stderr := stderr ++ failed.stderr }

/-- The outcome of an action that may stop. -/
def outcomeOf (action : ExceptT Failure m Outcome) : m Outcome := do
  match ← action.run with
  | .ok outcome => return outcome
  | .error failure => return failure.outcome

/-- The name and version of the program. -/
def versionText : String := "snap 0.2.0\n"

/-- Runs an invocation. `terminal` says which channels are a terminal: `dump` colours for the
standard output, where its listing goes, and the other commands for their reports. -/
def run (f : Files m) (terminal : Channel → Bool) : Invocation → m Outcome
  | .version => return { stdout := Utf8.encode versionText }
  | .compile input output plainClose color => outcomeOf do
    let (source, compiled) ← readTemplate f input plainClose
    let stderr := compileReport source (color.enabled (terminal .stderr)) compiled.diagnostics
    ExceptT.lift (writeImage f output compiled.bytes stderr)
  | .dump input plainClose binary color => outcomeOf do
    if binary then return listingOf (color.enabled (terminal .stdout)) (← readBytes f input.path)
    else
      let (source, compiled) ← readTemplate f input plainClose
      return dumpOf source (color.enabled (terminal .stdout)) compiled
  | .check input strict compact color => outcomeOf do
    let (source, compiled) ← readTemplate f input false
    return checkOf source strict compact (color.enabled (terminal .stderr)) compiled

end Stencil.Command

/-!
# Command lines

A command line is a verb with options and one input. Long options take their value behind an
equals sign or as the next argument, short ones also without a gap; behind `--` nothing is an
option. An option that is unknown, comes twice, or lacks its value is a mistake, and so is a
second input or none.

## Main definitions

* `Invocation`: what a command line asks for
* `Given`, `scanArguments`: the arguments of a verb, sorted
* `Invocation.parse?`: the invocation of a command line
-/

namespace Stencil.Command

/-- What to do with a template. -/
inductive Verb where
  | compile
  | dump
  | check
  deriving DecidableEq, Repr

/-- The verb of a name. -/
def Verb.ofName? (name : String) : Option Verb :=
  if name = "compile" then some compile
  else if name = "dump" then some dump
  else if name = "check" then some check
  else none

/-- When to colour. -/
inductive ColorChoice where
  | auto
  | always
  | never
  deriving DecidableEq, Repr

/-- The choice of a name. -/
def ColorChoice.ofName? (name : String) : Option ColorChoice :=
  if name = "auto" then some auto
  else if name = "always" then some always
  else if name = "never" then some never
  else none

/-- Whether to colour what goes to a terminal or elsewhere. -/
def ColorChoice.enabled (c : ColorChoice) (terminal : Bool) : Bool :=
  match c with
  | auto => terminal
  | always => true
  | never => false

/-- Where the template comes from. -/
structure Input where
  path : String
  selector : Option String
  config : Option String
  deriving DecidableEq, Repr

/-- What a command line asks for. -/
inductive Invocation where
  | version
  | compile (input : Input) (output : Option String) (plainClose : Bool) (color : ColorChoice)
  | dump (input : Input) (plainClose binary : Bool) (color : ColorChoice)
  | check (input : Input) (strict compact : Bool) (color : ColorChoice)
  deriving DecidableEq, Repr

/-! ## Sorting arguments -/

/-- The options of a verb that take a value. -/
def Verb.valueOptions : Verb → List String
  | compile => ["selector", "output", "config", "color"]
  | dump => ["selector", "config", "color"]
  | check => ["selector", "config", "color"]

/-- The options of a verb that take none. -/
def Verb.flags : Verb → List String
  | compile => ["plain-close"]
  | dump => ["plain-close", "binary"]
  | check => ["strict", "compact"]

/-- The long name of a short option. -/
def longName? : Char → Option String
  | 's' => some "selector"
  | 'o' => some "output"
  | _ => none

/-- The arguments of a verb so far: options with their values, flags, and inputs. -/
structure Given where
  values : List (String × String) := []
  flags : List String := []
  inputs : List String := []
  deriving DecidableEq, Repr

namespace Given

/-- Adds an option that was not given before. -/
def addValue (g : Given) (name value : String) : Option Given :=
  if (g.values.lookup name).isSome then none
  else some { g with values := (name, value) :: g.values }

/-- Adds a flag that was not given before. -/
def addFlag (g : Given) (name : String) : Option Given :=
  if g.flags.contains name then none else some { g with flags := name :: g.flags }

/-- Adds an input. -/
def addInput (g : Given) (input : String) : Given :=
  { g with inputs := g.inputs ++ [input] }

end Given

/-- Whether an argument would be read as an option. -/
def looksLikeOption (arg : String) : Bool :=
  match arg.toList with
  | '-' :: _ :: _ => true
  | _ => false

/-- An option or a flag as an argument gives it: its name, and the value in the same argument. -/
structure Spelled where
  name : String
  attached : Option String
  deriving DecidableEq, Repr

/-- A long option, behind its two hyphens. -/
def spelledLong (cs : List Char) : Spelled :=
  match cs.dropWhile (· ≠ '=') with
  | [] => ⟨String.ofList cs, none⟩
  | _ :: value => ⟨String.ofList (cs.takeWhile (· ≠ '=')), some (String.ofList value)⟩

/-- A short option with what stands behind its letter. -/
def spelledShort? (letter : Char) : List Char → Option Spelled
  | [] => (longName? letter).map (⟨·, none⟩)
  | '=' :: value => (longName? letter).map (⟨·, some (String.ofList value)⟩)
  | value => (longName? letter).map (⟨·, some (String.ofList value)⟩)

/-- The option that an argument gives, if it is one. A single hyphen is none. -/
inductive Reading where
  | option (spelled : Spelled)
  | input
  | mistake

/-- How an argument is read. -/
def readingOf (arg : String) : Reading :=
  match arg.toList with
  | '-' :: '-' :: long => .option (spelledLong long)
  | '-' :: letter :: more =>
    match spelledShort? letter more with
    | some spelled => .option spelled
    | none => .mistake
  | _ => .input

/-- Sorts the arguments of a verb. -/
def scanArguments (v : Verb) (g : Given) : List String → Option Given
  | [] => some g
  | arg :: rest =>
    -- Behind two hyphens nothing is an option.
    if arg = "--" then some (rest.foldl Given.addInput g)
    else
      match readingOf arg with
      | .mistake => none
      | .input => scanArguments v (g.addInput arg) rest
      | .option ⟨name, attached⟩ =>
        if v.flags.contains name then
          match attached, g.addFlag name with
          | none, some g => scanArguments v g rest
          | _, _ => none
        else if v.valueOptions.contains name then
          match attached, rest with
          | some value, rest => (g.addValue name value).bind (scanArguments v · rest)
          | none, value :: rest =>
            if looksLikeOption value then none
            else (g.addValue name value).bind (scanArguments v · rest)
          | none, [] => none
        else none

/-! ## Invocations -/

namespace Given

/-- The value of an option. -/
def value? (g : Given) (name : String) : Option String :=
  g.values.lookup name

/-- The path that an option gives. Paths are not empty. -/
def path? (g : Given) (name : String) : Option (Option String) :=
  match g.value? name with
  | none => some none
  | some path => if path.isEmpty then none else some (some path)

/-- The one input, which is not empty. -/
def input? (g : Given) : Option Input :=
  match g.inputs with
  | [path] =>
    if path.isEmpty then none
    else (g.path? "config").map fun config => { path, selector := g.value? "selector", config }
  | _ => none

/-- The choice of colour. -/
def color? (g : Given) : Option ColorChoice :=
  match g.value? "color" with
  | none => some .auto
  | some name => ColorChoice.ofName? name

/-- The invocation of a verb with sorted arguments. -/
def invocation? (g : Given) (v : Verb) : Option Invocation := do
  let input ← g.input?
  let color ← g.color?
  let has := g.flags.contains
  match v with
  | .compile => return .compile input (← g.path? "output") (has "plain-close") color
  | .dump => return .dump input (has "plain-close") (has "binary") color
  | .check => return .check input (has "strict") (has "compact") color

end Given

/-- What a command line asks for, unless it is mistaken. -/
def Invocation.parse? : List String → Option Invocation
  | [] => none
  | first :: rest =>
    if first = "--version" || ['-', 'V'].isPrefixOf first.toList then some .version
    else do
      let verb ← Verb.ofName? first
      let given ← scanArguments verb {} rest
      given.invocation? verb

end Stencil.Command

import Stencil.Config.Basic

/-!
# Configuration texts

A configuration is written in JSON: an object with some of the three settings, or an array with
the first of them. Reading is strict. Blanks are space, tab, line feed and carriage return; a name
that is unknown or comes twice, `null`, a number that is not a plain integer, and anything after
the end are all refused.

## Main definitions

* `Reader`: reading from the front of a text
* `stringLiteral`, `naturalLiteral`: JSON strings and unsigned integers
* `Config.ofText?`: the configuration that a text writes
-/

namespace Stencil.Config

/-- Reads a value from the front of a text, and leaves the rest, or refuses. -/
abbrev Reader := StateT (List Char) Option

namespace Reader

/-- The blanks between the parts of a text. -/
def isBlank (c : Char) : Bool :=
  c = ' ' || c = '\t' || c = '\n' || c = '\r'

/-- Skips blanks. -/
def skipBlanks : Reader Unit :=
  modify (·.dropWhile isBlank)

/-- The next character, which is not read. -/
def peek : Reader (Option Char) := do
  skipBlanks
  return (← get).head?

/-- Reads the given characters. -/
def exactly (cs : List Char) : Reader Unit := fun s =>
  if cs.isPrefixOf s then some ((), s.drop cs.length) else none

/-- Reads a mark, with blanks in front of it. -/
def mark (c : Char) : Reader Unit := do
  skipBlanks
  exactly [c]

/-! ## Strings -/

/-- The value of a hexadecimal digit. -/
def hexDigit? (c : Char) : Option Nat :=
  if '0' ≤ c && c ≤ '9' then some (c.toNat - 48)
  else if 'a' ≤ c && c ≤ 'f' then some (c.toNat - 87)
  else if 'A' ≤ c && c ≤ 'F' then some (c.toNat - 55)
  else none

/-- The value of four hexadecimal digits. -/
def hexWord? (a b c d : Char) : Option Nat := do
  let a ← hexDigit? a
  let b ← hexDigit? b
  let c ← hexDigit? c
  let d ← hexDigit? d
  return ((a * 16 + b) * 16 + c) * 16 + d

/-- The character of an escape of one letter. -/
def escaped? : Char → Option Char
  | '"' => some '"'
  | '\\' => some '\\'
  | '/' => some '/'
  | 'b' => some '\x08'
  | 'f' => some '\x0c'
  | 'n' => some '\n'
  | 'r' => some '\r'
  | 't' => some '\t'
  | _ => none

/-- Whether a code unit is the first half of a pair. -/
def isHigh (n : Nat) : Bool := 0xD800 ≤ n && n ≤ 0xDBFF

/-- Whether a code unit is the second half of a pair. -/
def isLow (n : Nat) : Bool := 0xDC00 ≤ n && n ≤ 0xDFFF

/-- A character in front of what a reader yields. -/
def push (c : Char) (r : Option (List Char × List Char)) : Option (List Char × List Char) :=
  r.map fun (cs, rest) => (c :: cs, rest)

/-- The characters of a string behind its first quote, and what follows its last. Halves of a
pair of code units have to come together. -/
def stringBody : List Char → Option (List Char × List Char)
  | '"' :: rest => some ([], rest)
  | '\\' :: 'u' :: a :: b :: c :: d :: rest =>
    match hexWord? a b c d with
    | none => none
    | some n =>
      if isHigh n then
        match rest with
        | '\\' :: 'u' :: e :: f :: g :: h :: rest =>
          match hexWord? e f g h with
          | none => none
          | some m =>
            if isLow m then
              push (Char.ofNat (0x10000 + (n - 0xD800) * 0x400 + (m - 0xDC00))) (stringBody rest)
            else none
        | _ => none
      else if isLow n then none
      else push (Char.ofNat n) (stringBody rest)
  | '\\' :: c :: rest =>
    match escaped? c with
    | none => none
    | some c => push c (stringBody rest)
  | c :: rest => if c.toNat < 0x20 then none else push c (stringBody rest)
  | [] => none

/-- Reads a string. -/
def stringLiteral : Reader String := do
  mark '"'
  let cs ← stringBody
  return String.ofList cs

/-! ## Numbers -/

/-- The number that decimal digits write. -/
def decimal (digits : List Char) : Nat :=
  digits.foldl (fun n c => 10 * n + (c.toNat - 48)) 0

/-- Reads an unsigned integer of at most 64 bits, without leading zeros. -/
def naturalLiteral : Reader Nat := do
  skipBlanks
  let digits := (← get).takeWhile Char.isDigit
  modify (·.dropWhile Char.isDigit)
  let n := decimal digits
  if digits.isEmpty || (digits.length > 1 && digits.head? = some '0') || n ≥ UInt64.size then
    failure
  return n

/-! ## Settings -/

/-- The settings that a text has given so far. -/
structure Fields where
  closeMode : Option CloseMode := none
  placeholderTag : Option String := none
  maxEntries : Option Nat := none

/-- The configuration with the given settings. -/
def Fields.config (f : Fields) : Config :=
  let d : Config := {}
  { closeMode := f.closeMode.getD d.closeMode
    placeholderTag := f.placeholderTag.getD d.placeholderTag
    maxEntries := f.maxEntries.getD d.maxEntries }

/-- The close mode of a name. -/
def closeModeOf? (name : String) : Option CloseMode :=
  if name = "void_opcode" then some .voidOpcode
  else if name = "plain_close" then some .plainClose
  else none

/-- Reads a close mode: its name, or an object that gives its name the value `null`. -/
def closeModeValue : Reader CloseMode := do
  if (← peek) = some '"' then closeModeOf? (← stringLiteral)
  else
    mark '{'
    let mode ← closeModeOf? (← stringLiteral)
    mark ':'
    skipBlanks
    exactly ['n', 'u', 'l', 'l']
    mark '}'
    return mode

/-- Reads the value of a setting that was not given before. -/
def setting (name : String) (f : Fields) : Reader Fields :=
  if name = "close_mode" then
    if f.closeMode.isSome then failure
    else do return { f with closeMode := some (← closeModeValue) }
  else if name = "placeholder_tag" then
    if f.placeholderTag.isSome then failure
    else do return { f with placeholderTag := some (← stringLiteral) }
  else if name = "max_payload_entries" then
    if f.maxEntries.isSome then failure
    else do return { f with maxEntries := some (← naturalLiteral) }
  else failure

/-- The settings in the order of an array. -/
def settingNames : List String :=
  ["close_mode", "placeholder_tag", "max_payload_entries"]

/-- Reads at least one and at most `n` more members of an object, and its end. -/
def members : Nat → Fields → Reader Fields
  | 0, _ => failure
  | n + 1, f => do
    let name ← stringLiteral
    mark ':'
    let f ← setting name f
    if (← peek) = some ',' then
      mark ','
      members n f
    else
      mark '}'
      return f

/-- Reads the settings of an object. There are no more members than settings, since none comes
twice. -/
def object : Reader Fields := do
  mark '{'
  if (← peek) = some '}' then
    mark '}'
    return {}
  else members settingNames.length {}

/-- Reads the value of the first of the named settings from an array, those of as many others as
there are, and its end. -/
def items : List String → Fields → Reader Fields
  | [], _ => failure
  | name :: rest, f => do
    let f ← setting name f
    if (← peek) = some ',' then
      mark ','
      items rest f
    else
      mark ']'
      return f

/-- Reads the settings of an array. -/
def array : Reader Fields := do
  mark '['
  if (← peek) = some ']' then
    mark ']'
    return {}
  else items settingNames {}

/-- Reads a whole configuration text. -/
def document : Reader Config := do
  let f ← if (← peek) = some '[' then array else object
  if (← peek).isSome then failure
  return f.config

end Reader

/-- The configuration that a text writes. -/
def ofText? (text : String) : Option Config :=
  (Reader.document.run text.toList).map (·.1)

end Stencil.Config

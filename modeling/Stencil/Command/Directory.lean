import Stencil.File
import Stencil.Wire.Image

/-!
# Files

Commands reach files through three operations, whatever provides them. A directory held in memory
provides them too: files and folders by their paths, and the bytes of the standard input.

A path is followed from the directory, or from the root of the system if it begins with a slash.
Every part of it but the last has to lead to a folder. What lies outside the directory are the
folders above it, in which nothing else is known, and from the root on a few folders that every
system has, with the device that is always empty.

## Main definitions

* `Files`: reading and writing, in any monad
* `Directory`, `Directory.ofNames`: a directory in memory
* `Place`, `Directory.enter`: the folder that the parts of a path lead to
* `Directory.read`, `Directory.write`, `Directory.files`: reading and writing in a directory
* `Directory.loadImage`: the image in a file
-/

namespace Stencil.Command

/-- Reading and writing files. -/
structure Files (m : Type → Type) where
  read : String → m (Except FileFault (List UInt8))
  readInput : m (Except FileFault (List UInt8))
  write : String → List UInt8 → m (Except FileFault Unit)

/-- A file with its bytes, or a folder. -/
inductive Entry where
  | file (bytes : List UInt8)
  | folder
  deriving DecidableEq, Repr

/-- A path: whether it begins at the root, its parts, and whether it ends with a slash. -/
structure Path where
  absolute : Bool
  front : List String
  last : Option String
  slash : Bool
  deriving DecidableEq, Repr

/-- The parts of a text between slashes. -/
def partsOf (text : String) : List String :=
  (text.splitOn "/").filter (· ≠ "")

/-- The path that a text writes. -/
def Path.ofText (text : String) : Path :=
  let parts := partsOf text
  { absolute := text.toList.head? = some '/'
    front := parts.dropLast
    last := parts.getLast?
    slash := text.toList.getLast? = some '/' }

/-- A folder: one inside the directory by the parts that lead to it, one above the directory, or
one by the parts that lead to it from the root. -/
inductive Place where
  | inside (parts : List String)
  | above
  | rooted (parts : List String)
  deriving DecidableEq, Repr

/-- The folder around a folder. The root is around itself. -/
def Place.parent : Place → Place
  | inside [] => above
  | inside parts => inside parts.dropLast
  | above => above
  | rooted parts => rooted parts.dropLast

/-- The folder of a name in a folder. -/
def Place.child (name : String) : Place → Place
  | inside parts => inside (parts ++ [name])
  | above => above
  | rooted parts => rooted (parts ++ [name])

/-- What every system has outside the directory. -/
def systemEntries : List (List String × Entry) :=
  [(["dev"], .folder), (["dev", "null"], .file []), (["etc"], .folder), (["tmp"], .folder),
    (["usr"], .folder), (["var"], .folder)]

/-- A directory in memory, with the parts of the path that lead to each entry, and the bytes of
the standard input. -/
structure Directory where
  entries : List (List String × Entry) := []
  input : List UInt8 := []

namespace Directory

/-- The directory with entries of the given names. -/
def ofNames (entries : List (String × Entry)) (input : List UInt8) : Directory :=
  { entries := entries.map fun (name, entry) => (partsOf name, entry), input }

/-- What the parts of a path lead to from the directory. What has entries is a folder. -/
def find? (d : Directory) (parts : List String) : Option Entry :=
  match d.entries.lookup parts with
  | some entry => some entry
  | none => if d.entries.any fun e => parts.isPrefixOf e.1 then some .folder else none

/-- What a folder has under a name. -/
def lookup (d : Directory) (name : String) : Place → Option Entry
  | .inside parts => d.find? (parts ++ [name])
  | .above => none
  | .rooted parts => systemEntries.lookup (parts ++ [name])

/-- The most bytes of a part of a path, and of a whole path. -/
def partLimit : Nat := 255

@[inherit_doc partLimit]
def pathLimit : Nat := 4095

/-- What a part of a path leads to. -/
def entry (d : Directory) (here : Place) (part : String) : Except FileFault Entry :=
  if part = "." || part = ".." then .ok .folder
  else if part.utf8ByteSize > partLimit then .error .nameTooLong
  else
    match d.lookup part here with
    | none => .error .notFound
    | some entry => .ok entry

/-- The folder that a part of a path leads to. -/
def enter (d : Directory) (here : Place) (part : String) : Except FileFault Place :=
  match d.entry here part with
  | .error fault => .error fault
  | .ok (.file _) => .error .notDirectory
  | .ok .folder =>
    .ok (if part = "." then here else if part = ".." then here.parent else here.child part)

/-- The folder that the last part of a path stands in. -/
def home (d : Directory) (path : Path) : Except FileFault Place :=
  path.front.foldlM d.enter (if path.absolute then .rooted [] else .inside [])

/-- The bytes of a file. A path that ends with a slash leads to folders only. -/
def read (d : Directory) (text : String) : Except FileFault (List UInt8) := do
  if text.utf8ByteSize > pathLimit then throw .nameTooLong
  let path := Path.ofText text
  let here ← d.home path
  match path.last with
  | none => throw .isDirectory
  | some name =>
    match ← d.entry here name with
    | .folder => throw .isDirectory
    | .file bytes => if path.slash then throw .notDirectory else return bytes

/-- The directory after a file was put into a folder. Files outside are not kept. -/
def put (d : Directory) (here : Place) (name : String) (bytes : List UInt8) : Directory :=
  match here with
  | .inside parts =>
    let parts := parts ++ [name]
    { d with entries := (parts, .file bytes) :: d.entries.filter (·.1 ≠ parts) }
  | _ => d

/-- The directory after a file was written. A path that ends with a slash is taken for a folder,
whatever it leads to. -/
def write (d : Directory) (text : String) (bytes : List UInt8) : Except FileFault Directory := do
  if text.utf8ByteSize > pathLimit then throw .nameTooLong
  let path := Path.ofText text
  let here ← d.home path
  match path.last with
  | none => throw .isDirectory
  | some name =>
    if path.slash then throw .isDirectory
    match d.entry here name with
    | .ok .folder => throw .isDirectory
    | .ok (.file _) | .error .notFound => return d.put here name bytes
    | .error fault => throw fault

/-- The operations on a directory in memory. -/
def files : Files (StateM Directory) where
  read path := return (← get).read path
  readInput := return .ok (← get).input
  write path bytes := do
    match (← get).write path bytes with
    | .error fault => return .error fault
    | .ok d =>
      set d
      return .ok ()

/-- The image in a file. -/
def loadImage (d : Directory) (path : String) : Except Wire.ImageError Wire.Image :=
  match d.read path with
  | .error fault => .error (.unreadable fault)
  | .ok bytes => Wire.Image.load bytes

end Directory

end Stencil.Command

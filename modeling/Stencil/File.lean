/-!
# Reading and writing files

Why a file could not be read or written, in the words of the operating system.

## Main definitions

* `FileFault`, `FileFault.message`: the causes and their wording
* `FileFault.ofCode?`: the cause that the operating system gives a number
-/

namespace Stencil

/-- Why a file could not be read or written. -/
inductive FileFault where
  | notFound
  | denied
  | notDirectory
  | isDirectory
  | nameTooLong
  | notText
  | other (reason : String)
  deriving DecidableEq, Repr

namespace FileFault

/-- The reason as it stands in messages. -/
def message : FileFault → String
  | notFound => "No such file or directory (os error 2)"
  | denied => "Permission denied (os error 13)"
  | notDirectory => "Not a directory (os error 20)"
  | isDirectory => "Is a directory (os error 21)"
  | nameTooLong => "File name too long (os error 36)"
  | notText => "stream did not contain valid UTF-8"
  | other reason => reason

/-- The cause to which the operating system gives a number. -/
def ofCode? (code : Nat) : Option FileFault :=
  [(2, notFound), (13, denied), (20, notDirectory), (21, isDirectory),
    (36, nameTooLong)].lookup code

end FileFault

end Stencil

import ChainCalc.Command.Basic
import ChainCalc.Text.Line

/-!
# Reading the input of a command

Standard input is taken line by line and put together again with a line feed after every line. A
`Folder` stands for the files that a command can reach.
-/

namespace ChainCalc

/-- Why bytes cannot be read as text. -/
inductive ReadError
  | notFound
  | notDirectory
  | isDirectory
  | notUtf8
  /-- Any other failure, in the words of the system. -/
  | other (detail : String)
deriving Repr, DecidableEq

def ReadError.message : ReadError → String
  | notFound => "No such file or directory (os error 2)"
  | notDirectory => "Not a directory (os error 20)"
  | isDirectory => "Is a directory (os error 21)"
  | notUtf8 => "stream did not contain valid UTF-8"
  | other detail => detail

/-- The input of a command that cannot be read. -/
inductive InputError
  | file (path : String) (cause : ReadError)
  | standardInput (cause : ReadError)
deriving Repr, DecidableEq

def InputError.message : InputError → String
  | file path cause =>
    "Failed to read the input file '" ++ path ++ "'. Perhaps this file does not exist? (" ++
      cause.message ++ ")"
  | standardInput cause => "Failed to read standard input: " ++ cause.message

/-- The text that some bytes encode. -/
def decodeText (bytes : ByteArray) : Except ReadError String :=
  match String.fromUTF8? bytes with
  | some text => .ok text
  | none => .error .notUtf8

/-- The bytes around a command: its standard input, and the files by their paths. -/
structure Surroundings where
  standardInput : ByteArray
  file : String → Except ReadError ByteArray

/-- The text of a source. -/
def Source.read (around : Surroundings) : Source → Except InputError String
  | text contents => .ok contents
  | file path => ((around.file path).bind decodeText).mapError (.file path)
  | standardInput =>
    match decodeText around.standardInput with
    | .ok whole => .ok (String.ofList (unlines (lines whole.toList)))
    | .error e => .error (.standardInput e)

/-- Files under their paths from one folder on. -/
structure Folder where
  files : List (List String × ByteArray)

namespace Folder

/-- The segments of a path, between its slashes. -/
def segments (path : String) : List String := path.splitOn "/"

def ofFiles (files : List (String × ByteArray)) : Folder :=
  ⟨files.map fun (path, bytes) => (segments path, bytes)⟩

def isFolder (f : Folder) (place : List String) : Bool :=
  place.isEmpty || f.files.any fun (path, _) => place.isPrefixOf path && place != path

/-- Follows the segments of a path from a place inside the folder. Nothing is known of what lies
outside of the folder, except that its parents are folders. -/
def walk (f : Folder) (place : List String) : List String → Except ReadError ByteArray
  | [] =>
    match f.files.lookup place with
    | some bytes => .ok bytes
    | none => if f.isFolder place then .error .isDirectory else .error .notFound
  | s :: rest =>
    if f.isFolder place then
      if s = "" || s = "." then f.walk place rest
      else if s = ".." then
        if !place.isEmpty then f.walk place.dropLast rest
        else if rest.all fun s => s = "" || s = "." || s = ".." then .error .isDirectory
        else .error .notFound
      else f.walk (place ++ [s]) rest
    else if (f.files.lookup place).isSome then .error .notDirectory
    else .error .notFound

/-- The bytes of a file. The empty path leads nowhere, and an absolute one out of the folder. -/
def read (f : Folder) (path : String) : Except ReadError ByteArray :=
  match segments path with
  | [""] => .error .notFound
  | "" :: rest =>
    if rest.all fun s => s = "" || s = "." || s = ".." then .error .isDirectory
    else .error .notFound
  | segments => f.walk [] segments

end Folder

end ChainCalc

import ChainCalc.Evaluator
import ChainCalc.Sequence

/-!
# The command line

`eval` runs a script and `peek` selects peeks, line by line. Options may stand before or after the
input, each at most once, and short ones may be joined. Everything after `--` is input.
-/

namespace ChainCalc

/-- Where the input of a command comes from. -/
inductive Source
  | text (contents : String)
  | file (path : String)
  | standardInput
deriving Repr, DecidableEq

inductive Command
  | version
  | eval (source : Source) (printAll : Bool) (limit : Nat)
  | peek (source : Source)
deriving Repr, DecidableEq

/-- An argument after the name of a command. -/
inductive Argument
  /-- The input is the path of a file. -/
  | file
  /-- The value of every statement is printed. -/
  | printAll
  /-- The number of calls that may be nested. -/
  | maxDepth (limit : Nat)
  | contents (text : String)
deriving Repr, DecidableEq

namespace Argument

/-- What an argument sets; no two arguments may set the same. -/
inductive Kind
  | file
  | printAll
  | maxDepth
  | contents
deriving Repr, DecidableEq

def kind : Argument → Kind
  | file => .file
  | printAll => .printAll
  | maxDepth _ => .maxDepth
  | contents _ => .contents

def limit? : Argument → Option Nat
  | maxDepth limit => some limit
  | _ => none

def contents? : Argument → Option String
  | contents text => some text
  | _ => none

/-- Reads a limit: digits with an optional plus sign, of at most 64 bits. -/
def readLimit? (cs : List Char) : Option Nat :=
  let digits := match cs with
    | '+' :: digits => digits
    | digits => digits
  (readMagnitude (Nat.pow 2 64 - 1) .tooLarge digits).toOption

def ofLetter? : Char → Option Argument
  | 'f' => some file
  | 'a' => some printAll
  | _ => none

/-- The argument of a long option, by what follows its two dashes. -/
def ofName? (name : List Char) : Option Argument :=
  if name = "file".toList then some file
  else if name = "print-all".toList then some printAll
  else if "max-depth=".toList.isPrefixOf name then (readLimit? (name.drop 10)).map maxDepth
  else none

/-- The arguments in one word. -/
def ofWord? (word : String) : Option (List Argument) :=
  match word.toList with
  | '-' :: '-' :: name => (ofName? name).map ([·])
  | '-' :: c :: cs => (c :: cs).mapM ofLetter?
  | _ => some [contents word]

def ofWords? : List String → Option (List Argument)
  | [] => some []
  | "--" :: words => some (words.map contents)
  | "--max-depth" :: value :: words => do
    let limit ← readLimit? value.toList
    return maxDepth limit :: (← ofWords? words)
  | word :: words => do return (← ofWord? word) ++ (← ofWords? words)

end Argument

namespace Command

/-- The source of the input. A path must be given where one is announced. -/
def source? (arguments : List Argument) : Option Source :=
  match arguments.contains .file, arguments.findSome? Argument.contents? with
  | true, some path => some (.file path)
  | true, none => none
  | false, some text => some (.text text)
  | false, none => some .standardInput

/-- The arguments of a command that takes only some kinds of them. -/
def arguments? (allowed : List Argument.Kind) (words : List String) : Option (List Argument) := do
  let arguments ← Argument.ofWords? words
  let kinds := arguments.map Argument.kind
  if kinds.all allowed.contains && kinds.Nodup then return arguments else none

/-- Reads the words after the name of the program; `none` if they are no command. -/
def parse? : List String → Option Command
  | [] => none
  | "--version" :: _ => some version
  | "eval" :: words => do
    let arguments ← arguments? [.file, .printAll, .maxDepth, .contents] words
    return eval (← source? arguments) (arguments.contains .printAll)
      ((arguments.findSome? Argument.limit?).getD defaultLimit)
  | "peek" :: words => do
    let arguments ← arguments? [.file, .contents] words
    return peek (← source? arguments)
  | word :: _ => if ['-', 'V'].isPrefixOf word.toList then some version else none

end Command

end ChainCalc

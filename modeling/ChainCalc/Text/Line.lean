/-!
# Lines

A line ends at a line feed, or at a carriage return with a line feed after it. The last line may go
without an ending, and a text that ends in a line feed has no empty line after it.
-/

namespace ChainCalc

/-- The lines of a text, without their endings. -/
def lines : List Char → List (List Char)
  | [] => []
  | '\n' :: cs => [] :: lines cs
  | '\r' :: '\n' :: cs => [] :: lines cs
  | c :: cs =>
    match lines cs with
    | [] => [[c]]
    | l :: ls => (c :: l) :: ls

/-- The text of some lines, each ended by a line feed. -/
def unlines (ls : List (List Char)) : List Char := ls.flatMap (· ++ ['\n'])

end ChainCalc

import ChainCalc.Text.CodeRange

/-!
# Names in quotes

How the trace shows a name. The Hangul fillers are the only letters that are displayed as nothing
at all (they have the property Default_Ignorable_Code_Point), so they are written by their code
points.
-/

namespace ChainCalc

/-- The code points of the Hangul fillers. -/
def fillerRanges : List (Nat × Nat) := [(0x115F, 0x1160), (0x3164, 0x3164), (0xFFA0, 0xFFA0)]

def isFiller (c : Char) : Bool := inRanges c.toNat fillerRanges

def quotedChar (c : Char) : List Char :=
  if isFiller c then
    '\\' :: 'u' :: '\x7b' :: Nat.toDigits 16 c.toNat ++ ['\x7d']
  else [c]

def quoted (name : String) : String :=
  String.ofList ('"' :: name.toList.flatMap quotedChar ++ ['"'])

end ChainCalc

/-!
# Letter case

Words are compared without regard to case.  Folding needs to reach only the characters that fold
into the letters of the words compared: for small letters these are the capitals of the basic
alphabet, for capitals also the dotless `ı` and the long `ſ`.
-/

namespace Wireframe
namespace Text

/-- The small form of a capital of the basic alphabet. -/
def lower (c : Char) : Char :=
  if 'A' ≤ c ∧ c ≤ 'Z' then Char.ofNat (c.toNat + 32) else c

/-- The capital form of a character whose capital is a single basic letter. -/
def upper (c : Char) : Char :=
  if 'a' ≤ c ∧ c ≤ 'z' then Char.ofNat (c.toNat - 32)
  else if c = 'ı' then 'I'
  else if c = 'ſ' then 'S'
  else c

/-- A text with its basic capitals made small. -/
def lowercase (s : String) : String :=
  String.ofList (s.toList.map lower)

/-- A text with its letters made capital. -/
def uppercase (s : String) : String :=
  String.ofList (s.toList.map upper)

end Text
end Wireframe

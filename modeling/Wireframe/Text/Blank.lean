/-!
# Blank characters

Two classes of white space.  Blanks are all the white space of Unicode, with the four information
separators; padding is what may surround a number, which leaves those separators out.
-/

namespace Wireframe
namespace Text

/-- The information separators, four control characters that count as blank. -/
def isSeparator (c : Char) : Bool :=
  0x1C ≤ c.toNat && c.toNat ≤ 0x1F

/-- White space that may surround a number. -/
def isPadding (c : Char) : Bool :=
  (0x09 ≤ c.toNat && c.toNat ≤ 0x0D) || c.toNat == 0x20 || c.toNat == 0x85 || c.toNat == 0xA0 ||
    c.toNat == 0x1680 || (0x2000 ≤ c.toNat && c.toNat ≤ 0x200A) || c.toNat == 0x2028 ||
    c.toNat == 0x2029 || c.toNat == 0x202F || c.toNat == 0x205F || c.toNat == 0x3000

/-- White space in the widest sense. -/
def isBlank (c : Char) : Bool :=
  isPadding c || isSeparator c

/-- Remove the characters of a class from the end of a text. -/
def dropEndWhile (p : Char → Bool) (cs : List Char) : List Char :=
  (cs.reverse.dropWhile p).reverse

/-- Remove the characters of a class from both ends of a text. -/
def trim (p : Char → Bool) (cs : List Char) : List Char :=
  dropEndWhile p (cs.dropWhile p)

theorem isBlank_of_isPadding (c : Char) (h : isPadding c = true) : isBlank c = true := by
  simp [isBlank, h]

end Text
end Wireframe

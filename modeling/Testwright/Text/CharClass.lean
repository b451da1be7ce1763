import Testwright.Text.Alphabetic
import Testwright.Text.Marks
import Testwright.Text.Numbers

/-!
# Character classes

The classes that scanning and trimming are written in. All of them are classes of Unicode: a blank
is any white space, a digit any decimal digit, and a word character what may stand inside a word.
Letters and numbers are those of version 17 of the standard; the two classes that patterns are
written in, digits and word characters, are those of version 16, without the characters that are
listed as `recent`.
-/

namespace Testwright.Text

/-- What holds of the characters of a list is decided along the list, also where all characters there
are can be gone through. -/
instance decidableForallMem {p : Char → Prop} [DecidablePred p] (cs : List Char) :
    Decidable (∀ c ∈ cs, p c) :=
  List.decidableBAll p cs

/-- The property `White_Space`. -/
def blanks : Ranges := [
  (0x9, 0xD), (0x20, 0x20), (0x85, 0x85), (0xA0, 0xA0), (0x1680, 0x1680), (0x2000, 0x200A),
  (0x2028, 0x2029), (0x202F, 0x202F), (0x205F, 0x205F), (0x3000, 0x3000)]

/-- White space. -/
def isBlank (c : Char) : Bool := blanks.has c.toNat

/-- The letters, marks and decimal digits that version 17 of the standard adds. -/
def recent : Ranges := [
  (0x88F, 0x88F), (0xC5C, 0xC5C), (0xCDC, 0xCDC), (0x1ACF, 0x1ADD), (0x1AE0, 0x1AEB),
  (0xA7CE, 0xA7CF), (0xA7D2, 0xA7D2), (0xA7D4, 0xA7D4), (0xA7F1, 0xA7F1), (0x10940, 0x10959),
  (0x10EC5, 0x10EC7), (0x10EFA, 0x10EFB), (0x11B60, 0x11B67), (0x11DB0, 0x11DDB),
  (0x11DE0, 0x11DE9), (0x16EA0, 0x16EB8), (0x16EBB, 0x16ED3), (0x16FF2, 0x16FF6),
  (0x187F8, 0x187FF), (0x18D09, 0x18D1E), (0x18D80, 0x18DF2), (0x1E6C0, 0x1E6DE),
  (0x1E6E0, 0x1E6F5), (0x1E6FE, 0x1E6FF), (0x2B73A, 0x2B73F), (0x2CEA2, 0x2CEAD),
  (0x323B0, 0x33479)]

/-- Whether version 17 of the standard adds the character. -/
def isRecent (c : Char) : Bool := recent.has c.toNat

/-- A letter, in the wide sense of the property `Alphabetic`. -/
def isAlphabetic (c : Char) : Bool := alphabetic.has c.toNat

/-- A letter or a number of any kind. -/
def isAlphanumeric (c : Char) : Bool :=
  isAlphabetic c || decimalDigits.has c.toNat || otherNumbers.has c.toNat

/-- A decimal digit of any script, in patterns. -/
def isDigit (c : Char) : Bool := decimalDigits.has c.toNat && !isRecent c

/-- A character that may stand inside a word in version 17 of the standard: a letter, a mark,
a decimal digit, a connector such as the underscore, or one of the two joiners. -/
def isWordPart (c : Char) : Bool :=
  isAlphabetic c || decimalDigits.has c.toNat || connectors.has c.toNat || marks.has c.toNat ||
    c.toNat == 0x200C || c.toNat == 0x200D

/-- A character that may stand inside a word, in patterns. -/
def isWord (c : Char) : Bool := isWordPart c && !isRecent c

/-- Any character but the line feed. -/
def isInline (c : Char) : Bool := c != '\n'

/-- A letter in either case. The letter `s` also stands for the long s, which has the same upper
case. -/
def sameLetter (letter : Char) (c : Char) : Bool :=
  c == letter || c.toLower == letter || (letter == 's' && c.toNat == 0x17F)

end Testwright.Text

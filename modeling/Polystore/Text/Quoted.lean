import Polystore.Text.Blank
import Polystore.Text.Extender
import Polystore.Text.Unassigned

/-
  Polystore/Text/Quoted.lean
  ==========================
  **Texts in quotes.**  A text is put in double quotes so that it can be read off
  a line: quotes and backslashes get a backslash, and a character that leaves no
  mark of its own is written by a letter or by its number.
-/

namespace Polystore.Text

/-- Control, format and private characters: the Unicode general categories `Cc`,
    `Cf` and `Co`. -/
def controlRanges : Ranges :=
  [(0x0, 0x1F), (0x7F, 0x9F), (0xAD, 0xAD), (0x600, 0x605), (0x61C, 0x61C), (0x6DD, 0x6DD),
   (0x70F, 0x70F), (0x890, 0x891), (0x8E2, 0x8E2), (0x180E, 0x180E), (0x200B, 0x200F),
   (0x202A, 0x202E), (0x2060, 0x2064), (0x2066, 0x206F), (0xE000, 0xF8FF), (0xFEFF, 0xFEFF),
   (0xFFF9, 0xFFFB), (0x110BD, 0x110BD), (0x110CD, 0x110CD), (0x13430, 0x1343F),
   (0x1BCA0, 0x1BCA3), (0x1D173, 0x1D17A), (0xE0001, 0xE0001), (0xE0020, 0xE007F),
   (0xF0000, 0xFFFFD), (0x100000, 0x10FFFD)]

theorem controlRanges_ascending : controlRanges.ascending = true := by decide +kernel

/-- Letters that are drawn as nothing: they fill the place of a missing part of a
    Hangul syllable. -/
def fillers : List Nat := [0x115F, 0x1160, 0x3164, 0xFFA0]

/-- Whether a character leaves no mark of its own.  The blank counts as a mark. -/
def isUnseen (c : Char) : Bool :=
  c ≠ ' ' &&
    (isBlank c || controlRanges.contains c.toNat || fillers.contains c.toNat || isExtender c ||
      isUnassigned c)

def numbered (c : Char) : List Char :=
  ['\\', 'u', '\x7b'] ++ Nat.toDigits 16 c.toNat ++ ['\x7d']

/-- A character inside quotes. -/
def quotedChar (c : Char) : List Char :=
  match c with
  | '"' => ['\\', '"']
  | '\\' => ['\\', '\\']
  | '\n' => ['\\', 'n']
  | '\r' => ['\\', 'r']
  | '\t' => ['\\', 't']
  | '\x00' => ['\\', '0']
  | c => if isUnseen c then numbered c else [c]

def quoted (text : String) : String :=
  String.ofList ('"' :: text.toList.flatMap quotedChar ++ ['"'])

end Polystore.Text

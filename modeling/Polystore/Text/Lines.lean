/-
  Polystore/Text/Lines.lean
  =========================
  **Labels and lines.**  Shortening a label to a number of characters, and
  indenting a text line by line.
-/

namespace Polystore.Text

/-- Keep a text of at most `limit` characters; of a longer one keep the first
    `limit - 3` and mark the cut with three dots. -/
def truncate (text : String) (limit : Nat) : String :=
  let cs := text.toList
  if cs.length ≤ limit then text
  else String.ofList (cs.take (limit - 3)) ++ "..."

/-- Drop the carriage return of a line that ended in `\r\n`. -/
def dropReturn (line : List Char) : List Char :=
  if line.getLast? = some '\r' then line.dropLast else line

/-- Split at line feeds.  Each terminated line loses one carriage return before
    its terminator; text after the last terminator is a line of its own unless it
    is empty.  `line` holds the characters of the current line in reverse. -/
def linesFrom (line : List Char) : List Char → List (List Char)
  | [] => if line.isEmpty then [] else [line.reverse]
  | '\n' :: rest => dropReturn line.reverse :: linesFrom [] rest
  | c :: rest => linesFrom (c :: line) rest

def lines (text : String) : List String :=
  (linesFrom [] text.toList).map String.ofList

/-- Put `margin` before every line. -/
def indent (text margin : String) : String :=
  String.intercalate "\n" ((lines text).map (margin ++ ·))

/-- The items of a list, separated by a comma and a blank. -/
def commaList (items : List String) : String :=
  String.intercalate ", " items

/-- A text in quotes of the kind `mark`; a `mark` inside is written twice. -/
def doubled (mark : Char) (text : String) : String :=
  String.ofList (mark :: text.toList.flatMap (fun c => if c = mark then [c, c] else [c]) ++ [mark])

end Polystore.Text

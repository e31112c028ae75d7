import Polystore.Json.Basic
import Polystore.Pushdown.Term

/-
  Polystore/Pushdown/Literal.lean
  ===============================
  **Values and patterns in native languages.**  The JSON and the textual form of
  a term's right-hand side, quoting of identifiers, and LIKE patterns as regular
  expressions and as wildcards.
-/

namespace Polystore

/-! ### Values -/

/-- The JSON form of a value.  A double that JSON has no number for becomes
    `null`; bytes become a string of hexadecimal digits. -/
def Value.json : Value → Json
  | .null => .null
  | .bool b => .bool b
  | .bigint i => .int i.toInt
  | .double x => if x.isFinite then .float x else .null
  | .string s => .string s
  | .binary bytes => .string (Value.hexText bytes)
  | .date d => .int d.toInt
  | .timestamp t => .int t.toInt

/-- The JSON form of a right-hand side; a parameter becomes a placeholder. -/
def TermValue.json : TermValue → Json
  | .param i => .single "$param" (.nat i)
  | .literal v => v.json

/-- The form of a value in a textual query: strings in quotes, bytes as a
    hexadecimal number, anything else in canonical form. -/
def Value.clauseText : Value → String
  | .string s => Text.doubled '\'' s
  | .binary bytes => "0x" ++ Value.hexText bytes
  | v => v.canonical

/-- The form of a right-hand side in a textual query. -/
def TermValue.clauseText : TermValue → String
  | .param i => ":p" ++ Number.natText i
  | .literal v => v.clauseText

/-- An identifier in double quotes. -/
def quoteName (name : String) : String := Text.doubled '"' name

/-! ### Patterns -/

/-- The characters that mean something in a regular expression. -/
def isRegexSpecial (c : Char) : Bool :=
  ['\\', '.', '+', '*', '?', '(', ')', '[', ']', '\x7b', '\x7d', '|', '^', '$'].contains c

/-- One character of a pattern in a regular expression. -/
def regexChar (c : Char) : List Char :=
  if c = '%' then ['.', '*']
  else if c = '_' then ['.']
  else if isRegexSpecial c then ['\\', c]
  else [c]

/-- An anchored regular expression for a LIKE pattern. -/
def likeRegex (pattern : String) : String :=
  String.ofList ('^' :: pattern.toList.flatMap regexChar ++ ['$'])

/-- One character of a pattern in a wildcard. -/
def wildcardChar (c : Char) : List Char :=
  if c = '%' then ['*']
  else if c = '_' then ['?']
  else if c = '*' ∨ c = '?' ∨ c = '\\' then ['\\', c]
  else [c]

def likeWildcard (pattern : String) : String :=
  String.ofList (pattern.toList.flatMap wildcardChar)

end Polystore

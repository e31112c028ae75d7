/-
  Polystore/Like.lean
  ===================
  **LIKE patterns.**  A pattern is read left to right into items: `%` stands for
  any sequence of characters, `_` for any one character, a backslash makes the
  next character stand for itself, and every other character, a final backslash
  included, stands for itself.  A text matches when it can be cut into consecutive
  pieces, one for each item.
-/

namespace Polystore

/-- One item of a pattern. -/
inductive LikeItem where
  | anySequence
  | anyChar
  | exactly (c : Char)
deriving DecidableEq

/-- The items of a pattern. -/
def likeItems : List Char → List LikeItem
  | [] => []
  | '%' :: rest => .anySequence :: likeItems rest
  | '_' :: rest => .anyChar :: likeItems rest
  | '\\' :: c :: rest => .exactly c :: likeItems rest
  | c :: rest => .exactly c :: likeItems rest

/-- Drop repeated `%` items: two in a row match what one does, and a matcher that
    tries every cut need not try them twice. -/
def collapse : List LikeItem → List LikeItem
  | .anySequence :: .anySequence :: rest => collapse (.anySequence :: rest)
  | item :: rest => item :: collapse rest
  | [] => []

/-- Whether some rest of the text passes the test. -/
def anySuffix (test : List Char → Bool) : List Char → Bool
  | [] => test []
  | c :: rest => test (c :: rest) || anySuffix test rest

/-- Whether the items match the whole text. -/
def matchItems : List LikeItem → List Char → Bool
  | [], text => text.isEmpty
  | .anySequence :: items, text => anySuffix (matchItems items) text
  | .anyChar :: items, text =>
    match text with
    | [] => false
    | _ :: rest => matchItems items rest
  | .exactly c :: items, text =>
    match text with
    | [] => false
    | d :: rest => d == c && matchItems items rest

def likeMatch (text pattern : String) : Bool :=
  matchItems (collapse (likeItems pattern.toList)) text.toList

end Polystore

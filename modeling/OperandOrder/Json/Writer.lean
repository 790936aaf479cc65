/-!
# Writing JSON

The documents this library writes hold numbers, lists, and objects whose keys are plain words. They
are written either on one line without spaces, or with one item to a line and two spaces of
indentation for each level.
-/

namespace OperandOrder

/-- **A document to be written.** -/
inductive Json where
  | number (n : Nat)
  | list (items : List Json)
  | object (fields : List (String × Json))

namespace Json

mutual

/-- All on one line. -/
def compact : Json → String
  | .number n => toString n
  | .list items => "[" ++ compactItems items ++ "]"
  | .object fields => "\x7b" ++ compactFields fields ++ "\x7d"

/-- Items with commas between them. -/
def compactItems : List Json → String
  | [] => ""
  | [item] => item.compact
  | item :: items => item.compact ++ "," ++ compactItems items

/-- Fields with commas between them. -/
def compactFields : List (String × Json) → String
  | [] => ""
  | [(key, value)] => "\"" ++ key ++ "\":" ++ value.compact
  | (key, value) :: fields => "\"" ++ key ++ "\":" ++ value.compact ++ "," ++ compactFields fields

end

/-- The start of a line at some level. -/
def newline (level : Nat) : String := "\n" ++ String.ofList (List.replicate (2 * level) ' ')

mutual

/-- One item to a line, at some level. -/
def prettyAt (level : Nat) : Json → String
  | .number n => toString n
  | .list [] => "[]"
  | .list items => "[" ++ prettyItems (level + 1) items ++ newline level ++ "]"
  | .object [] => "\x7b\x7d"
  | .object fields => "\x7b" ++ prettyFields (level + 1) fields ++ newline level ++ "\x7d"

/-- Items, each on a line of its own. -/
def prettyItems (level : Nat) : List Json → String
  | [] => ""
  | [item] => newline level ++ item.prettyAt level
  | item :: items => newline level ++ item.prettyAt level ++ "," ++ prettyItems level items

/-- Fields, each on a line of its own. -/
def prettyFields (level : Nat) : List (String × Json) → String
  | [] => ""
  | [(key, value)] => newline level ++ "\"" ++ key ++ "\": " ++ value.prettyAt level
  | (key, value) :: fields =>
    newline level ++ "\"" ++ key ++ "\": " ++ value.prettyAt level ++ "," ++
      prettyFields level fields

end

/-- One item to a line. -/
def pretty (document : Json) : String := document.prettyAt 0

end Json

end OperandOrder

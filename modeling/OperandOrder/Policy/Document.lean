import OperandOrder.Json.Reader
import OperandOrder.Policy

/-!
# Policies as documents

A policy may be given as a JSON object with the keys `right-literal` and `both-literals`, each with
the name of a setting. Both are optional, and other keys are passed over; a key given twice is
refused before its value is looked at. A list of up to two names, in that order, is accepted as
well.
-/

namespace OperandOrder

namespace Policy

open Json (Fault skipBlank)

/-- The settings found so far. -/
structure Stated where
  rightLiterals : Option RightLiterals := none
  bothLiterals : Option BothLiterals := none

/-- What was not said is as in the standard policy. -/
def Stated.complete (found : Stated) : Policy :=
  ⟨found.rightLiterals.getD standard.rightLiterals, found.bothLiterals.getD standard.bothLiterals⟩

/-- The value of a key, its colon first. -/
def readField (key : String) (found : Stated) (cs : List Char) :
    Except Fault (Stated × List Char) :=
  if key = "right-literal" then
    if found.rightLiterals.isSome then .error .wrongKind
    else do
      let (name, rest) ← Json.stringValue (← Json.colon cs)
      .ok ({ found with rightLiterals := some (.ofName name) }, rest)
  else if key = "both-literals" then
    if found.bothLiterals.isSome then .error .wrongKind
    else do
      let (name, rest) ← Json.stringValue (← Json.colon cs)
      .ok ({ found with bothLiterals := some (.ofName name) }, rest)
  else do
    let rest ← Json.skipValue (← Json.colon cs)
    .ok (found, rest)

/-- A key with its value. -/
def readMember (found : Stated) : List Char → Except Fault (Stated × List Char)
  | [] => .error .ended
  | '\x22' :: cs => do
    let (key, rest) ← Json.string true cs
    readField (String.ofList key) found rest
  | _ => .error .malformed

/-- The members that follow a first one, at most `n` of them, up to the closing brace. -/
def readMembers : Nat → Stated → List Char → Except Fault (Stated × List Char)
  | 0, _, _ => .error .ended
  | n + 1, found, cs =>
    match skipBlank cs with
    | [] => .error .ended
    | '\x7d' :: cs => .ok (found, cs)
    | ',' :: cs => do
      let (found, rest) ← readMember found (skipBlank cs)
      readMembers n found rest
    | _ => .error .malformed

/-- An object, its opening brace passed over. -/
def readObject (cs : List Char) : Except Fault (Stated × List Char) :=
  match skipBlank cs with
  | [] => .error .ended
  | '\x7d' :: cs => .ok ({}, cs)
  | cs => do
    let (found, rest) ← readMember {} cs
    readMembers (rest.length + 1) found rest

/-- The end of a list that holds no more than it may. -/
def endList (cs : List Char) : Except Fault (List Char) :=
  match skipBlank cs with
  | [] => .error .ended
  | ']' :: cs => .ok cs
  | _ => .error .malformed

/-- The second name of a list, if there is one. -/
def readSecond (found : Stated) (cs : List Char) : Except Fault (Stated × List Char) :=
  match skipBlank cs with
  | ',' :: cs =>
    match skipBlank cs with
    | [] => .error .ended
    | ']' :: _ => .error .malformed
    | cs => do
      let (name, rest) ← Json.stringValue cs
      .ok ({ found with bothLiterals := some (.ofName name) }, ← endList rest)
  | cs => do .ok (found, ← endList cs)

/-- A list, its opening bracket passed over. -/
def readList (cs : List Char) : Except Fault (Stated × List Char) :=
  match skipBlank cs with
  | [] => .error .ended
  | ']' :: cs => .ok ({}, cs)
  | cs => do
    let (name, rest) ← Json.stringValue cs
    readSecond { rightLiterals := some (.ofName name) } rest

/-- **The policy that a document gives.** Nothing but blanks may follow it. -/
def ofDocument (text : String) : Except Fault Policy := do
  let (found, rest) ← match skipBlank text.toList with
    | '[' :: cs => readList cs
    | '\x7b' :: cs => readObject cs
    | cs => .error (Json.mismatch cs)
  if (skipBlank rest).isEmpty then .ok found.complete else .error .malformed

end Policy

end OperandOrder

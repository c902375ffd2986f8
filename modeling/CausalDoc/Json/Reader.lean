import CausalDoc.Json.Number
import CausalDoc.Ordered.Map

/- Reading JSON texts.

   The reader goes down the list of characters; every call takes at least one of
   them, so twice the length of the text bounds the calls. Of two members of an
   object with one name the later stays. -/

namespace CausalDoc

namespace Json

/-- The text without the blanks at its start. -/
def skipBlanks (cs : List Char) : List Char :=
  cs.dropWhile fun c => c = ' ' || c = '\n' || c = '\t' || c = '\r'

def hexDigit? (c : Char) : Option Nat :=
  if '0' ≤ c ∧ c ≤ '9' then some (c.toNat - '0'.toNat)
  else if 'a' ≤ c ∧ c ≤ 'f' then some (c.toNat - 'a'.toNat + 10)
  else if 'A' ≤ c ∧ c ≤ 'F' then some (c.toNat - 'A'.toNat + 10)
  else none

def readUnit? : List Char → Option (Nat × List Char)
  | a :: b :: c :: d :: rest => do
    let a ← hexDigit? a
    let b ← hexDigit? b
    let c ← hexDigit? c
    let d ← hexDigit? d
    return (((a * 16 + b) * 16 + c) * 16 + d, rest)
  | _ => none

/-- Reads what follows `\u`: one unit, or a pair of surrogates. -/
def readEscapedUnit? (cs : List Char) : Option (Char × List Char) := do
  let (high, rest) ← readUnit? cs
  if 0xD800 ≤ high ∧ high < 0xDC00 then
    match rest with
    | '\\' :: 'u' :: rest =>
      let (low, rest) ← readUnit? rest
      if 0xDC00 ≤ low ∧ low < 0xE000 then
        return (Char.ofNat (0x10000 + (high - 0xD800) * 0x400 + (low - 0xDC00)), rest)
      else none
    | _ => none
  else if 0xDC00 ≤ high ∧ high < 0xE000 then none
  else return (Char.ofNat high, rest)

/-- Reads a text up to its closing quote. -/
def readString? : Nat → List Char → List Char → Option (String × List Char)
  | 0, _, _ => none
  | _ + 1, _, [] => none
  | n + 1, seen, c :: cs =>
    match c with
    | '"' => some (String.ofList seen.reverse, cs)
    | '\\' =>
      match cs with
      | '"' :: cs => readString? n ('"' :: seen) cs
      | '\\' :: cs => readString? n ('\\' :: seen) cs
      | '/' :: cs => readString? n ('/' :: seen) cs
      | 'b' :: cs => readString? n ('\x08' :: seen) cs
      | 'f' :: cs => readString? n ('\x0c' :: seen) cs
      | 'n' :: cs => readString? n ('\n' :: seen) cs
      | 'r' :: cs => readString? n ('\r' :: seen) cs
      | 't' :: cs => readString? n ('\t' :: seen) cs
      | 'u' :: cs =>
        match readEscapedUnit? cs with
        | some (u, cs) => readString? n (u :: seen) cs
        | none => none
      | _ => none
    | c => if c.toNat < 0x20 then none else readString? n (c :: seen) cs

mutual

/-- Reads a document and gives the rest of the text. -/
def readDocument? : Nat → List Char → Option (Json × List Char)
  | 0, _ => none
  | n + 1, cs =>
    match skipBlanks cs with
    | 'n' :: 'u' :: 'l' :: 'l' :: rest => some (null, rest)
    | 't' :: 'r' :: 'u' :: 'e' :: rest => some (bool true, rest)
    | 'f' :: 'a' :: 'l' :: 's' :: 'e' :: rest => some (bool false, rest)
    | '"' :: rest => (readString? (rest.length + 1) [] rest).map fun r => (string r.1, r.2)
    | '[' :: rest =>
      match skipBlanks rest with
      | ']' :: rest => some (array [], rest)
      | rest => (readItems? n rest).map fun r => (array r.1, r.2)
    | '{' :: rest =>
      match skipBlanks rest with
      | '}' :: rest => some (object [], rest)
      | rest => (readMembers? n rest).map fun r => (object (Entries.ofList r.1), r.2)
    | cs => (JsonNumber.read? cs).map fun r => (number r.1, r.2)

/-- Reads the items of an array up to its closing bracket. -/
def readItems? : Nat → List Char → Option (List Json × List Char)
  | 0, _ => none
  | n + 1, cs => do
    let (item, rest) ← readDocument? n cs
    match skipBlanks rest with
    | ']' :: rest => return ([item], rest)
    | ',' :: rest =>
      let (items, rest) ← readItems? n rest
      return (item :: items, rest)
    | _ => none

/-- Reads the members of an object up to its closing brace. -/
def readMembers? : Nat → List Char → Option (List (String × Json) × List Char)
  | 0, _ => none
  | n + 1, cs => do
    match skipBlanks cs with
    | '"' :: rest =>
      let (name, rest) ← readString? (rest.length + 1) [] rest
      match skipBlanks rest with
      | ':' :: rest =>
        let (member, rest) ← readDocument? n rest
        match skipBlanks rest with
        | '}' :: rest => return ([(name, member)], rest)
        | ',' :: rest =>
          let (members, rest) ← readMembers? n rest
          return ((name, member) :: members, rest)
        | _ => none
      | _ => none
    | _ => none

end

def read? (text : String) : Option Json := do
  let cs := text.toList
  let (document, rest) ← readDocument? (2 * cs.length + 2) cs
  if (skipBlanks rest).isEmpty then return document else none

end Json

end CausalDoc

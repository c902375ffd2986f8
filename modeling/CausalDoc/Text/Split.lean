/- Cutting a list of characters in two at a separator. -/

namespace CausalDoc.Text

/-- The parts before and after the first separator. -/
def splitFirst? (separator : Char) : List Char → Option (List Char × List Char)
  | [] => none
  | c :: cs =>
    if c = separator then some ([], cs)
    else (splitFirst? separator cs).map fun parts => (c :: parts.1, parts.2)

/-- The parts before and after the last separator. -/
def splitLast? (separator : Char) : List Char → Option (List Char × List Char)
  | [] => none
  | c :: cs =>
    match splitLast? separator cs with
    | some parts => some (c :: parts.1, parts.2)
    | none => if c = separator then some ([], cs) else none

end CausalDoc.Text

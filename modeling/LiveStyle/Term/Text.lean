import LiveStyle.Term.Basic

/-! # Terms as text

Terms are separated by one space and arguments by a comma and a space; a call
writes its arguments in parentheses.  Every writer puts its text in front of what
follows, so the whole text is laid down in one pass.
-/
namespace LiveStyle.Term

mutual

/-- The text of a term, followed by `rest`. -/
def writeBefore : Term → List Char → List Char
  | number q, rest => q.chars ++ rest
  | identifier name, rest => name.toList ++ rest
  | operator symbol, rest => symbol.toList ++ rest
  | call name arguments, rest =>
    name.toList ++ '(' :: writeArgumentsBefore arguments (')' :: rest)

def writeTermsBefore : List Term → List Char → List Char
  | [], rest => rest
  | [t], rest => writeBefore t rest
  | t :: ts, rest => writeBefore t (' ' :: writeTermsBefore ts rest)

def writeArgumentsBefore : List (List Term) → List Char → List Char
  | [], rest => rest
  | [e], rest => writeTermsBefore e rest
  | e :: es, rest => writeTermsBefore e (',' :: ' ' :: writeArgumentsBefore es rest)

end

def text (t : Term) : String := String.ofList (writeBefore t [])

end LiveStyle.Term

namespace LiveStyle.Expression

def text (e : Expression) : String := String.ofList (Term.writeTermsBefore e [])

end LiveStyle.Expression

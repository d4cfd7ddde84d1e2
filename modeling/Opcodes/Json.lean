/-!
# JSON documents

Documents are written over several lines: an item or member has a line of its own, indented by two
blanks more than the bracket around it, and an empty array or object is a pair of brackets.
-/
set_option autoImplicit false

namespace Opcodes

inductive Json where
  | number (n : Int)
  | string (s : String)
  | array (items : List Json)
  | object (members : List (String × Json))

namespace Json

/-- A character inside a string. The quote, the backslash and control characters are escaped, by a
letter where there is one. -/
def escapeChar (c : Char) : List Char :=
  match c with
  | '"' => ['\\', '"']
  | '\\' => ['\\', '\\']
  | '\n' => ['\\', 'n']
  | '\r' => ['\\', 'r']
  | '\t' => ['\\', 't']
  | '\x08' => ['\\', 'b']
  | '\x0c' => ['\\', 'f']
  | c =>
    if c.toNat < 0x20 then ['\\', 'u'] ++ (Nat.toDigits 16 c.toNat).leftpad 4 '0' else [c]

def quote (s : String) : String := "\"" ++ String.ofList (s.toList.flatMap escapeChar) ++ "\""

/-- Brackets around parts with a line for each. -/
def block (left right indent : String) (parts : List String) : String :=
  if parts = [] then left ++ right
  else
    left ++ String.intercalate "," (parts.map fun part => "\n" ++ indent ++ "  " ++ part) ++
      "\n" ++ indent ++ right

mutual

def prettyAt (indent : String) : Json → String
  | number n => toString n
  | string s => quote s
  | array items => block "[" "]" indent (prettyItems (indent ++ "  ") items)
  | object members => block "\x7b" "\x7d" indent (prettyMembers (indent ++ "  ") members)

def prettyItems (indent : String) : List Json → List String
  | [] => []
  | item :: rest => prettyAt indent item :: prettyItems indent rest

def prettyMembers (indent : String) : List (String × Json) → List String
  | [] => []
  | (name, value) :: rest =>
    (quote name ++ ": " ++ prettyAt indent value) :: prettyMembers indent rest

end

/-- The document as text, without a newline at its end. -/
def pretty (j : Json) : String := prettyAt "" j

end Json

end Opcodes

import Opcodes.Text.Numeral

/-!
# Scanning JSON text

Each scanner takes one piece of syntax off the front of a text and gives what follows it, or nothing
if the text does not start with that piece. `value` passes over a whole value without keeping it, so
it asks for the form of numbers and escapes only and not for what they stand for. A string whose
contents count goes through `assemble?`, which wants surrogate halves in pairs.
-/
set_option autoImplicit false

namespace Opcodes.Json.Scan

def isBlank (c : Char) : Bool := c = ' ' || c = '\t' || c = '\n' || c = '\r'

def skipBlanks (cs : List Char) : List Char := cs.dropWhile isBlank

/-! ## Strings -/

/-- A part of a string: a character, or an escape that gives one UTF-16 unit. -/
inductive Unit16 where
  | char (c : Char)
  | escape (unit : Nat)
deriving DecidableEq, Repr

/-- The character that a letter after a backslash stands for. -/
def escapedChar? : Char → Option Char
  | '"' => some '"'
  | '\\' => some '\\'
  | '/' => some '/'
  | 'b' => some '\x08'
  | 'f' => some '\x0c'
  | 'n' => some '\n'
  | 'r' => some '\r'
  | 't' => some '\t'
  | _ => none

/-- Scans the rest of a string, whose opening quote is gone. -/
def string : List Char → Option (List Unit16 × List Char)
  | [] => none
  | '"' :: rest => some ([], rest)
  | '\\' :: 'u' :: a :: b :: c :: d :: rest => do
    let unit ← [a, b, c, d].foldlM (fun n x => (Numeral.digit? 16 x).map (16 * n + ·)) 0
    let (parts, rest) ← string rest
    return (.escape unit :: parts, rest)
  | '\\' :: c :: rest => do
    let c ← escapedChar? c
    let (parts, rest) ← string rest
    return (.char c :: parts, rest)
  | c :: rest =>
    if c.toNat < 0x20 then none
    else do
      let (parts, rest) ← string rest
      return (.char c :: parts, rest)

/-- The text of scanned parts. A high surrogate must stand right before a low one. -/
def assemble? : List Unit16 → Option (List Char)
  | [] => some []
  | .char c :: parts => (assemble? parts).map (c :: ·)
  | .escape unit :: parts =>
    if unit < 0xd800 ∨ 0xe000 ≤ unit then (assemble? parts).map (Char.ofNat unit :: ·)
    else match parts with
      | .escape low :: parts =>
        if unit < 0xdc00 ∧ 0xdc00 ≤ low ∧ low < 0xe000 then
          (assemble? parts).map
            (Char.ofNat (0x10000 + (unit - 0xd800) * 0x400 + (low - 0xdc00)) :: ·)
        else none
      | _ => none

/-- Scans a string and gives its text. -/
def text (cs : List Char) : Option (List Char × List Char) :=
  match cs with
  | '"' :: rest => do
    let (parts, rest) ← string rest
    return (← assemble? parts, rest)
  | _ => none

/-! ## Values -/

/-- Passes over one or more decimal digits. -/
def digits (cs : List Char) : Option (List Char) :=
  match cs.takeWhile Char.isDigit with
  | [] => none
  | _ :: _ => some (cs.dropWhile Char.isDigit)

/-- Passes over a fraction, if there is one. -/
def fraction (cs : List Char) : Option (List Char) :=
  match cs with
  | '.' :: rest => digits rest
  | _ => some cs

/-- Passes over an exponent, if there is one. -/
def exponent (cs : List Char) : Option (List Char) :=
  match cs with
  | 'e' :: rest | 'E' :: rest =>
    match rest with
    | '+' :: rest | '-' :: rest => digits rest
    | _ => digits rest
  | _ => some cs

/-- Passes over a number without its sign. A leading zero has no digit after it. -/
def magnitude (cs : List Char) : Option (List Char) := do
  let rest ← match cs with
    | '0' :: rest => if rest.head?.any Char.isDigit then none else some rest
    | _ => digits cs
  exponent (← fraction rest)

def number (cs : List Char) : Option (List Char) :=
  match cs with
  | '-' :: rest => magnitude rest
  | _ => magnitude cs

/-- Passes over at most `fuel` items with commas between them and the bracket that ends them. -/
def items (item : List Char → Option (List Char)) (close : Char) :
    (fuel : Nat) → List Char → Option (List Char)
  | 0, _ => none
  | fuel + 1, cs => do
    match skipBlanks (← item cs) with
    | [] => none
    | c :: rest =>
      if c = close then some rest
      else if c = ',' then items item close fuel rest
      else none

/-- Passes over a bracketed list, whose opening bracket is gone. -/
def list (item : List Char → Option (List Char)) (close : Char) (fuel : Nat) (cs : List Char) :
    Option (List Char) :=
  match skipBlanks cs with
  | [] => none
  | c :: rest => if c = close then some rest else items item close fuel (c :: rest)

/-- Passes over a name, a colon and a value. -/
def member (value : List Char → Option (List Char)) (cs : List Char) : Option (List Char) :=
  match skipBlanks cs with
  | '"' :: rest => do
    let (_, rest) ← string rest
    match skipBlanks rest with
    | ':' :: rest => value rest
    | _ => none
  | _ => none

/-- Passes over a value whose brackets nest at most `fuel` deep. -/
def value : (fuel : Nat) → List Char → Option (List Char)
  | 0, _ => none
  | fuel + 1, cs =>
    match skipBlanks cs with
    | '"' :: rest => (string rest).map (·.2)
    | '[' :: rest => list (value fuel) ']' fuel rest
    | '\x7b' :: rest => list (member (value fuel)) '\x7d' fuel rest
    | 't' :: 'r' :: 'u' :: 'e' :: rest => some rest
    | 'f' :: 'a' :: 'l' :: 's' :: 'e' :: rest => some rest
    | 'n' :: 'u' :: 'l' :: 'l' :: rest => some rest
    | cs => number cs

end Opcodes.Json.Scan

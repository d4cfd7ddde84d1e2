import Opcodes.Json.Scan
import Opcodes.Rv32.Extensions

/-!
# Settings documents

A selection is kept in a JSON document: an object with the flags in its member `extensions`, or an
array of the flags alone. Other members may be there and are passed over.
-/
set_option autoImplicit false

namespace Opcodes.Extensions

open Json

/-- The name of the member that holds the flags. -/
def settingName : List Char := "extensions".toList

/-- Scans flags in a string. -/
def scanFlags (cs : List Char) : Option (Extensions × List Char) := do
  let (flags, rest) ← Scan.text (Scan.skipBlanks cs)
  return (← ofFlags? flags, rest)

/-- Scans the members of an object, whose opening bracket is gone, up to its end. The flags found
so far are `found?`; at the end there must be some. -/
def scanMembers (found? : Option Extensions) :
    (fuel : Nat) → List Char → Option (Extensions × List Char)
  | 0, _ => none
  | fuel + 1, cs => do
    let (name, rest) ← Scan.text (Scan.skipBlanks cs)
    let rest ← match Scan.skipBlanks rest with
      | ':' :: rest => some rest
      | _ => none
    let (found?, rest) ←
      if name = settingName then
        match found? with
        | some _ => none
        | none => (scanFlags rest).map fun (flags, rest) => (some flags, rest)
      else (Scan.value rest.length rest).map (found?, ·)
    match Scan.skipBlanks rest with
    | ',' :: rest => scanMembers found? fuel rest
    | '\x7d' :: rest => found?.map (·, rest)
    | _ => none

/-- Reads a settings document. The text holds nothing else. -/
def ofSettings? (text : String) : Option Extensions := do
  let cs := text.toList
  let (flags, rest) ← match Scan.skipBlanks cs with
    | '\x7b' :: rest => scanMembers none cs.length rest
    | '[' :: rest => do
      let (flags, rest) ← scanFlags rest
      match Scan.skipBlanks rest with
      | ']' :: rest => some (flags, rest)
      | _ => none
    | _ => none
  if Scan.skipBlanks rest = [] then some flags else none

end Opcodes.Extensions

import Opcodes.Command

/-!
# Command lines

The arguments of the three commands. Options may stand anywhere behind the command's name, and
nothing behind `--` is an option.

* `check [--ext LIST] [--table FILE]... [--format text|json] [--no-builtin] [--deny-ambiguity]
  [--tree]`
* `words [--ext LIST] [--table FILE]... [--format text|json] WORD...`
* `range [--ext LIST] [--table FILE]... [--format text|json] [--base N] [--skip N] [--len N]
  [--show-bytes] [--out FILE] FILE START END`
-/
set_option autoImplicit false

namespace Opcodes.Command

/-- Arguments by kind, each in the order of the command line. -/
structure Arguments where
  values : List (String × String)
  switches : List String
  others : List String

namespace Arguments

def empty : Arguments := ⟨[], [], []⟩

/-- Sorts arguments by kind, given the names of the options with a value, which is the next
argument, and of those without. -/
def parse? (valued switches : List String) (a : Arguments) : List String → Option Arguments
  | [] => some a
  | arg :: rest =>
    if arg = "--" then some { a with others := a.others ++ rest }
    else if arg ∈ switches then
      parse? valued switches { a with switches := a.switches ++ [arg] } rest
    else if arg ∈ valued then
      match rest with
      | [] => none
      | value :: rest => parse? valued switches { a with values := a.values ++ [(arg, value)] } rest
    else if arg.startsWith "--" then none
    else parse? valued switches { a with others := a.others ++ [arg] } rest

def value? (a : Arguments) (name : String) : Option String := a.values.lookup name

def valuesOf (a : Arguments) (name : String) : List String :=
  (a.values.filter (·.1 = name)).map (·.2)

def has (a : Arguments) (switch : String) : Bool := a.switches.contains switch

end Arguments

/-- A command line that makes sense. Tables, `input` and `output?` are names of files. -/
inductive Invocation where
  | check (c : Context) (tables : List String) (o : CheckOptions)
  | words (c : Context) (tables : List String) (texts : List String)
  | range (c : Context) (tables : List String) (o : RangeOptions) (input start stop : String)
      (output? : Option String)

namespace Invocation

/-- The options that all commands have. -/
def commonOptions : List String := ["--ext", "--table", "--format"]

def context? (a : Arguments) : Option Context :=
  Context.parse? ((a.value? "--ext").getD "rv32gc") ((a.value? "--format").getD "text")

/-- A check is told nothing but options. -/
def check? (a : Arguments) : Option Invocation := do
  let context ← context? a
  let options := ⟨a.has "--no-builtin", a.has "--deny-ambiguity", a.has "--tree"⟩
  if a.others = [] then some (.check context (a.valuesOf "--table") options) else none

def words? (a : Arguments) : Option Invocation := do
  return .words (← context? a) (a.valuesOf "--table") a.others

def range? (a : Arguments) : Option Invocation := do
  let context ← context? a
  let output? := a.value? "--out"
  let options ← RangeOptions.parse? ((a.value? "--base").getD "0") ((a.value? "--skip").getD "0")
    (a.value? "--len") (a.has "--show-bytes") output?.isSome
  match a.others with
  | [input, start, stop] =>
    some (.range context (a.valuesOf "--table") options input start stop output?)
  | _ => none

def parse? : List String → Option Invocation
  | "check" :: rest => do
    check? (← Arguments.parse? commonOptions ["--no-builtin", "--deny-ambiguity", "--tree"] .empty
      rest)
  | "words" :: rest => do words? (← Arguments.parse? commonOptions [] .empty rest)
  | "range" :: rest => do
    range? (← Arguments.parse? (commonOptions ++ ["--base", "--skip", "--len", "--out"])
      ["--show-bytes"] .empty rest)
  | _ => none

end Invocation

end Opcodes.Command

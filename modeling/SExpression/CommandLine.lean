import SExpression.Report

/-! # The command line

A report is asked for by one path and any number of options, in any order:

* `--chain`, `--print`, `--write`, `--strict` are switches;
* `--max-depth N` or `--max-depth=N` sets the nesting limit, and the last one given counts;
* `--` ends the options, and a single hyphen is a path.

A separate value of an option does not begin with a hyphen.  Anything else is an error of usage. -/
set_option autoImplicit false
namespace SExpression.CommandLine

/-- The options and paths met so far, latest path first. -/
structure Arguments where
  chained : Bool
  print : Bool
  write : Bool
  strict : Bool
  maxDepth : Option Nat
  paths : List String
  deriving DecidableEq, Repr

def Arguments.none : Arguments := ⟨false, false, false, false, .none, []⟩

/-- A nesting limit: a decimal number of 32 bits, with a sign or without one. -/
def limit? (s : String) : Option Nat :=
  let bs := Bytes.ofString s
  let (negative, signLength) := Numeral.sign bs
  let ds := bs.drop signLength
  let n := natOfDigits 10 (digitRun 10 ds)
  if ds = [] ∨ !ds.all isDigit then .none
  else if Nat.pow 2 32 ≤ n ∨ (negative ∧ n ≠ 0) then .none
  else some n

/-- What an argument sets on its own, if it is an option that takes no separate value. -/
def option? (a : Arguments) (s : String) : Option Arguments :=
  if s = "--chain" then some { a with chained := true }
  else if s = "--print" then some { a with print := true }
  else if s = "--write" then some { a with write := true }
  else if s = "--strict" then some { a with strict := true }
  else if s.startsWith "--max-depth=" then
    (limit? (s.drop "--max-depth=".length).toString).map fun n => { a with maxDepth := some n }
  else .none

def isOption (s : String) : Bool := s.startsWith "-" && s != "-"

/-- Goes through the arguments; none if one of them is wrong. -/
def scan (a : Arguments) : List String → Option Arguments
  | [] => some a
  | "--" :: rest => some { a with paths := rest.reverse ++ a.paths }
  | "--max-depth" :: value :: rest =>
    if isOption value then .none
    else do
      let n ← limit? value
      scan { a with maxDepth := some n } rest
  | s :: rest =>
    if isOption s then do
      let a ← option? a s
      scan a rest
    else scan { a with paths := s :: a.paths } rest

def parse (args : List String) : Option Report.Request :=
  match scan .none args with
  | some ⟨chained, print, write, strict, maxDepth, [path]⟩ =>
    let base := if strict then Settings.strict else Settings.lenient
    let settings := { base with maxDepth := maxDepth.or base.maxDepth }
    if path.isEmpty then .none else some ⟨chained, print, write, settings, path⟩
  | _ => .none

/-- How a run of the program ends: its exit code, and what it printed unless the usage was wrong. -/
structure Exit where
  code : Nat
  result : Option Report.Result

def exitOf (r : Report.Result) : Exit := ⟨if r.error.isSome then 1 else 0, some r⟩

def badUsage : Exit := ⟨2, .none⟩

def errorText (r : Report.Result) : String :=
  match r.error with
  | some message => s!"Error: {message}\n"
  | .none => ""

def run (d : Directory) (args : List String) : Exit :=
  match parse args with
  | some q => exitOf (Report.ofContent q (d.read q.path))
  | .none => badUsage

end SExpression.CommandLine

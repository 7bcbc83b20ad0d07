import SExpression.CommandLine

/-! # The program

Reads the file that the command line names and prints the report on it. -/
set_option autoImplicit false
namespace SExpression.Program

/-- The number by which the system knows a cause; some of its calls give it negated. -/
def causeNumber (code : UInt32) : Nat := if code < 0x80000000 then code.toNat else (0 - code).toNat

/-- The cause behind an error of the system. -/
def faultOf (e : IO.Error) : Fault :=
  match e with
  | .noFileOrDirectory _ _ _ => .notFound
  | .inappropriateType _ code _ => if causeNumber code = 20 then .notDirectory else .isDirectory
  | .invalidArgument _ code details =>
    if causeNumber code = 36 then .nameTooLong
    else .other s!"{details} (os error {causeNumber code})"
  | .permissionDenied _ _ _ => .other "Permission denied (os error 13)"
  | e => .other e.toString

def readContent (path : String) : IO (Except Fault Bytes) := do
  match ← (IO.FS.readBinFile path).toBaseIO with
  | .ok content => return .ok content.data.toList
  | .error e => return .error (faultOf e)

end SExpression.Program

open SExpression in
def main (args : List String) : IO UInt32 := do
  match CommandLine.parse args with
  | none => return CommandLine.badUsage.code.toUInt32
  | some q =>
    let result := Report.ofContent q (← Program.readContent q.path)
    (← IO.getStdout).write result.output.toByteArray
    (← IO.getStderr).putStr (CommandLine.errorText result)
    return (CommandLine.exitOf result).code.toUInt32

/-! # Faults

Causes for which a file cannot be read or written, and their messages. -/
set_option autoImplicit false
namespace SExpression

inductive Fault where
  | notFound
  | notDirectory
  | isDirectory
  | nameTooLong
  | nulInPath
  | notUtf8
  /-- Any other cause, in the words of the system. -/
  | other (message : String)
  deriving DecidableEq, Repr

def Fault.message : Fault → String
  | notFound => "No such file or directory (os error 2)"
  | notDirectory => "Not a directory (os error 20)"
  | isDirectory => "Is a directory (os error 21)"
  | nameTooLong => "File name too long (os error 36)"
  | nulInPath => "file name contained an unexpected NUL byte"
  | notUtf8 => "stream did not contain valid UTF-8"
  | other message => message

end SExpression

import SExpression.Columns
import SExpression.Layout
import SExpression.Directory
import SExpression.Text.Quoted

/-! # Documents

A document is a byte string or a file that holds data.  Reading one has two kinds of failure, a
fault of the medium and an error of the text, and a reader of files names the file in the message.
Bytes that are not UTF-8 are a fault of the medium. -/
set_option autoImplicit false
namespace SExpression

inductive ReadError where
  | text (error : PositionedError)
  | medium (fault : Fault)
  deriving DecidableEq, Repr

namespace ReadError

def message : ReadError → String
  | text e => e.message
  | medium fault => fault.message

def messageIn (path : String) : ReadError → String
  | text e => s!"{e.error.message} in {Quoted.encode path}{e.position}"
  | medium fault => s!"{Quoted.encode path}: {fault.message}"

end ReadError

namespace Document

def decode (content : Bytes) : Except Fault Bytes :=
  if content.IsUtf8 then .ok content else .error .notUtf8

def ofBytes (settings : Settings) (content : Bytes) : Except ReadError (Columns ByteArray) := do
  let text ← (decode content).mapError .medium
  (Columns.ofText settings text).map Columns.pack |>.mapError .text

def ofFile (settings : Settings) (d : Directory) (path : String) :
    Except ReadError (Columns ByteArray) := do
  let content ← (d.read path).mapError .medium
  ofBytes settings content

def toFile (d : Directory) (path : String) (ts : List Token) : Except Fault Directory :=
  d.write path (Layout.writeLine ts)

end Document

end SExpression

import Lisplet.Text.Window

/-! Errors of the reader. -/
namespace Lisplet

inductive ReadError.Kind where
  | unexpectedClose
  | unclosed
  | unterminatedString
  | tooDeep
  | trailing
  | empty
deriving DecidableEq, Repr

/-- An error of the reader, with the text around its place and the text found there if known. -/
structure ReadError where
  kind : ReadError.Kind
  message : String
  context : Option String
  found : Option String
deriving DecidableEq, Repr

namespace ReadError

/-- Whether more text could complete the input. -/
def Kind.isIncomplete : Kind → Bool
  | unclosed => true
  | unterminatedString => true
  | _ => false

def ofMessage (kind : Kind) (message : String) : ReadError := ⟨kind, message, none, none⟩

def atOffset (kind : Kind) (message : String) (input : List Char) (offset : Nat)
    (found : Option String) : ReadError :=
  ⟨kind, message, some (Text.window Text.windowStyle input offset), found⟩

/-- The message, then what was found, then the text around it. -/
def text (e : ReadError) : String :=
  let found := match e.found with
    | some found => "\nFound: " ++ found
    | none => ""
  let context := match e.context with
    | some context => "\nContext: " ++ context
    | none => ""
  "ParseError: " ++ e.message ++ found ++ context

end ReadError

end Lisplet

import Lisplet.Primitive.Arithmetic
import Lisplet.Text.Blank

/-! Lines read from the input, lines printed, and the request to exit. -/
namespace Lisplet.Console

/-- The bytes up to and including the first line feed, and the bytes behind it. -/
def splitLine : List UInt8 → List UInt8 × List UInt8
  | [] => ([], [])
  | b :: rest =>
    if b = 10 then ([b], rest)
    else
      let (line, rest) := splitLine rest
      (b :: line, rest)

def decode? (bytes : List UInt8) : Option String := String.fromUTF8? ⟨bytes.toArray⟩

def dropLineEnd (cs : List Char) : List Char :=
  (cs.reverse.dropWhile fun c => c = '\n' || c = '\r').reverse

/-- Takes the next line of the input without its end, or nothing at the end of the input. A line
that is no text is taken too. -/
def takeLine : Action (Option (List Char)) := do
  let (line, rest) := splitLine (← get).input
  modify fun s => { s with input := rest }
  if line.isEmpty then return none
  match decode? line with
  | some text => return some (dropLineEnd text.toList)
  | none => Action.evalFault .undecodableLine

def readLine (args : List Value) : Action Value := do
  if args.length ≠ 0 then Action.arityFault (.exact 0) args.length
  match ← takeLine with
  | some line => return .string (String.ofList line)
  | none => return .nil

def integerWord (word : List Char) : Except Error Value :=
  match Integer.read? word with
  | some n => .ok (.integer n)
  | none => .error (.eval (.unreadableWord (String.ofList word)) none)

/-- The integers on the next line, or the empty list at the end of the input. -/
def readIntegers (args : List Value) : Action Value := do
  if args.length ≠ 0 then Action.arityFault (.exact 0) args.length
  match ← takeLine with
  | some line => return .ofList (← Action.ofExcept ((Text.words line).mapM integerWord))
  | none => return .nil

def print (args : List Value) : Action Value := do
  modify fun s => { s with output := s.output ++ " ".intercalate (args.map s.bareText) ++ "\n" }
  return .nil

/-- The status that an integer stands for, if 32 bits hold it. -/
def status? (n : Int64) : Option Int32 := if n.toInt32.toInt64 = n then some n.toInt32 else none

/-- Asks to exit, with status zero unless another is given. -/
def exit : Observer := fun s args => do
  match args with
  | [] => .error (.exit 0)
  | [v] =>
    let n ← Arithmetic.expectInteger .exit s v
    match status? n with
    | some status => .error (.exit status)
    | none => .error (.eval (.statusOutOfRange n) none)
  | _ => .error (.arity (.range 0 1) args.length none)

end Lisplet.Console

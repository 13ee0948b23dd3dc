import Lisplet.CommandLine.Listing
import Lisplet.Text.Backspace

/-! The command line: running a program, or a prompt that reads expressions line by line. -/
namespace Lisplet.CommandLine

/-- What to do: run the text of a file, report a file that could not be read, or prompt. -/
inductive Job where
  | program (source : String)
  | unreadable (path reason : String)
  | prompt

/-- What a run has written to both streams, and its exit status. -/
structure Transcript where
  output : String
  errors : String
  status : Nat

def noSuchFile : String := "No such file or directory (os error 2)"

def exitStatus (status : Int32) : Nat := (status.toInt % 256).toNat

def reason : Stop → String
  | .failed e => e.text
  | .unfinished => "a loop took too many rounds"

def putLine (line : String) : Action Unit :=
  modify fun s => { s with output := s.output ++ line ++ "\n" }

def evalEach (i : Interpreter) (program : List Value) : Action Unit :=
  program.forM fun e => do
    match ← i.evaluation e with
    | .nil => return ()
    | v => putLine (← Action.text v)

def runProgram (i : Interpreter) (source : String) : Transcript :=
  match Reader.readProgram true source with
  | .error e => ⟨i.store.output, "Error: " ++ e.text ++ "\n", 1⟩
  | .ok program =>
    let (result, i) := i.perform (evalEach i program)
    match result with
    | .ok () => ⟨i.store.output, "", 0⟩
    | .error (.failed (.exit status)) => ⟨i.store.output, "", exitStatus status⟩
    | .error stop => ⟨i.store.output, "Error: " ++ reason stop ++ "\n", 1⟩

/-- A line without the line feed at its end and a carriage return before that. -/
def dropLineFeed (line : List Char) : List Char :=
  match line.reverse with
  | '\n' :: '\r' :: rest => rest.reverse
  | '\n' :: rest => rest.reverse
  | _ => line

/-- The line that a piece of input leaves when all of it has been typed. -/
def typedLine (line : List Char) : List Char := Text.applyBackspaces (dropLineFeed line)

/-- A line of input that is no text, as the prompt reports it. -/
def undecodable : String :=
  "Io(Error \x7b kind: InvalidData, message: \"stream did not contain valid UTF-8\" \x7d)"

/-- What a line leads to: the next line, with the text that waits for completion, or the end. -/
inductive Turn where
  | next (pending : List Char) (i : Interpreter)
  | stop (i : Interpreter) (status : Nat)

def say (i : Interpreter) (text : String) : Interpreter :=
  { i with store := { i.store with output := i.store.output ++ text } }

/-- Reads and evaluates a text, unless it has to be completed. -/
def submit (i : Interpreter) (text : List Char) : Turn :=
  match Reader.readProgram true (String.ofList text) with
  | .error e =>
    if e.kind.isIncomplete then .next text i else .next [] (say i ("Error: " ++ e.text ++ "\n"))
  | .ok program =>
    let (result, i) := i.perform (evalEach i program)
    match result with
    | .ok () => .next [] i
    | .error (.failed (.exit status)) => .stop i (exitStatus status)
    | .error stop => .next [] (say i ("Error: " ++ reason stop ++ "\n"))

/-- Answers a line. Commands are recognized where no text waits for completion. -/
def respond (i : Interpreter) (pending line : List Char) : Turn :=
  let text := pending ++ line ++ ['\n']
  if pending.isEmpty then
    match String.ofList (Text.trim line) with
    | "" => .next [] i
    | ":help" => .next [] (say i help)
    | ":env" => .next [] (say i (environment i))
    | ":quit" => .stop (say i "Goodbye!\n") 0
    | ":exit" => .stop (say i "Goodbye!\n") 0
    | _ => submit i text
  else submit i text

/-- Takes lines until the input or the fuel ends. Each turn takes at least one byte of input. -/
def converse (pending : List Char) (i : Interpreter) : Nat → Transcript
  | 0 => ⟨i.store.output, "", 0⟩
  | fuel + 1 =>
    match Console.splitLine i.store.input with
    | ([], _) => ⟨i.store.output ++ "Goodbye!\n", "", 0⟩
    | (line, rest) =>
      let i := { i with store := { i.store with input := rest } }
      match Console.decode? line with
      | none => ⟨i.store.output ++ "Error: " ++ undecodable ++ "\n", "", 0⟩
      | some text =>
        match respond i pending (typedLine text.toList) with
        | .next pending i => converse pending i fuel
        | .stop i status => ⟨i.store.output, "", status⟩

def run (job : Job) (input : List UInt8) : Transcript :=
  let i := Interpreter.standard input
  match job with
  | .program source => runProgram i source
  | .unreadable path reason => ⟨"", "Could not read " ++ path ++ ": " ++ reason ++ "\n", 1⟩
  | .prompt => converse [] (say i banner) (input.length + 1)

end Lisplet.CommandLine

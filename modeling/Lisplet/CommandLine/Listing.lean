import Lisplet.Interpreter

/-! The listings that the prompt prints on request. -/
namespace Lisplet.CommandLine

def padded (width : Nat) (text : String) : String :=
  text ++ String.ofList (List.replicate (width - text.length) ' ')

def unlines (lines : List String) : String := String.join (lines.map (· ++ "\n"))

def banner : String :=
  unlines
    ["ConsLisp interpreter",
     "Enter S-expressions like: (define (sq x) (* x x)) (sq 12)",
     "Type :help for more commands, or Ctrl+D to exit.",
     ""]

def operationLine (what : String) (op : Operation) : String :=
  "  " ++ padded 12 op.name ++ " " ++ op.arity.text ++ " " ++ what

def help : String :=
  unlines
    (["Commands:",
      "  :help      - Show this help message",
      "  :env       - Show current environment bindings",
      "  :quit      - Exit the interpreter",
      "  :exit      - Exit the interpreter",
      "  Ctrl+D     - Exit the interpreter",
      "",
      "Input may span several lines; ';' starts a comment.",
      "",
      "Special forms:"]
      ++ (Operation.all.filter Operation.isSpecial).map (operationLine "operands")
      ++ ["", "Primitives:"]
      ++ (Operation.all.filter fun op => !op.isSpecial).map (operationLine "arguments")
      ++ [""])

def isBuiltIn : Value → Bool
  | .function .. => true
  | .special _ => true
  | _ => false

def rows : List String → List String
  | a :: b :: c :: d :: rest => String.join ([a, b, c, d].map cell) :: rows rest
  | [] => []
  | names => [String.join (names.map cell)]
where
  /-- One name in its column. -/
  cell (name : String) : String := "  " ++ padded 15 name

/-- The visible bindings: the names of the built-in ones, and the values of the others. -/
def environment (i : Interpreter) : String :=
  let bindings : List (String × Value) := i.bindings
  let builtIn := bindings.filter fun (_, v) => isBuiltIn v
  let own := bindings.filter fun (_, v) => !isBuiltIn v
  let builtInLines :=
    if builtIn.isEmpty then []
    else
      ("Built-in operations (" ++ builtIn.length.repr ++ "):") :: rows (builtIn.map (·.1)) ++ [""]
  let ownLines :=
    if own.isEmpty then ["No user-defined values."]
    else ("User-defined values (" ++ own.length.repr ++ "):")
      :: own.map fun (name, v) => "  " ++ name ++ " = " ++ i.store.text v
  unlines (builtInLines ++ ownLines)

end Lisplet.CommandLine

import Lisplet.Text.Blank

/-! Tokens: brackets and blocks of text, found by a scanner that takes one character at a time. -/
namespace Lisplet.Reader

/-- What a token is made of. -/
inductive Lexeme where
  | opening (bracket : Char)
  | closing (bracket : Char)
  | block (text : List Char)
deriving DecidableEq, Repr

structure Token where
  lexeme : Lexeme
  offset : Nat
deriving DecidableEq, Repr

/-- The characters that may stand between tokens. -/
def isSpace (c : Char) : Bool := c = ' ' || c = '\t' || c = '\r' || c = '\n'

def isOpening (c : Char) : Bool := c = '(' || c = '['

def isClosing (c : Char) : Bool := c = ')' || c = ']'

/-- Whether a character ends a block of text, outside quotes. A semicolon does where comments are
read. -/
def isDelimiter (comments : Bool) (c : Char) : Bool :=
  Text.isBlank c || isOpening c || isClosing c || (comments && c = ';')

/-- Where a scanner stands: between tokens, in a comment, in a block of text outside or inside
quotes, or before a character that starts no token. Blocks keep their text last character first. -/
inductive Mode where
  | between
  | comment
  | plain (start : Nat) (text : List Char)
  | quoted (start : Nat) (text : List Char)
  | stuck (start : Nat)
deriving DecidableEq, Repr

/-- A scanner: the tokens found, the last one first, where it stands, and the bytes it has seen. -/
structure Scanner where
  tokens : List Token
  mode : Mode
  offset : Nat
deriving DecidableEq, Repr

namespace Scanner

def start : Scanner := ⟨[], .between, 0⟩

/-- Takes a character that stands between tokens. -/
def begin (comments : Bool) (tokens : List Token) (offset : Nat) (c : Char) : List Token × Mode :=
  if isSpace c then (tokens, .between)
  else if comments && c = ';' then (tokens, .comment)
  else if isOpening c then (⟨.opening c, offset⟩ :: tokens, .between)
  else if isClosing c then (⟨.closing c, offset⟩ :: tokens, .between)
  else if c = '"' then (tokens, .quoted offset [c])
  else if Text.isBlank c then (tokens, .stuck offset)
  else (tokens, .plain offset [c])

/-- Takes a character. Quotes pair up inside a block, and only there. -/
def feed (comments : Bool) (s : Scanner) (c : Char) : Scanner :=
  let (tokens, mode) :=
    match s.mode with
    | .between => begin comments s.tokens s.offset c
    | .comment => (s.tokens, if c = '\n' then .between else .comment)
    | .plain start text =>
      if c = '"' then (s.tokens, .quoted start (c :: text))
      else if isDelimiter comments c then
        begin comments (⟨.block text.reverse, start⟩ :: s.tokens) s.offset c
      else (s.tokens, .plain start (c :: text))
    | .quoted start text =>
      (s.tokens, if c = '"' then .plain start (c :: text) else .quoted start (c :: text))
    | .stuck start => (s.tokens, .stuck start)
  ⟨tokens, mode, s.offset + c.utf8Size⟩

def finish (s : Scanner) : Except Nat (List Token) :=
  match s.mode with
  | .between | .comment => .ok s.tokens.reverse
  | .plain start text => .ok (⟨.block text.reverse, start⟩ :: s.tokens).reverse
  | .quoted start _ | .stuck start => .error start

end Scanner

def tokens (comments : Bool) (input : List Char) : Except Nat (List Token) :=
  (input.foldl (Scanner.feed comments) Scanner.start).finish

end Lisplet.Reader

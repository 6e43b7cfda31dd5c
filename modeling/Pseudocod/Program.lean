import Pseudocod.Statement.Parser
import Pseudocod.SyntaxError
import Pseudocod.Token.Cursor
import Pseudocod.Token.Stream

/-!
# Reading programs

A program is read from a stream of tokens, all of which it has to use up. Reading gives back the
stream as well: after a program it is at its end, and after an error it is at the token to which
the error refers, so that reading can be taken up again there. `Program.parse` reads a source text.

* `Program.read_of_pending_eq_nil`: at the end of a stream there is the empty program.
-/

namespace Pseudocod

/-- A token that could not be used, and what was looked for in its place. -/
structure ParseError where
  expected : Expected
  found : Token
deriving DecidableEq, Repr

/-- A fault of a lexeme as a syntax error. -/
def LexError.toSyntaxError (error : LexError) : SyntaxError :=
  .lexical error.fault.message error.location

/-- An unusable token as a syntax error. -/
def ParseError.toSyntaxError (error : ParseError) : SyntaxError :=
  .grammatical error.expected.message error.found.describe error.found.location

/-- A failed reader as an error: it is at the first token that was left, or at the end. -/
def Failure.toParseError (failure : Failure) (stream : TokenStream) : ParseError :=
  { expected := failure.expected, found := failure.rest.head?.getD stream.eof }

namespace Program

/-- The statements up to the end of the tokens. -/
def parseTokens (tokens : List Token) : Except Failure Program :=
  match Statement.parseBlock tokens with
  | .error failure => .error failure
  | .ok ⟨statements, [], _⟩ => .ok { statements }
  | .ok ⟨_, token :: rest, _⟩ => .error { expected := .statement, rest := token :: rest }

/-- The program in a stream of tokens, or the first error, and the stream where reading stopped. -/
def read (stream : TokenStream) : Except ParseError Program × TokenStream :=
  match parseTokens stream.pending with
  | .ok program => (.ok program, { stream with pending := [] })
  | .error failure =>
    (.error (failure.toParseError stream), { stream with pending := failure.rest })

/-- The program of a source text, or its first syntax error. -/
def parse (source : String) : Except SyntaxError Program :=
  match tokenize source with
  | .error error => .error error.toSyntaxError
  | .ok tokens => (read (.ofTokens tokens)).1.mapError ParseError.toSyntaxError

theorem parseTokens_nil : parseTokens [] = .ok { statements := [] } := by
  rw [parseTokens, Statement.parseBlock_nil]

theorem read_of_pending_eq_nil {stream : TokenStream} (h : stream.pending = []) :
    read stream = (.ok { statements := [] }, stream) := by
  rw [read, h, parseTokens_nil]
  cases stream
  simp_all

end Program

end Pseudocod

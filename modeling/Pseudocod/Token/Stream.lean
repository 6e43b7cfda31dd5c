import Pseudocod.Token.Basic

/-!
# Streams of tokens

What a program is read from: the tokens before its end, and the location of the end. Tokens behind
the first one of kind `eof` are never looked at, so a stream does not keep them.

* `TokenStream.pending_ofTokens`: the pending tokens are those before the first `eof`.
* `TokenStream.untilEof_append_cons`: the first `eof` is the end of the stream.
-/

namespace Pseudocod

/-- The tokens of a program that are still to be read, and the location of its end. -/
structure TokenStream where
  pending : List Token
  stop : Location
deriving DecidableEq, Repr

namespace TokenStream

/-- The stream that ends at `stop` if no token of kind `eof` comes before. -/
def untilEof (stop : Location) : List Token → TokenStream
  | [] => { pending := [], stop }
  | token :: tokens =>
    if token.kind = .eof then { pending := [], stop := token.location }
    else
      let remaining := untilEof stop tokens
      { remaining with pending := token :: remaining.pending }

/-- The stream of some tokens. It ends at the first token of kind `eof`; without one it ends where
the last token starts, and an empty one at the start of a text. -/
def ofTokens (tokens : List Token) : TokenStream :=
  untilEof ((tokens.getLast?.map Token.location).getD .start) tokens

/-- The end of the stream as a token. -/
def eof (stream : TokenStream) : Token :=
  .eof stream.stop

theorem pending_untilEof (stop : Location) (tokens : List Token) :
    (untilEof stop tokens).pending = tokens.takeWhile fun token => token.kind ≠ .eof := by
  induction tokens with
  | nil => rfl
  | cons token tokens ih =>
    by_cases h : token.kind = .eof <;> simp [untilEof, h, ih]

/-- The first token of kind `eof` ends the stream, whatever comes behind it. -/
theorem untilEof_append_cons {tokens : List Token} {last : Token}
    (inner : ∀ token ∈ tokens, token.kind ≠ .eof) (h : last.kind = .eof) (stop : Location)
    (behind : List Token) :
    untilEof stop (tokens ++ last :: behind) = { pending := tokens, stop := last.location } := by
  induction tokens with
  | nil => simp [untilEof, h]
  | cons token tokens ih =>
    have ne : token.kind ≠ .eof := inner token List.mem_cons_self
    rw [List.cons_append, untilEof, if_neg ne,
      ih fun token member => inner token (List.mem_cons_of_mem _ member)]

theorem pending_ofTokens (tokens : List Token) :
    (ofTokens tokens).pending = tokens.takeWhile fun token => token.kind ≠ .eof :=
  pending_untilEof _ _

end TokenStream

end Pseudocod

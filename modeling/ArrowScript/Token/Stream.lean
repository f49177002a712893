import ArrowScript.Token.Lexeme

/-!
The tokens of a source, in order. Reading stops at the first fault; the tokens before it are kept,
and a token for the end of the input always stands last, where the reading stopped.
-/

namespace ArrowScript

structure LexError where
  cause : LexFault
  span : Span

structure TokenStream where
  tokens : List Token
  error? : Option LexError

namespace TokenStream

/-- The empty stream, whose reading stopped at `p`. -/
def finished (p : Position) (error? : Option LexError) : TokenStream :=
  ⟨[⟨.stop, .empty p⟩], error?⟩

def push (t : Token) (s : TokenStream) : TokenStream := { s with tokens := t :: s.tokens }

/-- The stream of the text `cs`, which stands at `p`. -/
def ofChars (p : Position) : List Char → TokenStream
  | [] => finished p none
  | c :: rest =>
    let cut := Lexeme.first c rest
    let after := (p.advance c).advanceOver (rest.take cut.extra)
    match cut.piece with
    | .blank => ofChars after (rest.drop cut.extra)
    | .token kind => (ofChars after (rest.drop cut.extra)).push ⟨kind, ⟨p, after⟩⟩
    | .fault cause => finished after (some ⟨cause, ⟨p, after⟩⟩)
  termination_by cs => cs.length
  decreasing_by all_goals simp only [List.length_drop, List.length_cons]; omega

def ofSource (s : Source) : TokenStream := ofChars (.start s) s.text.toList

end TokenStream

end ArrowScript

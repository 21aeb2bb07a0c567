/-
# The textual format: tokens

A line is cut into words and single signs.  A register range such as `v[0:3]` is one word, blanks
divide tokens, and a semicolon starts a comment.  A token remembers whether blanks stand before
it: `key=value` is an attribute only if the sign follows its key directly.
-/

namespace GpuWaits

/-- A word, or a character that belongs to no word. -/
inductive Lexeme where
  | word (text : String)
  | sign (c : Char)
deriving DecidableEq

/-- A piece of a line. -/
structure Token where
  /-- Blanks stand before the token. -/
  spaced : Bool
  lexeme : Lexeme
deriving DecidableEq

namespace Token

/-- A character that divides tokens. -/
def isBlank (c : Char) : Bool := c == ' ' || c == '\t' || c == '\r'

/-- A character that may stand in a word outside of brackets. -/
def isWordChar (c : Char) : Bool := c.isAlphanum || c == '_' || c == '.' || c == '#'

/-- Whether a word goes on with `c`; `inside` tells that a bracket is open. -/
def continues (inside : Bool) (c : Char) : Bool :=
  isWordChar c || (c == '[' && !inside) || (c == ']' && inside) || (c == ':' && inside)

/-- Whether a bracket is open after `c`. -/
def opens (inside : Bool) (c : Char) : Bool :=
  if c == '[' then true else if c == ']' then false else inside

/-- Where the cutting of a line stands. -/
inductive Cut where
  /-- Between two tokens. -/
  | between (spaced : Bool)
  /-- In a word, of which the characters so far are given last one first. -/
  | inWord (spaced inside : Bool) (reversed : List Char)
  /-- In a comment. -/
  | inComment

namespace Cut

/-- The token that ends here, if one does. -/
def finished : Cut → List Token
  | .inWord spaced _ reversed => [⟨spaced, .word (.ofList reversed.reverse)⟩]
  | .between _ | .inComment => []

/-- Starts a new token with `c`, and gives it back if it is complete. -/
def start (spaced : Bool) (c : Char) : Cut × List Token :=
  if isBlank c then (.between true, [])
  else if c == ';' then (.inComment, [])
  else if continues false c then (.inWord spaced (opens false c) [c], [])
  else (.between false, [⟨spaced, .sign c⟩])

/-- Goes on with `c`, and gives back the tokens that are complete. -/
def next (cut : Cut) (c : Char) : Cut × List Token :=
  match cut with
  | .inComment => (.inComment, [])
  | .between spaced => start spaced c
  | .inWord spaced inside reversed =>
    if continues inside c then (.inWord spaced (opens inside c) (c :: reversed), [])
    else
      let (after, tokens) := start false c
      (after, cut.finished ++ tokens)

/-- The tokens of the rest of a line. -/
def rest (cut : Cut) : List Char → List Token
  | [] => cut.finished
  | c :: cs => (cut.next c).2 ++ rest (cut.next c).1 cs

end Cut

/-- The tokens of a line. -/
def ofLine (line : List Char) : List Token := Cut.rest (.between false) line

end Token

/-- The lines of a text.  A line break at the end of the text starts one more, empty line. -/
def lines (text : List Char) : List (List Char) :=
  text.foldr
    (fun c ls => if c = '\n' then [] :: ls else match ls with
      | l :: ls => (c :: l) :: ls
      | [] => [[c]])
    [[]]

end GpuWaits

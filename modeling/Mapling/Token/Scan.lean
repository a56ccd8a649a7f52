import Mapling.Diagnostic
import Mapling.Token

/-! # Reading a text as tokens

Blanks and comments separate tokens, and a token is the longest that its first byte allows. A
byte that starts no token is reported and passed over; an integer beyond 64 bits is reported
and read as zero. Once the report is full, scanning stops after the token it is at. -/

namespace Mapling

/-- What can be wrong with the bytes of a text. -/
inductive ScanFault where
  /-- A byte that starts no token. -/
  | stray (c : Char)
  /-- An integer literal that is too large. -/
  | tooLarge (digits : String)
deriving DecidableEq, Repr

namespace ScanFault

def code : ScanFault → Code
  | .stray _ => .unexpectedCharacter
  | .tooLarge _ => .integerTooLarge

def message : ScanFault → String
  | .stray c => "unexpected character '" ++ String.singleton c ++ "'"
  | .tooLarge digits => "integer literal '" ++ digits ++ "' does not fit in 64 bits"

def diagnostic (f : ScanFault) (span : Span) : Diagnostic :=
  .ofCode f.code f.message span none

end ScanFault

namespace Scan

def isBlank (c : Char) : Bool := c == ' ' || c == '\t' || c == '\r' || c == '\n'

def isWordStart (c : Char) : Bool := c.isAlpha || c == '_'

def isWordChar (c : Char) : Bool := c.isAlphanum || c == '_'

/-- The largest integer a literal may denote. -/
def maxInt : Nat := 9223372036854775807

/-- Skip blanks and comments. A comment runs from two slashes to the end of the line; the flag
says whether one is open. -/
def skipTrivia : Bool → Pos → List Char → Pos × List Char
  | _, p, [] => (p, [])
  | true, p, c :: cs => skipTrivia (c != '\n') (p.advance c) cs
  | false, p, c :: cs =>
    if isBlank c then skipTrivia false (p.advance c) cs
    else if c == '/' && cs.head? == some '/' then skipTrivia true (p.advance c) cs
    else (p, c :: cs)

theorem length_skipTrivia_le (b : Bool) (p : Pos) (cs : List Char) :
    (skipTrivia b p cs).2.length ≤ cs.length := by
  induction cs generalizing b p with
  | nil => cases b <;> simp [skipTrivia]
  | cons c cs ih =>
    cases b with
    | true => simpa [skipTrivia] using Nat.le_succ_of_le (ih _ _)
    | false =>
      simp only [skipTrivia]
      split
      · exact Nat.le_succ_of_le (ih _ _)
      · split
        · exact Nat.le_succ_of_le (ih _ _)
        · exact Nat.le_refl _

/-- What stands at the start of a text: a token, and how many bytes it takes after its first. -/
inductive Piece where
  | token (kind : TokenKind) (extra : Nat)
  | tooLarge (digits : List Char)
  | stray
deriving DecidableEq, Repr

/-- An integer literal is a maximal run of digits. -/
def integer (c : Char) (cs : List Char) : Piece :=
  let more := cs.takeWhile Char.isDigit
  let n := Nat.ofDigitChars 10 (c :: more) 0
  if n ≤ maxInt then .token (.int n) more.length else .tooLarge (c :: more)

/-- A word is a maximal run of letters, digits and underscores. The question mark that follows
belongs to it if together they name a primitive. -/
def word (c : Char) (cs : List Char) : Piece :=
  let more := cs.takeWhile isWordChar
  let plain := Piece.token (.ofWord (String.ofList (c :: more))) more.length
  if (cs.drop more.length).head? == some '?' then
    match TokenKind.reserved? (String.ofList (c :: more ++ ['?'])) with
    | some kind => .token kind (more.length + 1)
    | none => plain
  else plain

/-- The longer mark if `next` follows, the shorter one otherwise. -/
def oneOrTwo (next : Char) (two one : Mark) (cs : List Char) : Piece :=
  if cs.head? == some next then .token (.mark two) 1 else .token (.mark one) 0

/-- The piece that starts with `c` and goes on in `cs`. -/
def piece (c : Char) (cs : List Char) : Piece :=
  if c.isDigit then integer c cs
  else if isWordStart c then word c cs
  else match c with
    | '+' => .token (.mark .plus) 0
    | '-' => .token (.mark .minus) 0
    | '*' => .token (.mark .star) 0
    | '/' => .token (.mark .slash) 0
    | '=' => .token (.mark .equal) 0
    | '~' => .token (.mark .tilde) 0
    | '&' => .token (.mark .amp) 0
    | '|' => .token (.mark .pipe) 0
    | '(' => .token (.mark .leftParen) 0
    | ')' => .token (.mark .rightParen) 0
    | '\x7b' => .token (.mark .leftBrace) 0
    | '\x7d' => .token (.mark .rightBrace) 0
    | ',' => .token (.mark .comma) 0
    | ';' => .token (.mark .semicolon) 0
    | '!' => oneOrTwo '=' .bangEqual .bang cs
    | '>' => oneOrTwo '=' .greaterEqual .greater cs
    | '<' =>
      if cs.head? == some '-' then .token (.mark .leftArrow) 1
      else oneOrTwo '=' .lessEqual .less cs
    | ':' => if cs.head? == some '=' then .token (.mark .colonEqual) 1 else .stray
    | _ => .stray

end Scan

/-- The tokens of a text, the last of which is the end of the text, and what was wrong with it,
in order. -/
structure Scan where
  tokens : List Token
  faults : List (ScanFault × Span)
deriving Repr

namespace Scan

/-- The result at the end of the text. -/
def atEnd (p : Pos) : Scan := ⟨[⟨.eof, .point p⟩], []⟩

/-- The position right after a piece on one line that starts at `p` and takes `extra` bytes after
its first. -/
def pieceEnd (p : Pos) (extra : Nat) : Pos := ⟨p.line, counted (p.col + extra + 1)⟩

/-- The span of such a piece, up to the column before its end. -/
def pieceSpan (p : Pos) (extra : Nat) : Span :=
  ⟨p, ⟨p.line, max ((pieceEnd p extra).col - 1) 1⟩⟩

/-- The span of an integer literal that is too large, counted back from its end. -/
def digitsSpan (p : Pos) (extra : Nat) : Span :=
  let stop := pieceEnd p extra
  let back (n : Nat) : Pos := ⟨stop.line, counted (stop.col + positionBound - counted n)⟩
  ⟨back (extra + 1), back 1⟩

/-- Scan the rest of a text from position `p`, with `found` faults so far. -/
def scanFrom (found : Nat) (p : Pos) (cs : List Char) : Scan :=
  match _h : skipTrivia false p cs with
  | (q, []) => atEnd q
  | (q, c :: rest) =>
    match piece c rest with
    | .stray =>
      let more := scanFrom (found + 1) (pieceEnd q 0) rest
      { more with faults := (.stray c, pieceSpan q 0) :: more.faults }
    | .token kind extra =>
      let more :=
        if Report.limit ≤ found then atEnd (pieceEnd q extra)
        else scanFrom found (pieceEnd q extra) (rest.drop extra)
      { more with tokens := ⟨kind, pieceSpan q extra⟩ :: more.tokens }
    | .tooLarge digits =>
      let extra := digits.length - 1
      let more :=
        if Report.limit ≤ found + 1 then atEnd (pieceEnd q extra)
        else scanFrom (found + 1) (pieceEnd q extra) (rest.drop extra)
      { tokens := ⟨.int 0, pieceSpan q extra⟩ :: more.tokens
        faults := (.tooLarge (String.ofList digits), digitsSpan q extra) :: more.faults }
termination_by cs.length
decreasing_by
  all_goals
    have hlen := length_skipTrivia_le false p cs
    rw [_h] at hlen
    simp only [List.length_cons, List.length_drop] at hlen ⊢
    omega

def ofSource (s : Source) : Scan := scanFrom 0 ⟨1, 1⟩ s.bytes

/-- The report of a scan of `s`. -/
def report (r : Scan) (s : Source) : Report :=
  Report.ofList (r.faults.map (fun f => (f.1.diagnostic f.2).withSource s))

end Scan

end Mapling

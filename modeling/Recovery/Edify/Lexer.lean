/-
# The lexer of update scripts (lexer.l)

Inside of a string each match puts one character into `string_buffer`, whose size is not
checked: a string that does not fit is a fault. The start condition, the buffer and the
position outlive a script. The numbers of lines and columns are left out.
-/
import Recovery.Text

namespace Recovery
namespace Edify

/-- The terminals. `error` is only used by the parser. -/
inductive Sym
  | eof
  | error
  | string
  | bad
  | and
  | or
  | eq
  | ne
  | kwIf
  | kwThen
  | kwElse
  | kwEndif
  | plus
  | open
  | close
  | comma
  | not
  | semicolon
  deriving DecidableEq

/-- `YYLTYPE`. -/
structure Loc where
  start : ℤ
  stop : ℤ
  deriving DecidableEq

/-- The globals of the lexer. -/
structure Lexer where
  /-- what is left of the buffer that is scanned -/
  input : Bytes
  /-- the start condition `STR` -/
  inString : Bool
  /-- `string_buffer` up to `string_pos` -/
  buffer : Bytes
  /-- `gPos` -/
  pos : ℤ
  yylval : CString
  yylloc : Loc
  deriving DecidableEq

def maxStringLen : ℕ := 1024

def quoteChar : UInt8 := 0x22

def backslash : UInt8 := 0x5c

def Lexer.advance (l : Lexer) (len : ℕ) : Lexer :=
  { l with input := l.input.drop len, pos := l.pos + len, yylloc := ⟨l.pos, l.pos + len⟩ }

/-! ### Strings -/

/-- What is matched behind a backslash: the character it stands for, and the length. -/
def escape : Bytes → UInt8 × ℕ
  | 0x6e :: _ => (0x0a, 2)
  | 0x74 :: _ => (0x09, 2)
  | 0x22 :: _ => (quoteChar, 2)
  | 0x5c :: _ => (backslash, 2)
  | 0x78 :: a :: b :: _ => match digit a, digit b with
    | some x, some y => (UInt8.ofNat (16 * x + y), 4)
    | _, _ => (backslash, 1)
  | _ => (backslash, 1)

/-- The rules of a string, up to its end or that of the input. -/
def lexString : ℕ → Lexer → Except Stop (Sym × Lexer)
  | 0, l => .ok (.eof, l)
  | fuel + 1, l => match l.input with
    | [] => .ok (.eof, l)
    | c :: rest =>
      -- one more character, or the NUL behind the last one
      if maxStringLen ≤ l.buffer.length then .error .fault
      else if c = quoteChar then
        .ok (.string, { l with input := rest, inString := false, pos := l.pos + 1, yylval := .of l.buffer, yylloc.stop := l.pos + 1 })
      else
        let (b, len) := if c = backslash then escape rest else (c, 1)
        lexString fuel { l with input := l.input.drop len, pos := l.pos + len, buffer := l.buffer ++ [b] }

/-! ### Everything else -/

def isWord (c : UInt8) : Bool :=
  (0x61 ≤ c && c ≤ 0x7a) || (0x41 ≤ c && c ≤ 0x5a) || (0x30 ≤ c && c ≤ 0x39) || c = 0x5f || c = 0x3a || c = 0x2f || c = 0x2e

def isBlankChar (c : UInt8) : Bool := c = 0x20 || c = 0x09

def keyword (text : Bytes) : Option Sym :=
  if text = lit "if" then some .kwIf
  else if text = lit "then" then some .kwThen
  else if text = lit "else" then some .kwElse
  else if text = lit "endif" then some .kwEndif
  else none

def operator : Bytes → Option (Sym × ℕ)
  | 0x26 :: 0x26 :: _ => some (.and, 2)
  | 0x7c :: 0x7c :: _ => some (.or, 2)
  | 0x3d :: 0x3d :: _ => some (.eq, 2)
  | 0x21 :: 0x3d :: _ => some (.ne, 2)
  | 0x2b :: _ => some (.plus, 1)
  | 0x28 :: _ => some (.open, 1)
  | 0x29 :: _ => some (.close, 1)
  | 0x2c :: _ => some (.comma, 1)
  | 0x21 :: _ => some (.not, 1)
  | 0x3b :: _ => some (.semicolon, 1)
  | _ => none

/-- The length of `(#.*)?\n` at the start of the input. -/
def lineEnd (input : Bytes) : Option ℕ :=
  let comment := if input.head? = some 0x23 then input.takeWhile (· ≠ 0x0a) else []
  if (input.drop comment.length).head? = some 0x0a then some (comment.length + 1) else none

def lexToken : ℕ → Lexer → Except Stop (Sym × Lexer)
  | 0, l => .ok (.eof, l)
  | fuel + 1, l =>
    if l.inString then lexString (l.input.length + 1) l
    else match l.input with
      | [] => .ok (.eof, l)
      | c :: rest =>
        if c = quoteChar then
          lexString (rest.length + 1) { l with input := rest, inString := true, buffer := [], pos := l.pos + 1, yylloc.start := l.pos }
        else if isWord c then
          let text := l.input.takeWhile isWord
          match keyword text with
          | some sym => .ok (sym, l.advance text.length)
          | none => .ok (.string, { l.advance text.length with yylval := .of text })
        else if isBlankChar c then lexToken fuel (l.advance (l.input.takeWhile isBlankChar).length)
        else match operator l.input with
          | some (sym, len) => .ok (sym, l.advance len)
          | none => match lineEnd l.input with
            | some len => lexToken fuel { l with input := l.input.drop len, pos := l.pos + len }
            -- neither the position nor the location changes
            | none => .ok (.bad, { l with input := rest })

def yylex (l : Lexer) : Except Stop (Sym × Lexer) := lexToken (l.input.length + 1) l

end Edify
end Recovery

/-! # Quoted text

How characters and strings are shown inside an expression: between quotes, with the
quote itself, the backslash and control characters escaped.  A string escapes only the
double quote and a character only the single one.

Only ASCII is looked at.  Characters beyond it stand for themselves, also those that cannot
be seen or that join the one before them, such as U+0085, U+00AD, U+0301 and U+200B, which a
printer that knows Unicode would escape.  Quoted text is only ever part of a listing or of
the wording of an error. -/

namespace LetLang.Quoted

/-- The escape of a control character by its code: `\u`, a brace, the code in lower-case
    hexadecimal, and a brace. -/
def escapeCode (c : Char) : List Char :=
  '\\' :: 'u' :: '\x7b' :: (Nat.toDigits 16 c.toNat ++ ['\x7d'])

/-- Whether a character is a control character of ASCII. -/
def isControl (c : Char) : Bool := c.toNat < 0x20 || c.toNat == 0x7f

/-- A character as it is shown between two `quote`s. -/
def escape (quote c : Char) : List Char :=
  if c == quote || c == '\\' then ['\\', c]
  else if c == '\n' then ['\\', 'n']
  else if c == '\r' then ['\\', 'r']
  else if c == '\t' then ['\\', 't']
  else if c == '\x00' then ['\\', '0']
  else if isControl c then escapeCode c
  else [c]

/-- A character between single quotes. -/
def character (c : Char) : String := String.ofList ('\'' :: (escape '\'' c ++ ['\'']))

/-- A string between double quotes. -/
def string (s : String) : String :=
  String.ofList ('"' :: (s.toList.flatMap (escape '"') ++ ['"']))

end LetLang.Quoted

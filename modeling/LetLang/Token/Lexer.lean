import LetLang.Token

/-! # From text to tokens

The kind of a lexeme is decided by its first character:

| first character                         | token                                          |
|-----------------------------------------|------------------------------------------------|
| letter or `_`                           | identifier, going on with letters, digits, `_`, `-` |
| digit, or `+` or `-` right before one   | integer, or decimal if a point and a digit follow |
| `"`                                     | string                                         |
| `'`                                     | character                                      |
| anything else that is not blank         | operator; `<= >= != ==` before their first character |

Every lexeme is as long as it can be.  The first fault stops the scan, at the byte
offset where no continuation can mend it.

## Key results

* `next_append`  a lexeme and what is left of the text make up the text
* `length_next`  so every step shortens what is left, and the scan ends -/

namespace LetLang

/-- What can be wrong with a text. -/
inductive LexFault where
  /-- The text ends inside a string. -/
  | unterminatedString
  /-- A character literal has no closing quote where one is due. -/
  | unterminatedCharacter
  /-- Two quotes with nothing between them. -/
  | emptyCharacter
  /-- A line break inside a literal. -/
  | lineBreak
  /-- A backslash in front of a character that has no escape. -/
  | invalidEscape (c : Char)
deriving DecidableEq, Repr

/-- A fault and the byte offset at which it shows. -/
structure LexError where
  offset : Nat
  fault : LexFault
deriving DecidableEq, Repr

/-- The wording of a fault. -/
def LexFault.message : LexFault → String
  | unterminatedString => "Unterminated string"
  | unterminatedCharacter => "Unterminated character"
  | emptyCharacter => "Empty character"
  | lineBreak => "Line break inside literal"
  | invalidEscape c => "Invalid escape '\\" ++ c.toString ++ "'"

/-- The wording of an error, with its place. -/
def LexError.message (e : LexError) : String :=
  "offset " ++ toString e.offset ++ ": " ++ e.fault.message

namespace Lexer

/-- Length of a text in bytes. -/
def byteLength : List Char → Nat
  | [] => 0
  | c :: cs => c.utf8Size + byteLength cs

/-- A lexeme without its first character, and the text behind it. -/
structure Lexeme where
  kind : Token.Kind
  tail : List Char
  rest : List Char
deriving DecidableEq, Repr

/-- Prefix the lexeme with characters that are already read. -/
def prepend (cs : List Char) (p : List Char × List Char) : List Char × List Char :=
  (cs ++ p.1, p.2)

/-! ## The lexemes of each kind -/

/-- An identifier, behind its first character. -/
def identifier (cs : List Char) : Lexeme :=
  ⟨.identifier, cs.takeWhile isIdentifierRest, cs.dropWhile isIdentifierRest⟩

/-- A number, behind its first character.  A point belongs to it only if a digit
    follows. -/
def number (cs : List Char) : Lexeme :=
  let whole := cs.takeWhile Char.isDigit
  match cs.dropWhile Char.isDigit with
  | '.' :: d :: rest =>
    if d.isDigit then
      ⟨.decimal, whole ++ '.' :: d :: rest.takeWhile Char.isDigit, rest.dropWhile Char.isDigit⟩
    else ⟨.integer, whole, '.' :: d :: rest⟩
  | rest => ⟨.integer, whole, rest⟩

/-- The rest of a string up to and including its closing quote, and the text behind
    it.  `offset` is the place of the first character. -/
def string (offset : Nat) : List Char → Except LexError (List Char × List Char)
  | [] => .error ⟨offset, .unterminatedString⟩
  | c :: cs =>
    if c = '"' then .ok ([c], cs)
    else if isLineBreak c then .error ⟨offset, .lineBreak⟩
    else if c = '\\' then
      match cs with
      | [] => .error ⟨offset + 1, .unterminatedString⟩
      | e :: cs =>
        if isEscape e then (string (offset + 1 + e.utf8Size) cs).map (prepend [c, e])
        else .error ⟨offset + 1, .invalidEscape e⟩
    else (string (offset + c.utf8Size) cs).map (prepend [c])

/-- The closing quote of a character literal. -/
def closeCharacter (offset : Nat) : List Char → Except LexError (List Char × List Char)
  | '\'' :: cs => .ok (['\''], cs)
  | _ => .error ⟨offset, .unterminatedCharacter⟩

/-- The rest of a character literal up to and including its closing quote, and the text
    behind it.  `offset` is the place of the first character. -/
def character (offset : Nat) : List Char → Except LexError (List Char × List Char)
  | [] => .error ⟨offset, .unterminatedCharacter⟩
  | c :: cs =>
    if c = '\'' then .error ⟨offset, .emptyCharacter⟩
    else if isLineBreak c then .error ⟨offset, .lineBreak⟩
    else if c = '\\' then
      match cs with
      | [] => .error ⟨offset + 1, .unterminatedCharacter⟩
      | e :: cs =>
        if isEscape e then (closeCharacter (offset + 1 + e.utf8Size) cs).map (prepend [c, e])
        else .error ⟨offset + 1, .invalidEscape e⟩
    else (closeCharacter (offset + c.utf8Size) cs).map (prepend [c])

/-- An operator, behind its first character. -/
def operator (c : Char) : List Char → Lexeme
  | '=' :: cs => if takesEquals c then ⟨.operator, ['='], cs⟩ else ⟨.operator, [], '=' :: cs⟩
  | cs => ⟨.operator, [], cs⟩

/-- Whether the first of these characters is a digit. -/
def startsWithDigit : List Char → Bool
  | c :: _ => c.isDigit
  | [] => false

/-- The lexeme that starts with the character `c`, which is not blank and stands at
    `offset`, before the text `cs`. -/
def next (offset : Nat) (c : Char) (cs : List Char) : Except LexError Lexeme :=
  if isIdentifierStart c then .ok (identifier cs)
  else if c.isDigit || ((c == '+' || c == '-') && startsWithDigit cs) then .ok (number cs)
  else if c = '"' then (string (offset + 1) cs).map fun p => ⟨.string, p.1, p.2⟩
  else if c = '\'' then (character (offset + 1) cs).map fun p => ⟨.character, p.1, p.2⟩
  else .ok (operator c cs)

/-! ## Every step consumes what it reads -/

private theorem map_prepend_append {x : Except LexError (List Char × List Char)}
    {done cs l r : List Char} (hx : ∀ {l r}, x = .ok (l, r) → l ++ r = cs)
    (h : x.map (prepend done) = .ok (l, r)) : l ++ r = done ++ cs := by
  cases x with
  | error => cases h
  | ok p =>
    cases h
    simp [← hx rfl]

private theorem string_append {offset : Nat} {cs l r : List Char}
    (h : string offset cs = .ok (l, r)) : l ++ r = cs := by
  fun_induction string offset cs generalizing l r with
  | case1 => cases h
  | case2 => cases h; rfl
  | case3 => cases h
  | case4 => cases h
  | case5 _ _ _ _ _ _ ih => simpa using map_prepend_append ih h
  | case6 => cases h
  | case7 _ _ _ _ _ _ ih => simpa using map_prepend_append ih h

private theorem closeCharacter_append {offset : Nat} {cs l r : List Char}
    (h : closeCharacter offset cs = .ok (l, r)) : l ++ r = cs := by
  unfold closeCharacter at h
  split at h <;> cases h
  rfl

private theorem character_append {offset : Nat} {cs l r : List Char}
    (h : character offset cs = .ok (l, r)) : l ++ r = cs := by
  unfold character at h
  split at h
  · cases h
  split at h
  · cases h
  split at h
  · cases h
  split at h
  · split at h
    · cases h
    split at h
    · simpa using map_prepend_append closeCharacter_append h
    · cases h
  · simpa using map_prepend_append closeCharacter_append h

private theorem number_append (cs : List Char) : (number cs).tail ++ (number cs).rest = cs := by
  have hcs := List.takeWhile_append_dropWhile (p := Char.isDigit) (l := cs)
  unfold number
  split
  · rename_i d rest hd
    rw [hd] at hcs
    split <;> simp [hcs, List.takeWhile_append_dropWhile]
  · exact hcs

private theorem operator_append (c : Char) (cs : List Char) :
    (operator c cs).tail ++ (operator c cs).rest = cs := by
  unfold operator
  split
  · split <;> rfl
  · rfl

/-- A lexeme and what is left of the text make up the text. -/
theorem next_append {offset : Nat} {c : Char} {cs : List Char} {x : Lexeme}
    (h : next offset c cs = .ok x) : x.tail ++ x.rest = cs := by
  unfold next at h
  split at h
  · cases h
    exact List.takeWhile_append_dropWhile
  split at h
  · cases h
    exact number_append cs
  split at h
  · cases hs : string (offset + 1) cs with
    | error => simp [hs, Except.map] at h
    | ok p =>
      simp only [hs, Except.map, Except.ok.injEq] at h
      subst h
      exact string_append hs
  split at h
  · cases hs : character (offset + 1) cs with
    | error => simp [hs, Except.map] at h
    | ok p =>
      simp only [hs, Except.map, Except.ok.injEq] at h
      subst h
      exact character_append hs
  · cases h
    exact operator_append c cs

/-- What is left of the text is not longer than what there was. -/
theorem length_next {offset : Nat} {c : Char} {cs : List Char} {x : Lexeme}
    (h : next offset c cs = .ok x) : x.rest.length ≤ cs.length := by
  rw [← next_append h, List.length_append]
  omega

/-! ## The scan -/

/-- Scan `cs`, which stands at `offset`, after the tokens `done` in reverse order. -/
def scan (offset : Nat) (done : List Token) : List Char → Except LexError (List Token)
  | [] => .ok done.reverse
  | c :: cs =>
    if isBlank c then scan (offset + c.utf8Size) done cs
    else
      match h : next offset c cs with
      | .error e => .error e
      | .ok x =>
        have := length_next h
        let token := ⟨x.kind, String.ofList (c :: x.tail), offset⟩
        scan (offset + byteLength (c :: x.tail)) (token :: done) x.rest
termination_by cs => cs.length

end Lexer

/-- The tokens of a source text, or the first fault in it. -/
def lex (source : String) : Except LexError (List Token) := Lexer.scan 0 [] source.toList

end LetLang

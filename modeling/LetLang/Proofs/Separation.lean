import LetLang.Proofs.LongestMatch

/-! # Texts that blanks keep apart

A lexeme ends before a blank, before a quote and at the end of the text, and it ends there in the
same way: `Stops back` says that one of these is the case behind it.  So a text that is scanned
without a fault is scanned into the same tokens in front of any stop, and what stands behind a blank
is scanned as if it stood alone, only that it stands elsewhere.

## Key results

- `Lexer.next_before`: a lexeme is found as well when something is put behind a stop
- `Lexer.next_of_before`: and it is found as well when that is taken away
- `Lexer.scan_before`: the same about whole texts
- `Lexer.scan_shift`: a text is scanned alike wherever it stands
- `lex_separated`: scanning two texts with blanks between them is scanning them one by one
-/

namespace LetLang

/-! ## Moving tokens and errors -/

/-- The same token, `k` bytes further on. -/
def Token.shift (k : Nat) (t : Token) : Token := { t with offset := k + t.offset }

/-- The same error, `k` bytes further on. -/
def LexError.shift (k : Nat) (e : LexError) : LexError := { e with offset := k + e.offset }

namespace Lexer

/-! ## Stops -/

/-- The characters at which every lexeme ends that has begun before. -/
def isStop (c : Char) : Bool := isBlank c || c == '"' || c == '\''

/-- No lexeme that has begun goes on here: the text ends, or a blank or a quote comes next. -/
def Stops (back : List Char) : Prop := ∀ c ∈ back.head?, isStop c = true

/-- A text that starts with a stop stops what stands before it. -/
theorem stops_cons {c : Char} (hc : isStop c = true) (cs : List Char) : Stops (c :: cs) := by
  intro d hd
  obtain rfl : c = d := by simpa using hd
  exact hc

/-- A stop is none of the characters with which a lexeme goes on. -/
private theorem not_continues {c : Char} (h : isStop c = true) :
    isIdentifierRest c = false ∧ c.isDigit = false ∧ c ≠ '.' ∧ c ≠ '=' := by
  simp only [isStop, isBlank, Bool.or_eq_true, beq_iff_eq] at h
  obtain (((((rfl | rfl) | rfl) | rfl) | rfl) | rfl) | rfl := h <;> decide

/-- What is taken ends before the text behind. -/
private theorem takeWhile_before {p : Char → Bool} {back : List Char}
    (hback : ∀ c ∈ back.head?, p c = false) (cs : List Char) :
    (cs ++ back).takeWhile p = cs.takeWhile p := by
  induction cs with
  | nil =>
    cases back with
    | nil => rfl
    | cons c back => simp [hback c rfl]
  | cons c cs ih => by_cases hc : p c = true <;> simp [hc, ih]

/-- What is left is the rest and the text behind. -/
private theorem dropWhile_before {p : Char → Bool} {back : List Char}
    (hback : ∀ c ∈ back.head?, p c = false) (cs : List Char) :
    (cs ++ back).dropWhile p = cs.dropWhile p ++ back := by
  induction cs with
  | nil =>
    cases back with
    | nil => rfl
    | cons c back => simp [hback c rfl]
  | cons c cs ih => by_cases hc : p c = true <;> simp [hc, ih]

/-! ## One lexeme in front of a stop -/

/-- The same lexeme, with more text behind it. -/
def Lexeme.before (x : Lexeme) (back : List Char) : Lexeme := { x with rest := x.rest ++ back }

section

variable {back : List Char} (hback : Stops back)
include hback

/-- A word ends at a stop. -/
private theorem identifier_before (cs : List Char) :
    identifier (cs ++ back) = (identifier cs).before back := by
  have hstop : ∀ c ∈ back.head?, isIdentifierRest c = false :=
    fun c hc => (not_continues (hback c hc)).1
  simp only [identifier, Lexeme.before, takeWhile_before hstop, dropWhile_before hstop]

/-- A number ends at a stop. -/
private theorem number_before (cs : List Char) : number (cs ++ back) = (number cs).before back := by
  have hstop : ∀ c ∈ back.head?, c.isDigit = false :=
    fun c hc => (not_continues (hback c hc)).2.1
  simp only [number, takeWhile_before hstop, dropWhile_before hstop]
  -- What stands behind the first digits decides whether there is a fraction.
  generalize cs.dropWhile Char.isDigit = behind
  cases behind with
  | nil =>
    cases back with
    | nil => rfl
    | cons b back =>
      have hpoint : b ≠ '.' := (not_continues (hback b rfl)).2.2.1
      simp [hpoint, Lexeme.before]
  | cons c behind =>
    by_cases hc : c = '.'
    · subst hc
      cases behind with
      | nil =>
        cases back with
        | nil => simp [Lexeme.before]
        | cons b back =>
          have hdigit : b.isDigit = false := hstop b rfl
          simp [hdigit, Lexeme.before]
      | cons d behind =>
        by_cases hd : d.isDigit = true
        · simp [hd, Lexeme.before, takeWhile_before hstop, dropWhile_before hstop]
        · simp [hd, Lexeme.before]
    · simp [hc, Lexeme.before]

/-- An operator ends at a stop. -/
private theorem operator_before (c : Char) (cs : List Char) :
    operator c (cs ++ back) = (operator c cs).before back := by
  cases cs with
  | nil =>
    cases back with
    | nil => rfl
    | cons b back =>
      have hequals : b ≠ '=' := (not_continues (hback b rfl)).2.2.2
      simp [operator, hequals, Lexeme.before]
  | cons d cs =>
    by_cases hd : d = '='
    · subst hd
      by_cases hc : takesEquals c = true <;> simp [operator, hc, Lexeme.before]
    · simp [operator, hd, Lexeme.before]

/-- A stop is no digit. -/
private theorem startsWithDigit_before (cs : List Char) :
    startsWithDigit (cs ++ back) = startsWithDigit cs := by
  cases cs with
  | nil =>
    cases back with
    | nil => rfl
    | cons b back => exact (not_continues (hback b rfl)).2.1
  | cons d cs => rfl

/-- Outside literals a lexeme is found, and what is behind a stop does not change it. -/
private theorem next_plain {c : Char} (hc : ¬ (c = '"' ∨ c = '\'')) (offset : Nat)
    (cs : List Char) :
    ∃ x, next offset c cs = .ok x ∧ next offset c (cs ++ back) = .ok (x.before back) := by
  obtain ⟨hstring, hcharacter⟩ := not_or.mp hc
  simp only [next, hstring, hcharacter, if_false, startsWithDigit_before hback]
  split
  · exact ⟨_, rfl, by rw [identifier_before hback]⟩
  split
  · exact ⟨_, rfl, by rw [number_before hback]⟩
  · exact ⟨_, rfl, by rw [operator_before hback]⟩

end

/-- A literal ends at its closing quote, whatever is behind it. -/
private theorem next_closed {offset : Nat} {c : Char} {cs : List Char} {x : Lexeme}
    (hc : c = '"' ∨ c = '\'') (h : next offset c cs = .ok x) (rest : List Char) :
    next offset c (x.tail ++ rest) = .ok { x with rest := rest } := by
  obtain rfl | rfl := hc
  · have hnext : ∀ cs, next offset '"' cs =
        (string (offset + 1) cs).map fun p => ⟨.string, p.1, p.2⟩ := fun _ => rfl
    rw [hnext] at h
    cases hs : string (offset + 1) cs with
    | error e => rw [hs] at h; exact nomatch h
    | ok p =>
      rw [hs] at h
      cases h
      -- A string ends with its own quote, so nothing behind it matters.
      obtain ⟨text, units, hunits, htail⟩ := written_of_string hs
      simp [hnext, htail, string_written hunits, Except.map]
  · have hnext : ∀ cs, next offset '\'' cs =
        (character (offset + 1) cs).map fun p => ⟨.character, p.1, p.2⟩ := fun _ => rfl
    rw [hnext] at h
    cases hs : character (offset + 1) cs with
    | error e => rw [hs] at h; exact nomatch h
    | ok p =>
      rw [hs] at h
      cases h
      obtain ⟨d, unit, hunit, htail⟩ := written_of_character hs
      simp [hnext, htail, character_written hunit, Except.map]

/-- A lexeme is found as well when something is put behind a stop. -/
theorem next_before {offset : Nat} {c : Char} {cs back : List Char} {x : Lexeme}
    (hback : Stops back) (h : next offset c cs = .ok x) :
    next offset c (cs ++ back) = .ok (x.before back) := by
  by_cases hc : c = '"' ∨ c = '\''
  · rw [← next_append h, List.append_assoc]
    exact next_closed hc h (x.rest ++ back)
  · obtain ⟨x', hx', hbefore⟩ := next_plain hback hc offset cs
    rw [h] at hx'
    cases hx'
    exact hbefore

/-- A lexeme that ends in front of a stop is found as well when what is behind it is taken away. -/
theorem next_of_before {offset : Nat} {c : Char} {tail front back : List Char} {kind : Token.Kind}
    (hback : Stops back)
    (h : next offset c (tail ++ (front ++ back)) = .ok ⟨kind, tail, front ++ back⟩) :
    next offset c (tail ++ front) = .ok ⟨kind, tail, front⟩ := by
  by_cases hc : c = '"' ∨ c = '\''
  · exact next_closed hc h front
  · obtain ⟨x, hx, hbefore⟩ := next_plain hback hc offset (tail ++ front)
    rw [List.append_assoc, h] at hbefore
    rw [hx]
    obtain ⟨kind', tail', rest⟩ := x
    simpa [Lexeme.before, eq_comm] using hbefore

/-! ## Whole texts in front of a stop -/

/-- A lexeme is one token, and the scan goes on behind it. -/
theorem scan_next {offset : Nat} {c : Char} {cs : List Char} {x : Lexeme}
    (hblank : isBlank c = false) (h : next offset c cs = .ok x) (done : List Token) :
    scan offset done (c :: cs) =
      scan (offset + byteLength (c :: x.tail))
        (⟨x.kind, String.ofList (c :: x.tail), offset⟩ :: done) x.rest :=
  scan_longest (longest_of_next hblank h) offset done

/-- An error of a lexeme is the error of the scan. -/
theorem scan_error {offset : Nat} {c : Char} {cs : List Char} {e : LexError}
    (hblank : isBlank c = false) (h : next offset c cs = .error e) (done : List Token) :
    scan offset done (c :: cs) = .error e := by
  rw [scan, if_neg (by simp [hblank])]
  split
  · rename_i hnext
    rw [h] at hnext
    cases hnext
    rfl
  · rename_i hnext
    rw [h] at hnext
    cases hnext

/-- A text that is scanned to its end is scanned into the same tokens in front of a stop, and the
    scan goes on behind it. -/
theorem scan_before {offset : Nat} {done tokens : List Token} {cs back : List Char}
    (hback : Stops back) (h : scan offset done cs = .ok tokens) :
    scan offset done (cs ++ back) = scan (offset + byteLength cs) tokens.reverse back := by
  fun_induction scan offset done cs with
  | case1 offset done =>
    cases h
    simp [byteLength]
  | case2 offset done c cs hblank ih =>
    rw [List.cons_append, scan, if_pos hblank, ih h, byteLength, Nat.add_assoc]
  | case3 => cases h
  | case4 offset done c cs hblank x hnext _ token ih =>
    rw [List.cons_append, scan_next (by simpa using hblank) (next_before hback hnext)]
    -- The bytes of the lexeme and those of the rest are those of the text.
    have hlength : byteLength (c :: cs) = byteLength (c :: x.tail) + byteLength x.rest := by
      rw [← next_append hnext, ← List.cons_append, byteLength_append]
    rw [hlength, ← Nat.add_assoc]
    exact ih h

/-! ## Texts that stand elsewhere -/

/-- It makes no difference whether an error is moved before or after something is done with the
    result. -/
private theorem mapError_map {α β : Type} (k : Nat) (f : α → β) (x : Except LexError α) :
    (x.mapError (LexError.shift k)).map f = (x.map f).mapError (LexError.shift k) := by
  cases x <;> rfl

/-- Errors in strings move with the text. -/
private theorem string_shift (k offset : Nat) (cs : List Char) :
    string (k + offset) cs = (string offset cs).mapError (LexError.shift k) := by
  -- Offsets are only added to, so a shift goes through every case.
  fun_induction string offset cs with
  | case1 => rfl
  | case2 => unfold string; rfl
  | case3 offset c cs hquote hbreak =>
    unfold string
    simp [hquote, hbreak, Except.mapError, LexError.shift]
  | case4 => rfl
  | case5 offset e cs he hquote hbreak ih =>
    rw [← mapError_map, ← ih, string]
    simp [he, isLineBreak, Nat.add_assoc]
  | case6 offset e cs he =>
    unfold string
    simp [he, isLineBreak, Except.mapError, LexError.shift, Nat.add_assoc]
  | case7 offset c cs hquote hbreak hslash ih =>
    rw [← mapError_map, ← ih]
    conv_lhs => unfold string
    simp [hquote, hbreak, hslash, Nat.add_assoc]

/-- A missing quote moves with the text. -/
private theorem closeCharacter_shift (k offset : Nat) (cs : List Char) :
    closeCharacter (k + offset) cs = (closeCharacter offset cs).mapError (LexError.shift k) := by
  unfold closeCharacter
  split <;> rfl

/-- Errors in characters move with the text. -/
private theorem character_shift (k offset : Nat) (cs : List Char) :
    character (k + offset) cs = (character offset cs).mapError (LexError.shift k) := by
  fun_cases character offset cs with
  | case1 => rfl
  | case2 => rfl
  | case3 c cs hquote hbreak =>
    simp [character, hquote, hbreak, Except.mapError, LexError.shift]
  | case4 => rfl
  | case5 e cs he =>
    -- Behind the character, only the closing quote can fail.
    rw [← mapError_map, ← closeCharacter_shift]
    simp [character, he, isLineBreak, Nat.add_assoc]
  | case6 e cs he =>
    simp [character, he, isLineBreak, Except.mapError, LexError.shift, Nat.add_assoc]
  | case7 c cs hquote hbreak hslash =>
    rw [← mapError_map, ← closeCharacter_shift]
    simp [character, hquote, hbreak, hslash, Nat.add_assoc]

/-- The same lexeme is found wherever the text stands, and a fault moves along with it. -/
private theorem next_shift (k offset : Nat) (c : Char) (cs : List Char) :
    next (k + offset) c cs = (next offset c cs).mapError (LexError.shift k) := by
  simp only [next, Nat.add_assoc k offset 1, string_shift, character_shift, mapError_map]
  split
  · rfl
  split
  · rfl
  split
  · rfl
  split <;> rfl

/-- A text is scanned alike wherever it stands and whatever has been found in front of it. -/
theorem scan_shift (k offset : Nat) (before done : List Token) (cs : List Char) :
    scan (k + offset) (done.map (Token.shift k) ++ before) cs =
      ((scan offset done cs).mapError (LexError.shift k)).map
        fun tokens => before.reverse ++ tokens.map (Token.shift k) := by
  fun_induction scan offset done cs with
  | case1 offset done => simp [scan, Except.mapError, Except.map]
  | case2 offset done c cs hblank ih =>
    rw [scan, if_pos hblank, Nat.add_assoc, ih]
  | case3 offset done c cs hblank e hnext =>
    -- The same lexeme is faulty, at the shifted offset.
    have hmoved : next (k + offset) c cs = .error (e.shift k) := by rw [next_shift, hnext]; rfl
    rw [scan_error (by simpa using hblank) hmoved]
    rfl
  | case4 offset done c cs hblank x hnext _ token ih =>
    have hmoved : next (k + offset) c cs = .ok x := by rw [next_shift, hnext]; rfl
    rw [scan_next (by simpa using hblank) hmoved, Nat.add_assoc, ← ih]
    rfl

end Lexer

/-! ## Whole sources -/

open Lexer

/-- Scanning is a homomorphism over texts that blanks keep apart.  If the text `s` is scanned
    without a fault, then with some blanks `w` and a text `t` behind it, it gives its own tokens and
    then those of `t`, or the error of `t`, which stand as many bytes further on as `s` and `w`
    take. -/
theorem lex_separated {s w : String} {ts : List Token} (hs : lex s = .ok ts) (hne : w ≠ "")
    (hblank : ∀ c ∈ w.toList, isBlank c = true) (t : String) :
    (∀ us, lex t = .ok us →
      lex (s ++ w ++ t) = .ok (ts ++ us.map (Token.shift (s ++ w).utf8ByteSize))) ∧
    ∀ e, lex t = .error e → lex (s ++ w ++ t) = .error (e.shift (s ++ w).utf8ByteSize) := by
  have hlength : (s ++ w).utf8ByteSize = 0 + byteLength s.toList + byteLength w.toList := by
    rw [byteLength_eq, byteLength_eq]
    simp
  -- The blanks stop the last lexeme of `s`, and then they are passed over.
  have hstops : Stops (w.toList ++ t.toList) := by
    obtain ⟨c, cs, hcs⟩ := List.exists_cons_of_ne_nil (mt String.toList_eq_nil_iff.mp hne)
    rw [hcs]
    have hc := hblank c (by rw [hcs]; exact List.mem_cons_self)
    exact stops_cons (by simp [isStop, hc]) _
  have hscan : lex (s ++ w ++ t) =
      scan ((s ++ w).utf8ByteSize + 0) ([] ++ ts.reverse) t.toList := by
    rw [lex, String.toList_append, String.toList_append, List.append_assoc, scan_before hstops hs,
      scan_blank hblank, hlength]
    rfl
  have hshift := scan_shift (s ++ w).utf8ByteSize 0 ts.reverse [] t.toList
  rw [List.map_nil, ← hscan] at hshift
  constructor
  · intro us hus
    rw [hshift, show scan 0 [] t.toList = .ok us from hus]
    simp [Except.mapError, Except.map]
  · intro e he
    rw [hshift, show scan 0 [] t.toList = .error e from he]
    rfl

/-- A point at the end of one text is no part of the number with which the next one starts, and an
    error behind a tab moves by the bytes in front of it. -/
theorem texts_are_separated :
    lex ("é 1." ++ "\n" ++ "5 <=x") =
      .ok [⟨.operator, "é", 0⟩, ⟨.integer, "1", 3⟩, ⟨.operator, ".", 4⟩, ⟨.integer, "5", 6⟩,
        ⟨.operator, "<=", 8⟩, ⟨.identifier, "x", 10⟩] ∧
    lex ("é" ++ "\t" ++ "y 'ab'") = .error ⟨7, .unterminatedCharacter⟩ := by
  -- The four parts are scanned on their own, and the separation puts them together.
  have hpoint : lex "é 1." =
      .ok [⟨.operator, "é", 0⟩, ⟨.integer, "1", 3⟩, ⟨.operator, ".", 4⟩] := by decide +kernel
  have hfive : lex "5 <=x" =
      .ok [⟨.integer, "5", 0⟩, ⟨.operator, "<=", 2⟩, ⟨.identifier, "x", 4⟩] := by decide +kernel
  have hletter : lex "é" = .ok [⟨.operator, "é", 0⟩] := by decide +kernel
  have hopen : lex "y 'ab'" = .error ⟨4, .unterminatedCharacter⟩ := by decide +kernel
  have hnewline : ∀ c ∈ "\n".toList, isBlank c = true := by simp [isBlank]
  have htab : ∀ c ∈ "\t".toList, isBlank c = true := by simp [isBlank]
  exact ⟨(lex_separated hpoint (by decide) hnewline "5 <=x").1 _ hfive,
    (lex_separated hletter (by decide) htab "y 'ab'").2 _ hopen⟩

end LetLang

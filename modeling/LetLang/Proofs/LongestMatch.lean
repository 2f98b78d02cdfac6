import LetLang.Proofs.Scanning
import Mathlib.Data.List.Infix

/-! # The scanner takes the longest match

`Token.Kind.Lexeme` says which texts are lexemes; here is what it means to cut a text into them.
`Tokenized offset text tokens` goes through a text from left to right: blanks are passed over, and
of what is left then the longest beginning that is a lexeme of any kind becomes a token.
`Stuck offset text start rest` says that this comes to a place where no beginning is a lexeme.
Neither mentions the scanner.

## Key results

* `Lexer.longest_of_next`      what the scanner finds is the longest match
* `Lexer.scan_of_tokenized`    a text that can be cut into lexemes is cut that way
* `Lexer.scan_outcome`         and every other text leads to a place where none starts
* `lex_longest_match`          the same about whole sources, with the bytes of each token -/

namespace LetLang

open Lexer

/-! ## Cutting a text into lexemes -/

/-- Of all beginnings of the text that are lexemes, `lexeme` is the longest; it is one of kind
    `kind`, and `rest` is behind it. -/
structure Longest (text : List Char) (kind : Token.Kind) (lexeme rest : List Char) : Prop where
  text_eq : text = lexeme ++ rest
  isLexeme : kind.Lexeme lexeme
  longest : ∀ (kind' : Token.Kind) (lexeme' : List Char), kind'.Lexeme lexeme' → lexeme' <+: text →
    lexeme'.length ≤ lexeme.length

/-- No beginning of the text is a lexeme. -/
def NoLexeme (text : List Char) : Prop :=
  ∀ (kind : Token.Kind) (lexeme : List Char), kind.Lexeme lexeme → ¬ lexeme <+: text

/-- The text is the beginning of some lexeme. -/
def Viable (text : List Char) : Prop :=
  ∃ (kind : Token.Kind) (more : List Char), kind.Lexeme (text ++ more)

/-- There are only blanks. -/
def Blank (gap : List Char) : Prop := ∀ c ∈ gap, isBlank c = true

/-- The text, which stands at `offset`, is cut into the tokens, with blanks around them. -/
inductive Tokenized : Nat → List Char → List Token → Prop where
  | done {offset : Nat} {gap : List Char} : Blank gap → Tokenized offset gap []
  | token {offset : Nat} {gap text lexeme rest : List Char} {kind : Token.Kind}
      {tokens : List Token} :
    Blank gap → Longest text kind lexeme rest →
    Tokenized (offset + byteLength gap + byteLength lexeme) rest tokens →
    Tokenized offset (gap ++ text)
      (⟨kind, String.ofList lexeme, offset + byteLength gap⟩ :: tokens)

/-- Cutting the text, which stands at `offset`, into tokens comes to the text `rest` at `start`,
    which is due to start a token, and no beginning of it is a lexeme. -/
inductive Stuck : Nat → List Char → Nat → List Char → Prop where
  | here {offset : Nat} {gap rest : List Char} {c : Char} :
    Blank gap → isBlank c = false → NoLexeme (c :: rest) →
    Stuck offset (gap ++ c :: rest) (offset + byteLength gap) (c :: rest)
  | behind {offset start : Nat} {gap text lexeme rest after : List Char} {kind : Token.Kind} :
    Blank gap → Longest text kind lexeme rest →
    Stuck (offset + byteLength gap + byteLength lexeme) rest start after →
    Stuck offset (gap ++ text) start after

/-- A blank in front of blanks. -/
theorem Blank.cons {c : Char} {gap : List Char} (hc : isBlank c = true) (h : Blank gap) :
    Blank (c :: gap) := by
  intro x hx
  obtain rfl | hx := List.mem_cons.mp hx
  · exact hc
  · exact h x hx

/-- Where the text behind a gap stands does not depend on how the gap is counted. -/
private theorem offset_behind_cons (offset : Nat) (c : Char) (gap : List Char) :
    offset + byteLength (c :: gap) = offset + c.utf8Size + byteLength gap := by
  simp only [byteLength]
  omega

/-- One more blank in front. -/
theorem Tokenized.blank {offset : Nat} {c : Char} {text : List Char} {tokens : List Token}
    (hc : isBlank c = true) (h : Tokenized (offset + c.utf8Size) text tokens) :
    Tokenized offset (c :: text) tokens := by
  cases h with
  | done hgap => exact .done (hgap.cons hc)
  | @token _ gap text lexeme rest kind tokens hgap hlongest hrest =>
    rw [← offset_behind_cons] at hrest ⊢
    exact .token (hgap.cons hc) hlongest hrest

/-- Blanks in front of a text do not help where the lexer is stuck. -/
theorem Stuck.blank {offset start : Nat} {c : Char} {text rest : List Char}
    (hc : isBlank c = true) (h : Stuck (offset + c.utf8Size) text start rest) :
    Stuck offset (c :: text) start rest := by
  cases h with
  | @here _ gap rest d hgap hd hnone =>
    rw [← offset_behind_cons]
    exact .here (hgap.cons hc) hd hnone
  | @behind _ _ gap text lexeme rest after kind hgap hlongest hrest =>
    rw [← offset_behind_cons] at hrest
    exact .behind (hgap.cons hc) hlongest hrest

namespace Lexer

/-! ## One lexeme -/

theorem byteLength_append (cs ds : List Char) :
    byteLength (cs ++ ds) = byteLength cs + byteLength ds := by
  induction cs with
  | nil => simp [byteLength]
  | cons c cs ih =>
    simp only [List.cons_append, byteLength, ih]
    omega

/-- A number takes at least the digits that come first. -/
private theorem length_number_digits {digits : List Char} (hd : ∀ c ∈ digits, c.isDigit = true)
    (rest : List Char) : digits.length ≤ (number (digits ++ rest)).tail.length := by
  have htake : digits.length ≤ ((digits ++ rest).takeWhile Char.isDigit).length := by
    rw [List.takeWhile_append_of_pos hd, List.length_append]
    omega
  obtain ⟨-, htail⟩ | ⟨fraction, -, -, htail⟩ := number_cases (digits ++ rest)
  · rwa [htail]
  · rw [htail, List.length_append]
    omega

/-- A point with digits behind it belongs to the number. -/
private theorem length_number_fraction {whole fraction : List Char}
    (hw : ∀ c ∈ whole, c.isDigit = true)
    (hf : Numeral.isDigits fraction = true) (rest : List Char) :
    (whole ++ '.' :: fraction).length ≤
      (number (whole ++ '.' :: fraction ++ rest)).tail.length := by
  obtain ⟨hne, hall⟩ := Numeral.isDigits_iff.mp hf
  obtain ⟨d, ds, rfl⟩ := List.exists_cons_of_ne_nil hne
  have hds : ∀ c ∈ ds, c.isDigit = true := fun c hc => hall c (List.mem_cons_of_mem d hc)
  -- The digits in front end at the point, which is no digit itself.
  rw [List.append_assoc]
  simp only [number, List.cons_append, List.takeWhile_append_of_pos hw,
    List.dropWhile_append_of_pos hw]
  simp [List.takeWhile_cons_of_neg, List.dropWhile_cons_of_neg,
    show Char.isDigit '.' = false by decide, hall d List.mem_cons_self,
    List.takeWhile_append_of_pos hds]

/-- Where a lexeme starts, the scanner finds one that is at least as long. -/
private theorem exists_next_of_start {kind : Token.Kind} {lexeme : List Char}
    (h : kind.Lexeme lexeme) {c : Char} {cs : List Char} (hp : lexeme <+: c :: cs) (offset : Nat) :
    ∃ x, next offset c cs = .ok x ∧ lexeme.length ≤ x.tail.length + 1 := by
  obtain ⟨rest, hrest⟩ := hp
  cases h with
  | @identifier c' cs' hc hcs =>
    rw [List.cons_append] at hrest
    obtain ⟨rfl, rfl⟩ := List.cons.inj hrest
    -- A word is read as far as it goes, which may be further than the given one.
    refine ⟨identifier (cs' ++ rest), by rw [next, if_pos hc], ?_⟩
    simp only [identifier, List.takeWhile_append_of_pos hcs, List.length_append, List.length_cons]
    omega
  | integer hs hd =>
    obtain ⟨c', cs', hcs, hdigits, -, hnext⟩ := next_number hs hd
    rw [hcs, List.cons_append] at hrest
    obtain ⟨rfl, rfl⟩ := List.cons.inj hrest
    refine ⟨_, hnext offset rest, ?_⟩
    -- More digits or a fraction may follow.
    have := length_number_digits hdigits rest
    simp only [hcs, List.length_cons]
    omega
  | @decimal sign whole fraction hs hw hf =>
    obtain ⟨c', cs', hcs, hdigits, -, hnext⟩ := next_number hs hw
    rw [← List.append_assoc, hcs, List.append_assoc, List.cons_append] at hrest
    obtain ⟨rfl, rfl⟩ := List.cons.inj hrest
    refine ⟨_, hnext offset _, ?_⟩
    have := length_number_fraction hdigits hf rest
    rw [List.append_assoc] at this
    rw [← List.append_assoc, hcs, List.cons_append, List.length_cons]
    omega
  | character hunit =>
    simp only [List.cons_append, List.append_assoc, List.nil_append, List.cons.injEq] at hrest
    obtain ⟨rfl, rfl⟩ := hrest
    -- A closing quote ends the lexeme, so nothing longer can be read.
    refine ⟨_, by simp [next, character_written hunit, Except.map, isIdentifierStart]; rfl, ?_⟩
    simp
  | string hunits =>
    simp only [List.cons_append, List.append_assoc, List.nil_append, List.cons.injEq] at hrest
    obtain ⟨rfl, rfl⟩ := hrest
    refine ⟨_, by simp [next, string_written hunits, Except.map, isIdentifierStart]; rfl, ?_⟩
    simp
  | @operator c' hc =>
    obtain ⟨rfl, rfl⟩ := List.cons.inj hrest
    have hstart := isOperatorChar_start hc
    simp only [isOperatorChar, Char.isAlphanum, Bool.and_eq_true, Bool.not_eq_true',
      Bool.or_eq_false_iff, bne_iff_ne] at hc
    obtain ⟨⟨⟨⟨-, -, -⟩, -⟩, hstring⟩, hcharacter⟩ := hc
    -- A sign before a digit starts a number; everything else is an operator.
    by_cases hnumber : (c'.isDigit || ((c' == '+' || c' == '-') && startsWithDigit rest)) = true
    · exact ⟨number rest, by simp [next, hstart, hnumber], by simp⟩
    · exact ⟨operator c' rest, by simp [next, hstart, hnumber, hstring, hcharacter], by simp⟩
  | @comparison c' hc =>
    simp only [List.cons_append, List.nil_append, List.cons.injEq] at hrest
    obtain ⟨rfl, rfl⟩ := hrest
    simp only [takesEquals, Bool.or_eq_true, beq_iff_eq] at hc
    obtain ((rfl | rfl) | rfl) | rfl := hc <;> exact ⟨_, rfl, by simp [operator, takesEquals]⟩

/-- What the scanner finds is the longest match. -/
theorem longest_of_next {offset : Nat} {c : Char} {cs : List Char} {x : Lexeme}
    (hblank : isBlank c = false) (h : next offset c cs = .ok x) :
    Longest (c :: cs) x.kind (c :: x.tail) x.rest where
  text_eq := by rw [List.cons_append, next_append h]
  isLexeme := lexeme_of_next hblank h
  longest := by
    intro kind' lexeme' hlexeme hbegins
    obtain ⟨x', hx', hlength⟩ := exists_next_of_start hlexeme hbegins offset
    rw [h] at hx'
    cases hx'
    simpa using hlength

/-- The scanner fails only where no lexeme starts. -/
private theorem noLexeme_of_next {offset : Nat} {c : Char} {cs : List Char} {e : LexError}
    (h : next offset c cs = .error e) : NoLexeme (c :: cs) := by
  intro kind lexeme hlexeme hbegins
  obtain ⟨x, hx, -⟩ := exists_next_of_start hlexeme hbegins offset
  rw [h] at hx
  exact nomatch hx

/-- The longest match is what the scanner finds. -/
private theorem next_of_longest {text lexeme rest : List Char} {kind : Token.Kind}
    (h : Longest text kind lexeme rest) (offset : Nat) :
    ∃ c cs, text = c :: (cs ++ rest) ∧ lexeme = c :: cs ∧ isBlank c = false ∧
      next offset c (cs ++ rest) = .ok ⟨kind, cs, rest⟩ := by
  obtain ⟨c, cs, rfl, hblank, halone⟩ := next_of_lexeme h.isLexeme (.inl rfl) offset
  have htext := h.text_eq
  rw [List.cons_append] at htext
  have hbegins : c :: cs <+: c :: (cs ++ rest) := ⟨rest, rfl⟩
  obtain ⟨x, hx, hlength⟩ := exists_next_of_start h.isLexeme hbegins offset
  have hfound := longest_of_next hblank hx
  -- Both are the longest, so they are equally long beginnings of one text.
  have hle := h.longest _ _ hfound.isLexeme ⟨x.rest, by rw [htext, ← hfound.text_eq]⟩
  have happend := next_append hx
  obtain ⟨htail, hrest⟩ : x.tail = cs ∧ x.rest = rest := by
    apply List.append_inj happend
    simp only [List.length_cons] at hle hlength
    omega
  -- A text is a lexeme of one kind only, the one that is found when it stands alone.
  have hkind : x.kind = kind := by
    have hlexeme := hfound.isLexeme
    rw [htail] at hlexeme
    obtain ⟨c', cs', hcs, -, halone'⟩ := next_of_lexeme hlexeme (.inl rfl) offset
    obtain ⟨rfl, rfl⟩ := List.cons.inj hcs
    rw [halone] at halone'
    cases halone'
    rfl
  refine ⟨c, cs, htext, rfl, hblank, ?_⟩
  rw [hx, ← hkind, ← htail, ← hrest]

/-! ## Whole texts -/

/-- Blanks are skipped. -/
theorem scan_blank {gap : List Char} (h : Blank gap) (offset : Nat) (done : List Token)
    (text : List Char) :
    scan offset done (gap ++ text) = scan (offset + byteLength gap) done text := by
  induction gap generalizing offset with
  | nil => simp [byteLength]
  | cons c gap ih =>
    rw [List.cons_append, scan, if_pos (h c List.mem_cons_self),
      ih (fun x hx => h x (List.mem_cons_of_mem c hx)), byteLength, Nat.add_assoc]

/-- A longest lexeme is one token, and the scan goes on behind it. -/
theorem scan_longest {text lexeme rest : List Char} {kind : Token.Kind}
    (h : Longest text kind lexeme rest) (offset : Nat) (done : List Token) :
    scan offset done text =
      scan (offset + byteLength lexeme) (⟨kind, String.ofList lexeme, offset⟩ :: done) rest := by
  obtain ⟨c, cs, rfl, rfl, hblank, hnext⟩ := next_of_longest h offset
  rw [scan, if_neg (by simp [hblank])]
  split
  · rename_i hnext'
    rw [hnext] at hnext'
    cases hnext'
  · rename_i x hnext'
    rw [hnext] at hnext'
    cases hnext'
    rfl

/-- A text that can be cut into tokens is scanned as these tokens. -/
theorem scan_of_tokenized {offset : Nat} {text : List Char} {tokens : List Token}
    (h : Tokenized offset text tokens) (done : List Token) :
    scan offset done text = .ok (done.reverse ++ tokens) := by
  induction h generalizing done with
  | @done offset gap hgap =>
    have hscan := scan_blank hgap offset done []
    rw [List.append_nil] at hscan
    rw [hscan, scan, List.append_nil]
  | token hgap hlongest _ ih =>
    rw [scan_blank hgap, scan_longest hlongest, ih, List.reverse_cons, List.append_assoc,
      List.singleton_append]

/-- Where no lexeme starts the scan ends with an error. -/
private theorem scan_of_stuck {offset start : Nat} {text rest : List Char}
    (h : Stuck offset text start rest) (done : List Token) :
    ∃ e, scan offset done text = .error e := by
  -- The scan gets as far as the place where it is stuck, and there is no lexeme.
  induction h generalizing done with
  | @here offset gap rest c hgap hc hnone =>
    rw [scan_blank hgap, scan, if_neg (by simp [hc])]
    split
    · exact ⟨_, rfl⟩
    · rename_i x hnext
      have hlongest := longest_of_next hc hnext
      refine absurd ?_ (hnone _ _ hlongest.isLexeme)
      rw [hlongest.text_eq]
      exact List.prefix_append _ _
  | behind hgap hlongest _ ih =>
    rw [scan_blank hgap, scan_longest hlongest]
    exact ih _

/-! ## Where an error shows -/

/-- Reading `cs`, which stands at `offset`, with `read` shows the fault `e` behind some part of
    it: that part can still be completed, and whatever goes on with the character behind it has the
    same fault.  If nothing is behind it, the literal is open. -/
def FaultShows (read : List Char → Except LexError (List Char × List Char)) (offset : Nat)
    (cs : List Char) (e : LexError) : Prop :=
  ∃ front back, cs = front ++ back ∧ e.offset = offset + byteLength front ∧
    (∃ more l, read (front ++ more) = .ok (l, [])) ∧
    (∀ d tail, back = d :: tail → ∀ tail', read (front ++ d :: tail') = .error e) ∧
    (back = [] → e.fault = .unterminatedString ∨ e.fault = .unterminatedCharacter)

/-- Adding what was read does not change an error. -/
private theorem map_prepend_eq_error {x : Except LexError (List Char × List Char)}
    {done : List Char} {e : LexError} (h : x.map (prepend done) = .error e) : x = .error e := by
  cases x with
  | error => exact h
  | ok p => cases h

/-- What has been read already stands in front of where the fault shows. -/
theorem FaultShows.behind {read read' : List Char → Except LexError (List Char × List Char)}
    {offset : Nat} {done cs : List Char} {e : LexError}
    (hread : ∀ cs, read (done ++ cs) = (read' cs).map (prepend done))
    (h : FaultShows read' (offset + byteLength done) cs e) :
    FaultShows read offset (done ++ cs) e := by
  obtain ⟨front, back, rfl, hoffset, ⟨more, l, hmore⟩, hback, hend⟩ := h
  refine ⟨done ++ front, back, by simp, ?_, ⟨more, done ++ l, ?_⟩, ?_, hend⟩
  · rw [hoffset, byteLength_append]
    omega
  · rw [List.append_assoc, hread, hmore]
    rfl
  · intro d tail hd tail'
    rw [List.append_assoc, hread, hback d tail hd tail']
    rfl

/-- An error in a string shows in the text that was read for it. -/
private theorem string_fault {offset : Nat} {cs : List Char} {e : LexError}
    (h : string offset cs = .error e) : FaultShows (string offset) offset cs e := by
  -- Right behind the opening quote, and behind a backslash, the literal can still be closed.
  have hclose : ∀ offset, ∃ more l, string offset ([] ++ more) = .ok (l, []) :=
    fun offset => ⟨['"'], _, rfl⟩
  have hescape : ∀ offset, ∃ more l, string offset (['\\'] ++ more) = .ok (l, []) :=
    fun offset => ⟨['"', '"'], _, rfl⟩
  fun_induction string offset cs with
  | case1 offset =>
    cases h
    exact ⟨[], [], rfl, rfl, hclose offset, by simp, by simp⟩
  | case2 => cases h
  | case3 offset c cs hquote hbreak =>
    cases h
    refine ⟨[], c :: cs, rfl, rfl, hclose offset, ?_, by simp⟩
    intro d tail hd tail'
    cases hd
    unfold string
    simp [hquote, hbreak]
  | case4 offset =>
    cases h
    exact ⟨['\\'], [], rfl, rfl, hescape offset, by simp, by simp⟩
  | case5 offset d cs hd hquote hbreak ih =>
    have hrest := ih (map_prepend_eq_error h)
    have hread : ∀ cs, string offset (['\\', d] ++ cs) =
        (string (offset + 1 + d.utf8Size) cs).map (prepend ['\\', d]) := by
      intro cs
      rw [List.cons_append, List.cons_append, List.nil_append, string]
      simp [hd, isLineBreak]
    apply FaultShows.behind hread
    simpa [byteLength, Nat.add_assoc, show Char.utf8Size '\\' = 1 from rfl] using hrest
  | case6 offset d cs hd =>
    cases h
    refine ⟨['\\'], d :: cs, rfl, rfl, hescape offset, ?_, by simp⟩
    intro d' tail hd' tail'
    cases hd'
    unfold string
    simp [hd, isLineBreak]
  | case7 offset c cs hquote hbreak hslash ih =>
    have hrest := ih (map_prepend_eq_error h)
    have hread : ∀ cs, string offset ([c] ++ cs) =
        (string (offset + c.utf8Size) cs).map (prepend [c]) := by
      intro cs
      rw [List.singleton_append]
      conv_lhs => unfold string
      simp [hquote, hbreak, hslash]
    apply FaultShows.behind hread
    simpa [byteLength] using hrest

/-- A missing quote shows in the text that was read for the character. -/
private theorem closeCharacter_fault {offset : Nat} {cs : List Char} {e : LexError}
    (h : closeCharacter offset cs = .error e) :
    FaultShows (closeCharacter offset) offset cs e := by
  unfold closeCharacter at h
  split at h
  · cases h
  rename_i hquote
  cases h
  refine ⟨[], cs, rfl, rfl, ⟨['\''], _, rfl⟩, ?_, by simp⟩
  intro d tail hd tail'
  subst hd
  -- The quote is missing here, and nothing that comes later can supply it.
  have hne : d ≠ '\'' := by
    intro heq
    subst heq
    exact hquote tail rfl
  simp [closeCharacter, hne]

/-- An error in a character shows in the text that was read for it. -/
private theorem character_fault {offset : Nat} {cs : List Char} {e : LexError}
    (h : character offset cs = .error e) : FaultShows (character offset) offset cs e := by
  -- Up to the fault the text can be completed to a character.
  have hopen : ∃ more l, character offset ([] ++ more) = .ok (l, []) := ⟨['x', '\''], _, rfl⟩
  have hescape : ∃ more l, character offset (['\\'] ++ more) = .ok (l, []) :=
    ⟨['n', '\''], _, rfl⟩
  cases cs with
  | nil =>
    cases h
    exact ⟨[], [], rfl, rfl, hopen, by simp, by simp⟩
  | cons c cs =>
    by_cases hquote : c = '\''
    · subst hquote
      cases h
      refine ⟨[], _, rfl, rfl, hopen, ?_, by simp⟩
      intro d tail hd tail'
      cases hd
      rfl
    -- A line break and an empty character are wrong at once.
    by_cases hbreak : isLineBreak c = true
    · have h' : character offset (c :: cs) = .error ⟨offset, .lineBreak⟩ := by
        simp [character, hquote, hbreak]
      rw [h'] at h
      cases h
      refine ⟨[], _, rfl, rfl, hopen, ?_, by simp⟩
      intro d tail hd tail'
      cases hd
      simp [character, hquote, hbreak]
    by_cases hslash : c = '\\'
    · subst hslash
      cases cs with
      | nil =>
        cases h
        exact ⟨['\\'], [], rfl, rfl, hescape, by simp, by simp⟩
      | cons d cs =>
        -- Behind a backslash stands an escape, or that is the fault.
        by_cases hd : isEscape d = true
        · have hread : ∀ cs, character offset (['\\', d] ++ cs) =
              (closeCharacter (offset + 1 + d.utf8Size) cs).map (prepend ['\\', d]) := by
            intro cs
            simp [character, hd, isLineBreak]
          have hclose := map_prepend_eq_error ((hread cs).symm.trans h)
          apply FaultShows.behind hread
          simpa [byteLength, Nat.add_assoc, show Char.utf8Size '\\' = 1 from rfl] using
            closeCharacter_fault hclose
        · have hread : ∀ cs, character offset ('\\' :: d :: cs) =
              .error ⟨offset + 1, .invalidEscape d⟩ := by
            intro cs
            simp [character, hd, isLineBreak]
          rw [hread] at h
          cases h
          refine ⟨['\\'], d :: cs, rfl, rfl, hescape, ?_, by simp⟩
          intro d' tail hd' tail'
          cases hd'
          exact hread tail'
    -- A plain character is read, and then the quote has to follow.
    · have hread : ∀ cs, character offset ([c] ++ cs) =
          (closeCharacter (offset + c.utf8Size) cs).map (prepend [c]) := by
        intro cs
        simp [character, hquote, hbreak, hslash]
      have hclose := map_prepend_eq_error ((hread cs).symm.trans h)
      apply FaultShows.behind hread
      simpa [byteLength] using closeCharacter_fault hclose

/-- What shows behind the opening quote of a literal shows where the text stops being the beginning
    of a lexeme. -/
private theorem FaultShows.not_viable {read : List Char → Except LexError (List Char × List Char)}
    {offset : Nat} {c : Char} {cs : List Char} {e : LexError} {kind : Token.Kind}
    (hblank : isBlank c = false) (hsize : c.utf8Size = 1)
    (hnext : ∀ cs, next offset c cs = (read cs).map fun p => ⟨kind, p.1, p.2⟩)
    (h : FaultShows read (offset + 1) cs e) :
    ∃ front back, cs = front ++ back ∧ e.offset = offset + byteLength (c :: front) ∧
      Viable (c :: front) ∧ ∀ d tail, back = d :: tail → ¬ Viable (c :: front ++ [d]) := by
  obtain ⟨front, back, rfl, hoffset, ⟨more, l, hmore⟩, hback, -⟩ := h
  refine ⟨front, back, rfl, ?_, ⟨kind, more, ?_⟩, ?_⟩
  · rw [hoffset, byteLength, hsize, Nat.add_assoc]
  · -- Completed, the literal is found as a whole.
    have hfound : next offset c (front ++ more) = .ok ⟨kind, l, []⟩ := by rw [hnext, hmore]; rfl
    have hwhole := next_append hfound
    rw [List.append_nil] at hwhole
    have hlexeme := lexeme_of_next hblank hfound
    rwa [hwhole] at hlexeme
  · intro d tail hd hviable
    obtain ⟨kind', more', hlexeme⟩ := hviable
    -- A lexeme that went on so would be found when it stands alone.
    have heq : c :: front ++ [d] ++ more' = c :: (front ++ d :: more') := by simp
    rw [heq] at hlexeme
    obtain ⟨x, hx, -⟩ := exists_next_of_start hlexeme (List.prefix_refl _) offset
    rw [hnext, hback d tail hd more'] at hx
    exact nomatch hx

/-- Only a quote starts a lexeme that can fail, and the lexeme fails where what is behind the quote
    does. -/
theorem next_literal_fault {offset : Nat} {c : Char} {cs : List Char} {e : LexError}
    (h : next offset c cs = .error e) :
    (c = '"' ∨ c = '\'') ∧ ∃ kind read, FaultShows read (offset + 1) cs e ∧
      ∀ cs, next offset c cs = (read cs).map fun p => ⟨kind, p.1, p.2⟩ := by
  have hmap : ∀ {kind : Token.Kind} {x : Except LexError (List Char × List Char)},
      (x.map fun p => (⟨kind, p.1, p.2⟩ : Lexeme)) = .error e → x = .error e := by
    intro kind x hx
    cases x with
    | error => cases hx; rfl
    | ok => cases hx
  -- Strings and characters are the lexemes that can be faulty.
  by_cases hstring : c = '"'
  · subst hstring
    have hnext : ∀ cs, next offset '"' cs =
        (string (offset + 1) cs).map fun p => ⟨.string, p.1, p.2⟩ := fun _ => rfl
    exact ⟨.inl rfl, .string, _, string_fault (hmap ((hnext cs).symm.trans h)), hnext⟩
  by_cases hcharacter : c = '\''
  · subst hcharacter
    have hnext : ∀ cs, next offset '\'' cs =
        (character (offset + 1) cs).map fun p => ⟨.character, p.1, p.2⟩ := fun _ => rfl
    exact ⟨.inr rfl, .character, _, character_fault (hmap ((hnext cs).symm.trans h)), hnext⟩
  unfold next at h
  simp only [hstring, hcharacter, if_false] at h
  split at h
  · cases h
  · split at h <;> cases h

/-- An error shows where the text stops being the beginning of a lexeme. -/
private theorem next_fault {offset : Nat} {c : Char} {cs : List Char} {e : LexError}
    (hblank : isBlank c = false) (h : next offset c cs = .error e) :
    ∃ front back, cs = front ++ back ∧ e.offset = offset + byteLength (c :: front) ∧
      Viable (c :: front) ∧ ∀ d tail, back = d :: tail → ¬ Viable (c :: front ++ [d]) := by
  obtain ⟨hquote, kind, read, hshows, hnext⟩ := next_literal_fault h
  have hsize : c.utf8Size = 1 := by obtain rfl | rfl := hquote <;> rfl
  exact hshows.not_viable hblank hsize hnext

/-- A scan either cuts the text into tokens, or it comes to a place where no lexeme starts, and
    the error shows where what stands there stops being the beginning of one. -/
theorem scan_outcome (offset : Nat) (done : List Token) (text : List Char) :
    (∃ tokens, Tokenized offset text tokens ∧
      scan offset done text = .ok (done.reverse ++ tokens)) ∨
    ∃ e start front back, Stuck offset text start (front ++ back) ∧
      scan offset done text = .error e ∧ e.offset = start + byteLength front ∧ Viable front ∧
      ∀ d tail, back = d :: tail → ¬ Viable (front ++ [d]) := by
  fun_induction scan offset done text with
  | case1 offset done => exact .inl ⟨[], .done (by simp [Blank]), by simp⟩
  | case2 offset done c cs hblank ih =>
    obtain ⟨tokens, htokens, hscan⟩ | ⟨e, start, front, back, hstuck, hscan⟩ := ih
    · exact .inl ⟨tokens, htokens.blank hblank, hscan⟩
    · exact .inr ⟨e, start, front, back, hstuck.blank hblank, hscan⟩
  | case3 offset done c cs hblank e hnext =>
    have hc : isBlank c = false := by simpa using hblank
    obtain ⟨front, back, rfl, hoffset, hviable, hback⟩ := next_fault hc hnext
    -- The lexeme is faulty, so there is none here.
    have hstuck : Stuck offset ([] ++ c :: (front ++ back)) offset (c :: (front ++ back)) :=
      .here (by simp [Blank]) hc (noLexeme_of_next hnext)
    exact .inr ⟨e, offset, c :: front, back, hstuck, rfl, hoffset, hviable, hback⟩
  | case4 offset done c cs hblank x hnext _ token ih =>
    -- A lexeme was taken, and the rest of the text decides.
    have hlongest := longest_of_next (by simpa using hblank) hnext
    obtain ⟨tokens, htokens, hscan⟩ | ⟨e, start, front, back, hstuck, hscan⟩ := ih
    · have htoken : Tokenized offset ([] ++ c :: cs) (token :: tokens) :=
        .token (by simp [Blank]) hlongest htokens
      exact .inl ⟨token :: tokens, htoken, by simp [hscan]⟩
    · have hbehind : Stuck offset ([] ++ c :: cs) start (front ++ back) :=
        .behind (by simp [Blank]) hlongest hstuck
      exact .inr ⟨e, start, front, back, hbehind, hscan⟩

end Lexer

/-! ## Whole sources -/

theorem byteLength_eq (cs : List Char) : byteLength cs = (String.ofList cs).utf8ByteSize := by
  induction cs with
  | nil => rfl
  | cons c cs ih => simp [byteLength, ih]

/-- Every token stands in the text where its offset says. -/
theorem Tokenized.exists_split {offset : Nat} {text : List Char} {tokens : List Token}
    (h : Tokenized offset text tokens) {t : Token} (ht : t ∈ tokens) :
    ∃ before after, text = before ++ (t.lexeme.toList ++ after) ∧
      t.offset = offset + byteLength before := by
  induction h with
  | done => simp at ht
  | @token offset gap text lexeme rest kind tokens hgap hlongest _ ih =>
    obtain rfl | ht := List.mem_cons.mp ht
    · exact ⟨gap, rest, by simp [hlongest.text_eq], rfl⟩
    · obtain ⟨before, after, hrest, hoffset⟩ := ih ht
      refine ⟨gap ++ lexeme ++ before, after, ?_, ?_⟩
      · simp [hlongest.text_eq, hrest]
      · rw [hoffset, byteLength_append, byteLength_append]
        omega

/-- The bytes of a source from where a token starts to where it stops are those of the token. -/
private theorem Tokenized.extract_eq {source : String} {tokens : List Token}
    (h : Tokenized 0 source.toList tokens) {t : Token} (ht : t ∈ tokens) :
    source.toUTF8.extract t.offset t.stop = t.lexeme.toUTF8 := by
  obtain ⟨before, after, htext, hoffset⟩ := h.exists_split ht
  -- The lexeme stands between what is before and what is after it.
  have hsource : source = String.ofList before ++ (t.lexeme ++ String.ofList after) := by
    rw [← String.ofList_toList (s := source), htext, String.ofList_append, String.ofList_append,
      String.ofList_toList]
  rw [Nat.zero_add, byteLength_eq] at hoffset
  rw [Token.stop, hoffset, hsource]
  simp only [String.toUTF8, String.toByteArray_append, ← String.size_toByteArray]
  have hbehind := ByteArray.extract_append_size_add (a := (String.ofList before).toByteArray)
    (b := t.lexeme.toByteArray ++ (String.ofList after).toByteArray) (i := 0)
    (j := t.lexeme.toByteArray.size)
  rw [Nat.add_zero] at hbehind
  rw [hbehind, ByteArray.extract_append_eq_left rfl]

/-- Scanning is longest match.  A source is scanned as some tokens exactly if it is cut into them:
    each is the longest beginning of what is left that is a lexeme of any kind, blanks are all that
    is passed over, and the bytes from its offset on are those of its lexeme.  Scanning fails
    exactly if this comes to a place where no lexeme starts, and the error shows where what stands
    there stops being the beginning of one. -/
theorem lex_longest_match (source : String) :
    (∀ tokens, lex source = .ok tokens ↔ Tokenized 0 source.toList tokens) ∧
    (∀ tokens, lex source = .ok tokens → ∀ t ∈ tokens,
      source.toUTF8.extract t.offset t.stop = t.lexeme.toUTF8) ∧
    ((∃ e, lex source = .error e) ↔ ∃ start rest, Stuck 0 source.toList start rest) ∧
    ∀ e, lex source = .error e → ∃ start front back,
      Stuck 0 source.toList start (front ++ back) ∧ e.offset = start + byteLength front ∧
      Viable front ∧ ∀ d tail, back = d :: tail → ¬ Viable (front ++ [d]) := by
  have hok : ∀ tokens, lex source = .ok tokens → Tokenized 0 source.toList tokens := by
    intro tokens h
    obtain ⟨tokens', htokens, hscan⟩ | ⟨e, _, _, _, _, hscan, _⟩ :=
      scan_outcome 0 [] source.toList
    · rw [lex, hscan] at h
      cases h
      exact htokens
    · rw [lex, hscan] at h
      cases h
  -- An error is placed where the text stops being viable.
  have herror : ∀ e, lex source = .error e → ∃ start front back,
      Stuck 0 source.toList start (front ++ back) ∧ e.offset = start + byteLength front ∧
      Viable front ∧ ∀ d tail, back = d :: tail → ¬ Viable (front ++ [d]) := by
    intro e h
    obtain ⟨tokens, _, hscan⟩ | ⟨e', start, front, back, hstuck, hscan, hshows⟩ :=
      scan_outcome 0 [] source.toList
    · rw [lex, hscan] at h
      cases h
    · rw [lex, hscan] at h
      cases h
      exact ⟨start, front, back, hstuck, hshows⟩
  refine ⟨fun tokens => ⟨hok tokens, fun h => scan_of_tokenized h []⟩, ?_, ⟨?_, ?_⟩, herror⟩
  · intro tokens h t ht
    exact (hok tokens h).extract_eq ht
  · intro h
    obtain ⟨e, he⟩ := h
    obtain ⟨start, front, back, hstuck, -⟩ := herror e he
    exact ⟨start, _, hstuck⟩
  · intro h
    obtain ⟨start, rest, hstuck⟩ := h
    exact scan_of_stuck hstuck []

/-- The point behind `1.5` is an operator, for no digit follows it; `<=` is one operator, and the
    sign belongs to the number behind it. -/
theorem signs_are_cut :
    Tokenized 0 "1.5.x <=-2".toList
      [⟨.decimal, "1.5", 0⟩, ⟨.operator, ".", 3⟩, ⟨.identifier, "x", 4⟩, ⟨.operator, "<=", 6⟩,
        ⟨.integer, "-2", 8⟩] ∧
    ∃ start rest, Stuck 0 "é 'ab".toList start rest :=
  ⟨((lex_longest_match "1.5.x <=-2").1 _).mp (by decide +kernel),
    (lex_longest_match "é 'ab").2.2.1.mp ⟨⟨5, .unterminatedCharacter⟩, by decide +kernel⟩⟩

end LetLang

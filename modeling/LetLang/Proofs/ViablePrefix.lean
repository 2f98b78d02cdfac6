import LetLang.Proofs.Separation

/-! # Errors show behind the longest viable prefix

A scan fails at a literal: everything in front of its opening quote has been cut into tokens, and no
lexeme that ends there looks beyond the quote.  So the fault of the literal is the fault of the
text.  What stands in front of it can still be completed to a text that is scanned to its end, and
what goes on with the character at which it shows cannot be mended any more.

## Key results

- `Lexer.scan_error_split`: a scan that fails has come to an opening quote
- `Lexer.scan_from_quote`: what is in front of the quote does not depend on what is behind it
- `lex_error_behind_viable_text`: an error shows at the end of the longest prefix of the source
  that can be completed
-/

namespace LetLang

namespace Lexer

/-- A quote ends what stands before it. -/
private theorem isStop_quote {q : Char} (hq : q = '"' ∨ q = '\'') : isStop q = true := by
  obtain rfl | rfl := hq <;> rfl

/-- A quote is no blank. -/
private theorem not_isBlank_quote {q : Char} (hq : q = '"' ∨ q = '\'') : isBlank q = false := by
  obtain rfl | rfl := hq <;> rfl

/-- A scan that fails has cut the text in front of a quote into tokens, and it fails at the literal
    that starts there.  That text alone is scanned to its end. -/
theorem scan_error_split {offset : Nat} {done : List Token} {text : List Char} {e : LexError}
    (h : scan offset done text = .error e) :
    ∃ front q cs tokens, text = front ++ q :: cs ∧ (q = '"' ∨ q = '\'') ∧
      scan offset done front = .ok tokens ∧ next (offset + byteLength front) q cs = .error e := by
  fun_induction scan offset done text with
  | case1 => cases h
  | case2 offset done c cs hblank ih =>
    obtain ⟨front, q, cs', tokens, rfl, hq, hfront, hnext⟩ := ih h
    refine ⟨c :: front, q, cs', tokens, rfl, hq, ?_, ?_⟩
    · rw [scan, if_pos hblank, hfront]
    · rwa [byteLength, ← Nat.add_assoc]
  | case3 offset done c cs hblank e' hnext =>
    cases h
    exact ⟨[], c, cs, done.reverse, rfl, (next_literal_fault hnext).1, by rw [scan], hnext⟩
  | case4 offset done c cs hblank x hnext _ token ih =>
    obtain ⟨front, q, cs', tokens, hrest, hq, hfront, hfails⟩ := ih h
    have htext : cs = x.tail ++ (front ++ q :: cs') := by rw [← hrest, next_append hnext]
    -- The lexeme ends in front of the quote, so it does not depend on what is behind.
    have halone : next offset c (x.tail ++ front) = .ok ⟨x.kind, x.tail, front⟩ := by
      apply next_of_before (stops_cons (isStop_quote hq) cs')
      rw [← htext, hnext, ← hrest]
    refine ⟨c :: x.tail ++ front, q, cs', tokens, ?_, hq, ?_, ?_⟩
    · rw [htext, List.cons_append, List.cons_append, List.append_assoc]
    · rw [List.cons_append, scan_next (by simpa using hblank) halone]
      exact hfront
    · rwa [byteLength_append, ← Nat.add_assoc]

/-- A text that is scanned to its end is scanned so in front of a quote. -/
theorem scan_from_quote {offset : Nat} {done tokens : List Token} {front : List Char} {q : Char}
    (hq : q = '"' ∨ q = '\'') (hfront : scan offset done front = .ok tokens) (cs : List Char) :
    scan offset done (front ++ q :: cs) =
      scan (offset + byteLength front) tokens.reverse (q :: cs) :=
  scan_before (stops_cons (isStop_quote hq) cs) hfront

/-- A fault of a text shows behind a part of it that can still be completed, and whatever goes on
    with the character behind that part has the same fault. -/
private theorem scan_fault {offset : Nat} {done : List Token} {text : List Char} {e : LexError}
    (h : scan offset done text = .error e) :
    ∃ front back, text = front ++ back ∧ e.offset = offset + byteLength front ∧
      (∃ more tokens, scan offset done (front ++ more) = .ok tokens) ∧
      (∀ d tail, back = d :: tail → ∀ tail', scan offset done (front ++ d :: tail') = .error e) ∧
      (back = [] → e.fault = .unterminatedString ∨ e.fault = .unterminatedCharacter) := by
  obtain ⟨before, q, cs, tokens, rfl, hq, hbefore, hfails⟩ := scan_error_split h
  obtain ⟨-, kind, read, ⟨front, back, rfl, hoffset, ⟨more, l, hmore⟩, hback, hend⟩, hnext⟩ :=
    next_literal_fault hfails
  have hblank := not_isBlank_quote hq
  -- The text is viable up to the fault, and the fault is the same whatever follows.
  refine ⟨before ++ q :: front, back, by simp, ?_, ⟨more, ?_⟩, ?_, hend⟩
  · have hsize : q.utf8Size = 1 := by obtain rfl | rfl := hq <;> rfl
    rw [hoffset, byteLength_append, byteLength, hsize]
    omega
  · -- The completed literal is the last token.
    have hfound : next (offset + byteLength before) q (front ++ more) = .ok ⟨kind, l, []⟩ := by
      rw [hnext, hmore]
      rfl
    rw [List.append_assoc, List.cons_append, scan_from_quote hq hbefore, scan_next hblank hfound,
      scan]
    exact ⟨_, rfl⟩
  · intro d tail hd tail'
    have hagain : next (offset + byteLength before) q (front ++ d :: tail') = .error e := by
      rw [hnext, hback d tail hd tail']
      rfl
    rw [List.append_assoc, List.cons_append, scan_from_quote hq hbefore, scan_error hblank hagain]

end Lexer

/-! ## Whole sources -/

/-- Where a text is cut is known from the bytes in front. -/
private theorem eq_of_append_eq {front back front' back' : String}
    (h : front ++ back = front' ++ back')
    (hsize : front.utf8ByteSize = front'.utf8ByteSize) : front = front' ∧ back = back' := by
  have hbytes := congrArg String.toByteArray h
  rw [String.toByteArray_append, String.toByteArray_append] at hbytes
  have hfront : front = front' := by
    apply String.toByteArray_inj.mp
    exact ByteArray.append_inj_left hbytes hsize
  subst hfront
  exact ⟨rfl, (String.append_right_inj front).mp h⟩

/-- An error shows at the end of the longest viable prefix.  Its offset is a boundary between two
    characters of the source, or its end.  What stands in front of it can be completed to a text
    that is scanned to its end; with the character behind it, every text has the same error at the
    same place; and at the end of the source the error is a literal that is not closed. -/
theorem lex_error_behind_viable_text {source : String} {e : LexError}
    (h : lex source = .error e) :
    String.Pos.Raw.IsValid source ⟨e.offset⟩ ∧
    ∀ front back : String, source = front ++ back → front.utf8ByteSize = e.offset →
      (∃ more tokens, lex (front ++ more) = .ok tokens) ∧
      (∀ c rest, back = String.singleton c ++ rest →
        ∀ more, lex (front ++ String.singleton c ++ more) = .error e) ∧
      (back = "" → e.fault = .unterminatedString ∨ e.fault = .unterminatedCharacter) := by
  obtain ⟨front, back, htext, hoffset, ⟨more, tokens, hmore⟩, hback, hend⟩ := Lexer.scan_fault h
  have hsource : source = String.ofList front ++ String.ofList back := by
    rw [← String.ofList_append, ← htext, String.ofList_toList]
  have hsize : (String.ofList front).utf8ByteSize = e.offset := by
    rw [hoffset, Nat.zero_add, byteLength_eq]
  constructor
  · apply String.Pos.Raw.isValid_iff_exists_append.mpr
    exact ⟨_, _, hsource, by rw [← hsize]; rfl⟩
  intro front' back' hsource' hsize'
  -- There is only one way to cut the source at that byte.
  obtain ⟨rfl, rfl⟩ := eq_of_append_eq (hsource'.symm.trans hsource) (hsize'.trans hsize.symm)
  refine ⟨⟨String.ofList more, tokens, ?_⟩, ?_, ?_⟩
  · rw [lex, String.toList_append, String.toList_ofList, String.toList_ofList, hmore]
  · intro c rest hc more
    have hcons : back = c :: rest.toList := by
      simpa using congrArg String.toList hc
    rw [lex, String.toList_append, String.toList_append, String.toList_ofList,
      String.toList_singleton, List.append_assoc, List.singleton_append]
    exact hback c rest.toList hcons more.toList
  · intro hnil
    apply hend
    simpa using congrArg String.toList hnil

/-- The literal `'ab` fails at the letter `b`, which stands behind four characters of five bytes,
    and a string that ends in a backslash fails at the end of the source. -/
theorem open_literals_fail :
    (∃ more tokens, lex ("é 'a" ++ more) = .ok tokens) ∧
    (∀ more, lex ("é 'a" ++ String.singleton 'b' ++ more) = .error ⟨5, .unterminatedCharacter⟩) ∧
    ∃ e, lex "x \"\\" = .error e ∧
      (e.fault = .unterminatedString ∨ e.fault = .unterminatedCharacter) := by
  have hletter : lex "é 'ab" = .error ⟨5, .unterminatedCharacter⟩ := by decide +kernel
  have hslash : lex "x \"\\" = .error ⟨4, .unterminatedString⟩ := by decide +kernel
  obtain ⟨hviable, hstays, -⟩ :=
    (lex_error_behind_viable_text hletter).2 "é 'a" "b" (by decide +kernel) (by decide +kernel)
  obtain ⟨-, -, hend⟩ :=
    (lex_error_behind_viable_text hslash).2 "x \"\\" "" (by decide +kernel) (by decide +kernel)
  exact ⟨hviable, hstays 'b' "" (by decide +kernel), _, hslash, hend rfl⟩

end LetLang

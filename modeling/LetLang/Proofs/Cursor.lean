import LetLang.Parser.Grammar
import LetLang.Proofs.Outcome
import LetLang.Proofs.Yield

/-! # Steps of the parser

How the steps of the parser end that read a token, count or nest, one rule per step, and which
terminals stand behind the words and signs that it looks for.

* `Token.WellFormed.matches_fixed`   a token that is accepted for a word or a sign is one for it
* `Terminal.Matches.spells_eq`       and what a token is accepted for depends on the terminal only
-/

namespace LetLang

/-! ## Words and signs -/

/-- The keyword or the sign that is written so. -/
def Terminal.fixed (lexeme : String) : Terminal :=
  if lexeme.toList.head?.any isIdentifierStart then .keyword lexeme else .sign lexeme

/-- Operators are fixed lexemes. -/
theorem Operator.terminal_eq (o : Operator) : o.terminal = .fixed o.symbol := by
  cases o <;> rfl

/-- A token that is accepted for a word or a sign is a token for it. -/
theorem Token.WellFormed.matches_fixed {t : Token} (ht : t.WellFormed) {lexeme : String}
    (h : t.spells lexeme = true) : (Terminal.fixed lexeme).Matches t := by
  obtain ⟨kind, text, offset⟩ := t
  simp only [Token.spells, Bool.and_eq_true, Bool.or_eq_true, beq_iff_eq] at h
  obtain ⟨rfl | rfl, rfl⟩ := h
  · -- An identifier starts like a word.
    obtain ⟨c, cs, hcs, hc⟩ : ∃ c cs, text.toList = c :: cs ∧ isIdentifierStart c = true := by
      unfold WellFormed at ht
      dsimp only at ht
      generalize text.toList = cs at ht ⊢
      cases ht with
      | identifier hstart _ => exact ⟨_, _, rfl, hstart⟩
    simp [Terminal.fixed, hcs, hc, Terminal.Matches]
  · -- An operator does not.
    obtain ⟨c, cs, hcs, hc⟩ : ∃ c cs, text.toList = c :: cs ∧ isIdentifierStart c = false := by
      unfold WellFormed at ht
      dsimp only at ht
      generalize text.toList = cs at ht ⊢
      cases ht with
      | operator hc => exact ⟨_, _, rfl, isOperatorChar_start hc⟩
      | comparison hc => exact ⟨_, _, rfl, takesEquals_start hc⟩
    simp [Terminal.fixed, hcs, hc, Terminal.Matches]

/-- Whether the terminal is written like the word or sign. -/
def Terminal.spells : Terminal → String → Bool
  | keyword w, lexeme => w == lexeme
  | name n, lexeme => n == lexeme
  | sign s, lexeme => s == lexeme
  | literal .nil, lexeme => "NIL" == lexeme
  | literal (.boolean true), lexeme => "TRUE" == lexeme
  | literal (.boolean false), lexeme => "FALSE" == lexeme
  | literal _, _ => false

/-- For which words and signs a token is accepted depends on the terminal only. -/
theorem Terminal.Matches.spells_eq {y : Terminal} {t : Token} (h : y.Matches t)
    (lexeme : String) : t.spells lexeme = y.spells lexeme := by
  obtain ⟨kind, text, offset⟩ := t
  cases y with
  | keyword w => obtain ⟨rfl, rfl⟩ := h; rfl
  | name n => obtain ⟨rfl, rfl⟩ := h; rfl
  | sign s => obtain ⟨rfl, rfl⟩ := h; rfl
  | literal v =>
    simp only [Terminal.Matches] at h
    obtain ⟨cs, rfl⟩ : ∃ cs, text = String.ofList cs := ⟨text.toList, String.ofList_toList.symm⟩
    rw [String.toList_ofList] at h
    cases h <;> rfl

/-! ## Places -/

namespace Cursor

@[simp] theorem advance_depth (c : Cursor) : c.advance.depth = c.depth := by
  unfold advance
  split <;> rfl

/-- Advancing takes the next token away. -/
theorem advance_rest {c : Cursor} {t : Token} {rest : List Token} (h : c.rest = t :: rest) :
    c.advance.rest = rest := by
  unfold advance
  split
  · rename_i h'
    rw [h'] at h
    exact (List.cons.inj h).2
  · rename_i h'
    rw [h'] at h
    exact nomatch h

/-- Something is seen only if there is a token. -/
theorem exists_of_sees {c : Cursor} {lexeme : String} (h : c.sees lexeme = true) :
    ∃ t rest, c.rest = t :: rest ∧ t.spells lexeme = true := by
  unfold sees at h
  split at h
  · rename_i t rest hrest
    exact ⟨t, rest, hrest, h⟩
  · exact nomatch h

end Cursor

/-! ## Rules -/

namespace Parse

section Rules

variable {α : Type} {c : Cursor} {E : ParseError → Cursor → Prop}

theorem ends_peek {Q : Option Token → Cursor → Prop} : Ends peek c Q E ↔ Q c.rest.head? c :=
  Iff.rfl

theorem ends_advance {Q : Unit → Cursor → Prop} : Ends advance c Q E ↔ Q () c.advance := Iff.rfl

theorem ends_fresh {Q : NodeId → Cursor → Prop} :
    Ends fresh c Q E ↔ Q c.nextId { c with nextId := c.nextId + 1 } := Iff.rfl

/-- A lexeme is taken where it stands next, and nothing happens where it does not. -/
theorem ends_accept {Q : Bool → Cursor → Prop} {lexeme : String} :
    Ends (accept lexeme) c Q E ↔
      if c.sees lexeme = true then Q true c.advance else Q false c := by
  unfold Ends accept
  cases c.sees lexeme <;> rfl

/-- Going one level deeper fails at the bound. -/
theorem ends_enter {Q : Unit → Cursor → Prop} :
    Ends enter c Q E ↔
      if maxNesting ≤ c.depth then E ⟨c.offset, .tooDeep⟩ c
      else Q () { c with depth := c.depth + 1 } := by
  unfold Ends enter
  by_cases h : maxNesting ≤ c.depth <;> simp only [h, if_true, if_false]

/-- The depth is put back after a value only; an error keeps it. -/
theorem ends_restoringDepth {Q : α → Cursor → Prop} {p : Parse α} :
    Ends (restoringDepth p) c Q E ↔ Ends p c (fun a c' => Q a { c' with depth := c.depth }) E := by
  unfold Ends restoringDepth
  cases p c <;> rfl

end Rules

end Parse

end LetLang

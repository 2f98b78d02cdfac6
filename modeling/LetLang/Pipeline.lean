import LetLang.Token.Lexer
import LetLang.Parser.Grammar
import LetLang.Analysis.Checker
import LetLang.Machine.Run

/-! # From text to result

The stages in a row: tokens, tree, analysis, run.  Each stage stops at its first error,
so a text has at most one. -/

namespace LetLang

/-- An error of any stage. -/
inductive Error where
  /-- A failure outside the language, such as a file that cannot be read. -/
  | internal (reason : String)
  | lex (e : LexError)
  | parse (e : ParseError)
  | semantic (e : SemanticError)
  | runtime (e : RuntimeError)
deriving DecidableEq, Repr

/-- The wording of an error, with its stage. -/
def Error.message : Error → String
  | internal reason => "InternalError: " ++ reason
  | lex e => "Lex error at " ++ e.message
  | parse e => "Parse error at " ++ e.message
  | semantic e => "Semantic error: " ++ e.message
  | runtime e => "Runtime error: " ++ e.message

/-- A program with what its analysis found out. -/
structure Analyzed where
  source : Source
  analysis : Analysis

/-- The program that a text spells. -/
def load (text : String) : Except Error Source := do
  let tokens ← (lex text).mapError .lex
  (parse tokens).mapError .parse

/-- Analyze a program. -/
def Source.analyzed (source : Source) (r : Registry) : Except Error Analyzed := do
  let analysis ← (analyze r source).mapError .semantic
  return ⟨source, analysis⟩

/-- Read and analyze a text, without running it. -/
def check (r : Registry) (text : String) : Except Error Analyzed := do
  let source ← load text
  source.analyzed r

/-! ## Sessions -/

/-- A machine that runs one program after another.  Globals and methods stay, also those
    of a program that failed half-way. -/
structure Session where
  registry : Registry
  machine : Machine

namespace Session

/-- A session with the natives of a registry. -/
def start (r : Registry) (world : World) : Except RuntimeError Session := do
  let machine ← Machine.new r world
  return ⟨r, machine⟩

/-- Run a program in which every `WHILE` may go through `rounds` rounds; `none` if one
    needs more. -/
def execute (s : Session) (rounds : Nat) (source : Source) :
    Option (Except RuntimeError Int × Session) :=
  match Exec.execute ⟨s.registry.objects, rounds⟩ source s.machine with
  | .ok n machine => some (.ok n, { s with machine := machine })
  | .error (.error e) machine => some (.error e, { s with machine := machine })
  | .error .exhausted _ => none

/-- The output of the session. -/
def output (s : Session) : Output := s.machine.world.output

/-- The session with its output taken away. -/
def drained (s : Session) : Session :=
  { s with machine.world.output := s.machine.world.output.drained }

end Session

/-! ## Whole runs -/

/-- Check a text and run it on a fresh machine: the result of `main` or an error, and the
    output that was written.  `none` if a `WHILE` needs more than `rounds` rounds. -/
def run (r : Registry) (rounds : Nat) (world : World) (text : String) :
    Option (Except Error Int × Output) :=
  match check r text with
  | .error e => some (.error e, world.output)
  | .ok program =>
    match Session.start r world with
    | .error e => some (.error (.runtime e), world.output)
    | .ok session =>
      match session.execute rounds program.source with
      | none => none
      | some (.error e, after) => some (.error (.runtime e), after.output)
      | some (.ok n, after) =>
        if after.output.flushable then some (.ok n, after.output)
        else some (.error (.internal "Failed flush program output"), after.output)

/-! ## Laws -/

/-- A loaded text is parsed. -/
private theorem of_load_eq_ok {text : String} {source : Source} (h : load text = .ok source) :
    ∃ tokens, parse tokens = .ok source := by
  unfold load at h
  cases htokens : lex text with
  | error e => rw [htokens] at h; cases h
  | ok tokens =>
    have hparsed : (parse tokens).mapError Error.parse = .ok source := by rw [htokens] at h; exact h
    cases hparse : parse tokens with
    | error e => rw [hparse] at hparsed; cases hparsed
    | ok source' => rw [hparse] at hparsed; cases hparsed; exact ⟨tokens, hparse⟩

/-- An analyzed program passes the analysis and stays as it is. -/
private theorem of_analyzed_eq_ok {r : Registry} {source : Source} {p : Analyzed}
    (h : source.analyzed r = .ok p) : p.source = source ∧ analyze r source = .ok p.analysis := by
  unfold Source.analyzed at h
  cases ha : analyze r source with
  | error e => rw [ha] at h; cases h
  | ok analysis => rw [ha] at h; cases h; exact ⟨rfl, rfl⟩

/-- A checked text is parsed and analyzed. -/
theorem of_check_eq_ok {r : Registry} {text : String} {p : Analyzed} (h : check r text = .ok p) :
    ∃ tokens, parse tokens = .ok p.source ∧ analyze r p.source = .ok p.analysis := by
  unfold check at h
  cases hload : load text with
  | error e => rw [hload] at h; cases h
  | ok source =>
    have hanalyzed : source.analyzed r = .ok p := by rw [hload] at h; exact h
    obtain ⟨tokens, hparse⟩ := of_load_eq_ok hload
    obtain ⟨rfl, ha⟩ := of_analyzed_eq_ok hanalyzed
    exact ⟨tokens, hparse, ha⟩

/-- A text that passes the check, with a property of its program that can be computed. -/
theorem exists_of_check {r : Registry} {text : String} {P : Analyzed → Bool}
    (h : (check r text).toOption.any P) : ∃ p, check r text = .ok p ∧ P p := by
  cases hc : check r text with
  | error e => rw [hc] at h; cases h
  | ok p => rw [hc] at h; exact ⟨p, rfl, h⟩

/-- A text that passes the check and a fresh machine for it, with a property of both that can be
    computed. -/
theorem exists_of_check_start {r : Registry} {text : String} {world : World}
    {P : Analyzed → Session → Bool}
    (h : (check r text).toOption.any fun p => (Session.start r world).toOption.any (P p)) :
    ∃ p s, check r text = .ok p ∧ Session.start r world = .ok s ∧ P p s := by
  obtain ⟨p, hp, hruns⟩ := exists_of_check h
  cases hs : Session.start r world with
  | error e => rw [hs] at hruns; cases hruns
  | ok s => rw [hs] at hruns; exact ⟨p, s, hp, rfl, hruns⟩

end LetLang

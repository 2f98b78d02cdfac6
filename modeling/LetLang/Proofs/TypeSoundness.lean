import LetLang.Proofs.Derivation
import LetLang.Proofs.TypedRuns
import LetLang.Proofs.Values

/-! # Checked programs and what can go wrong with them

A program that passes the check, with `print` and `range` as its natives, keeps to its types as
far as `NIL` lets it.  `NIL` comes in at two places that the check leaves open: a variable that
is declared with a type and without an initial value, and a method that comes to its end
without a `RETURN`.  With both of them closed, the program cannot get stuck at all.

* `check_sound_up_to_nil`   every value is `NIL` or has its recorded type, and every error is an
  ordinary one or has `NIL` to blame
* `check_stuck_free`        no error but the ordinary ones without the two sources of `NIL`, and
  neither of the two can be left open

Both are one soundness argument, for a meaning of types that lets `NIL` pass or does not. -/

namespace LetLang

open Exec

/-! ## Errors -/

namespace RuntimeError

/-- Whether types have nothing to do with the error. -/
def isOrdinary : RuntimeError → Bool
  | divisionByZero | callDepthExceeded _ | output _ => true
  | _ => false

/-- Whether the error names `NIL` as the value that did not fit. -/
def blamesNil : RuntimeError → Bool
  | invalidOperation _ left right => left == "Nil" || right == "Nil"
  | expectedBoolean received | notIterable received | nonIntegerResult received =>
    received == "Nil"
  | invalidArguments function received => function == "range" && received.contains "Nil"
  | _ => false

end RuntimeError

/-! ## The meaning of types without objects -/

/-- A value fits its type, objects do not matter, and only ordinary errors are allowed, or also
    those that blame a `NIL` that was let pass. -/
def Meaning.kinds (lenient : Prop) : Meaning where
  has := fun _ v ty => v.Fits lenient ty
  valid := fun _ => True
  later := fun _ _ => True
  allowed := fun e => e.isOrdinary ∨ (lenient ∧ e.blamesNil)

section Laws

variable {lenient : Prop}

/-- `print` gives `NIL` or fails to write. -/
private theorem Native.print_gives (values : List Value) (w : World) :
    (Meaning.kinds lenient).Gives (print.call values) w .nil := by
  refine (ends_print values w).imp ?_ ?_
  · intro _ w' _ hsame
    subst hsame
    exact ⟨.own (v := .nil) rfl, trivial, trivial⟩
  · intro _ w' _ hend
    obtain ⟨reason, rfl⟩ := hend
    exact .inl rfl

/-- The range of two integers is a range; otherwise one of them is a `NIL` that was let pass. -/
private theorem Native.range_gives {values : List Value} {w : World}
    (h : List.Forall₂ (Value.Fits lenient) values [.integer, .integer]) :
    (Meaning.kinds lenient).Gives (range.call values) w .integerIterable := by
  obtain _ | @⟨a, _, _, _, ha, _ | @⟨b, _, _, _, hb, _ | _⟩⟩ := h
  obtain ⟨hl, rfl⟩ | ⟨start, rfl⟩ := ha.integer
  · exact .inr ⟨hl, rfl⟩
  · obtain ⟨hl, rfl⟩ | ⟨stop, rfl⟩ := hb.integer
    · exact .inr ⟨hl, by simp [invalidArguments, RuntimeError.blamesNil, Value.typeName]⟩
    · exact ⟨.own (v := .range start stop) rfl, trivial, trivial⟩

/-- Without object types no type has a field. -/
private theorem Ty.field?_nil (ty : Ty) (name : String) : ty.field? [] name = none := by
  cases ty with
  | object ref => cases hp : ref.position <;> simp [Ty.field?, ObjectRef.declaration?, hp]
  | _ => rfl

/-- Without object types no type has a method. -/
private theorem Ty.method?_nil (ty : Ty) (name : String) (arity : Nat) :
    ty.method? [] name arity = none := by
  cases ty with
  | object ref => cases hp : ref.position <;> simp [Ty.method?, ObjectRef.declaration?, hp]
  | _ => rfl

/-- The rules that go by the side table of a program. -/
def Analyzed.rules (p : Analyzed) (r : Registry) (bare : Ty → Prop) : Rules where
  registry := r
  type := fun id ty => p.analysis.type? id = some ty
  binding := fun id binding => p.analysis.binding? id = some binding
  function := fun id binding => p.analysis.function? id = some binding
  bare := bare

/-- `print`, `range` and the operators respect the kinds of values. -/
private theorem Meaning.lawful_kinds {p : Analyzed} {bare : Ty → Prop} :
    (kinds lenient).Lawful (p.rules .withRange bare) where
  later_refl := fun _ => trivial
  later_trans := fun _ _ => trivial
  has_later := fun _ h => h
  accepts := fun ha h => Value.Fits.of_accepts h ha
  literal := fun h => by
    obtain ⟨hobject, rfl⟩ := Literal.kind_toValue h
    exact .own hobject
  integer := fun {_ n} => Value.Fits.own (v := .integer n) rfl
  boolean := fun {_ b} => Value.Fits.own (v := .boolean b) rfl
  -- A check of a kind fails on `NIL` only: every other value of the type has the kind.
  toBool := fun {w v e} hv he => by
    obtain rfl := Value.toBool_eq_error he
    obtain ⟨hl, rfl⟩ | ⟨b, rfl⟩ := hv.boolean
    · exact .inr ⟨hl, rfl⟩
    · exact nomatch he
  elements := fun {w v} hv he => by
    obtain ⟨hl, rfl⟩ | ⟨start, stop, rfl⟩ := hv.range
    · exact .inr ⟨hl, rfl⟩
    · exact nomatch he
  binary := fun {w a b left right operator ty} ha hb htype hlevel => by
    have hcombines := Value.binary_kinds ha hb htype hlevel
    cases h : Value.binary operator a b with
    | ok v => rwa [h] at hcombines
    | error e =>
      rw [h] at hcombines
      obtain rfl | ⟨hl, rfl, rfl | rfl⟩ := hcombines
      · exact .inl rfl
      · exact .inr ⟨hl, rfl⟩
      · exact .inr ⟨hl, by simp [Value.invalid, RuntimeError.blamesNil, Value.typeName]⟩
  -- The registry has the two natives of every program and no object types.
  native := fun {w native values} hmem _ hvalues => by
    obtain rfl | rfl := Registry.mem_withRange hmem
    · exact Native.print_gives values w
    · exact Native.range_gives hvalues
  -- Without object types no expression has members.
  readField := fun {w v id ty name fieldType} _ _ hf _ => by
    rw [show (p.rules .withRange bare).registry.objects = [] from rfl, Ty.field?_nil] at hf
    exact nomatch hf
  writeField := fun {w v id ty name fieldType u} _ _ hf _ _ => by
    rw [show (p.rules .withRange bare).registry.objects = [] from rfl, Ty.field?_nil] at hf
    exact nomatch hf
  method := fun {w v id ty name arity native} _ _ hm => by
    rw [show (p.rules .withRange bare).registry.objects = [] from rfl, Ty.method?_nil] at hm
    exact nomatch hm
  depth := .inl rfl
  result := fun {w v} hv hne => by
    obtain ⟨hl, rfl⟩ | ⟨n, rfl⟩ := hv.integer
    · exact .inr ⟨hl, rfl⟩
    · exact absurd rfl (hne n)

end Laws

/-! ## Recorded types -/

/-- A checked program is well typed, with the types in its side table. -/
private theorem check_typed {r : Registry} {text : String} {p : Analyzed} (h : check r text = .ok p)
    {bare : Ty → Prop} (hd : ∀ d ∈ p.source.declarations, (p.rules r bare).Starts d) :
    SourceTyped (p.rules r bare) p.source := by
  obtain ⟨tokens, hparse, hanalyze⟩ := of_check_eq_ok h
  -- The parser numbers all nodes differently, so no entry is written over.
  have hsettled : (p.rules r bare).Settled p.source.ids p.analysis :=
    .inr ⟨nodup_ids_parse hparse, fun _ _ => ⟨fun _ h => h, fun _ h => h, fun _ h => h⟩⟩
  exact analyze_typed hanalyze hsettled hd

/-- Somewhere in a run of the program, the expression gives the value. -/
def Session.Evaluates (s : Session) (rounds : Nat) (source : Source) (e : Expr) (v : Value) :
    Prop :=
  ∃ n m m', Reached ⟨s.registry.objects, rounds⟩ source s.machine ⟨n, .evaluate e, m⟩ ∧
    evaluate ⟨s.registry.objects, rounds⟩ (invokeWithin ⟨s.registry.objects, rounds⟩ n) e m =
      .ok v m'

/-! ## Getting stuck -/

/-- Whether `NIL` has the type, which is then `Nil` or `Any`. -/
def Ty.admitsNil (ty : Ty) : Bool := ty.same .nil || ty.same .any

/-- `NIL` has the types that admit it. -/
private theorem Value.nil_hasType_iff {ty : Ty} : Value.nil.HasType ty ↔ ty.admitsNil := by
  simp [HasType, Ty.admitsNil, kind, Ty.isComparable, or_comm]

/-- Every declaration, global or local, that is annotated with a type other than `Nil` and `Any`
    has an initial value. -/
def Source.Initialized (s : Source) (r : Registry) : Prop :=
  ∀ d ∈ s.declarations, ∀ ty ∈ d.typeName.bind r.resolve?, ty.admitsNil = false →
    d.initializer.isSome

instance (s : Source) (r : Registry) : Decidable (s.Initialized r) :=
  inferInstanceAs (Decidable (∀ d ∈ s.declarations, _))

instance (m : Method) : Decidable m.EndsInReturn :=
  match h : m.body.getLast? with
  | some (.returns value) => isTrue ⟨value, h⟩
  | some (.expression _) | some (.declare _) | some (.assign ..) | some (.ifElse ..)
  | some (.forIn ..) | some (.whileDo ..) | none => isFalse fun ⟨_, hr⟩ => by rw [h] at hr; cases hr

/-- Every method whose recorded type to return is neither `Nil` nor `Any` has a `RETURN` as the
    last statement of its body. -/
def Analyzed.Returns (p : Analyzed) : Prop :=
  ∀ m ∈ p.source.methods, ∀ binding ∈ p.analysis.function? m.id,
    binding.signature.returns.admitsNil = false → m.EndsInReturn

instance (p : Analyzed) : Decidable p.Returns :=
  inferInstanceAs (Decidable (∀ m ∈ p.source.methods, _))

/-- Some run of the program on a fresh machine fails, and not by an ordinary error. -/
def Analyzed.GetsStuck (p : Analyzed) : Prop :=
  ∃ world s rounds e after, Session.start .withRange world = .ok s ∧
    s.execute rounds p.source = some (.error e, after) ∧ e.isOrdinary = false

/-- Whether the program gets stuck on an empty heap with an unlimited output, and without a
    round of a `WHILE`. -/
def Analyzed.getsStuckAtOnce (p : Analyzed) : Bool :=
  match Session.start .withRange default with
  | .error _ => false
  | .ok s =>
    match s.execute 0 p.source with
    | some (.error e, _) => !e.isOrdinary
    | _ => false

/-- Getting stuck can be decided by a run with a bound on the rounds. -/
private theorem Analyzed.getsStuck_of_atOnce {p : Analyzed} (h : p.getsStuckAtOnce) :
    p.GetsStuck := by
  unfold getsStuckAtOnce at h
  cases hs : Session.start .withRange default with
  | error e => rw [hs] at h; exact nomatch h
  | ok s =>
    rw [hs] at h
    simp only at h
    split at h
    · rename_i e after hrun
      exact ⟨default, s, 0, e, after, hs, hrun, by simpa using h⟩
    · exact nomatch h

/-- A program that adds to a variable without an initial value. -/
def uninitialized : String := "LET x: Integer; DEF main() DO RETURN x + 1; END"

/-- A program whose `main` comes to its end without a `RETURN`. -/
def unreturned : String := "DEF main(): Integer DO END"

private theorem uninitialized_getsStuck :
    ∃ p, check .withRange uninitialized = .ok p ∧ p.Returns ∧ p.GetsStuck := by
  have hcompute : (check .withRange uninitialized).toOption.any
      (fun p => decide p.Returns && p.getsStuckAtOnce) := by decide +kernel
  obtain ⟨p, hp, hstuck⟩ := exists_of_check hcompute
  rw [Bool.and_eq_true, decide_eq_true_eq] at hstuck
  exact ⟨p, hp, hstuck.1, p.getsStuck_of_atOnce hstuck.2⟩

private theorem unreturned_getsStuck :
    ∃ p, check .withRange unreturned = .ok p ∧ p.source.Initialized .withRange ∧ p.GetsStuck := by
  have hcompute : (check .withRange unreturned).toOption.any
      (fun p => decide (p.source.Initialized .withRange) && p.getsStuckAtOnce) := by decide +kernel
  obtain ⟨p, hp, hstuck⟩ := exists_of_check hcompute
  rw [Bool.and_eq_true, decide_eq_true_eq] at hstuck
  exact ⟨p, hp, hstuck.1, p.getsStuck_of_atOnce hstuck.2⟩

/-! ## Soundness up to `NIL` -/

/-- A program that passes the check, whatever it leaves without an initial value or a `RETURN`,
    runs on a fresh machine.  Whatever an expression gives is `NIL` or has the type that is
    recorded for the expression, and if the run fails, it is by an ordinary error or by one that
    blames `NIL`. -/
theorem check_sound_up_to_nil {text : String} {p : Analyzed} (h : check .withRange text = .ok p)
    (world : World) :
    ∃ s, Session.start .withRange world = .ok s ∧ ∀ rounds,
      (∀ e v, s.Evaluates rounds p.source e v →
        ∃ ty, p.analysis.type? e.id = some ty ∧ (v = .nil ∨ v.HasType ty)) ∧
      ∀ e after, s.execute rounds p.source = some (.error e, after) →
        e.isOrdinary ∨ e.blamesNil := by
  have htyped : SourceTyped (p.rules .withRange fun _ => True) p.source :=
    check_typed h fun _ _ _ _ _ _ _ => trivial
  obtain ⟨s, hstart, hr, hlaunched⟩ := htyped.session (M := .kinds True) rfl trivial
  refine ⟨s, hstart, fun rounds => ?_⟩
  -- `NIL` may stand for a value of any type, so nothing is asked of declarations and methods.
  have hnil : ∀ ty, Value.nil.Fits True ty := fun _ => .inl ⟨trivial, rfl⟩
  have hS : Sound (p.rules .withRange fun _ => True) (.kinds True) ⟨s.registry.objects, rounds⟩
      p.source :=
    ⟨Meaning.lawful_kinds, fun _ _ => hnil _, by rw [hr], fun _ _ _ _ => .inr fun _ => hnil _⟩
  refine ⟨fun e v hv => ?_, fun e after hrun => ?_⟩
  · obtain ⟨n, m, m', hreached, hrun⟩ := hv
    obtain ⟨ty, hty, hhas⟩ := hreached.value_typed hS hlaunched hrun
    exact ⟨ty, hty, hhas.imp And.right And.right⟩
  · exact (hlaunched.session_error hS hrun).imp id And.right

/-- The addition to a variable without an initial value fails, and `NIL` is to blame. -/
theorem uninitialized_blames_nil :
    ∃ p world s rounds e after, check .withRange uninitialized = .ok p ∧
      Session.start .withRange world = .ok s ∧
      s.execute rounds p.source = some (.error e, after) ∧ e.blamesNil := by
  obtain ⟨p, hp, _, world, s, rounds, e, after, hs, hrun, hordinary⟩ := uninitialized_getsStuck
  obtain ⟨s', hs', hsound⟩ := check_sound_up_to_nil hp world
  obtain rfl : s' = s := Except.ok.inj (hs'.symm.trans hs)
  obtain h | h := (hsound rounds).2 e after hrun
  · rw [hordinary] at h
    exact nomatch h
  · exact ⟨p, world, s', rounds, e, after, hp, hs, hrun, h⟩

/-! ## Stuck-freedom -/

/-- Without declarations and methods that let `NIL` in, a checked program stops with an ordinary
    error, if it stops with any. -/
private theorem check_ordinary {text : String} {p : Analyzed} (h : check .withRange text = .ok p)
    (hinitialized : p.source.Initialized .withRange) (hreturns : p.Returns) (world : World) :
    ∃ s, Session.start .withRange world = .ok s ∧ ∀ rounds e after,
      s.execute rounds p.source = some (.error e, after) → e.isOrdinary := by
  let R := p.rules .withRange fun ty => ty.admitsNil
  have hfits : ∀ {ty : Ty}, ty.admitsNil → Value.nil.Fits False ty := fun hty =>
    .inr ⟨rfl, Value.nil_hasType_iff.mpr hty⟩
  -- A declaration without an initial value has a type of `NIL`.
  have hstarts : ∀ d ∈ p.source.declarations, R.Starts d := by
    intro d hd typeName ty hnone hname hresolve
    have hsome := hinitialized d hd ty (by rw [hname]; exact hresolve)
    rw [hnone] at hsome
    show ty.admitsNil = true
    simpa using hsome
  -- So has a method that can come to its end.
  have hfalls : ∀ method ∈ p.source.methods, ∀ signature,
      R.function method.id ⟨method.name, signature⟩ →
      method.EndsInReturn ∨ ∀ w, (Meaning.kinds False).has w .nil signature.returns := by
    intro method hmethod signature hnoted
    by_cases hty : signature.returns.admitsNil
    · exact .inr fun _ => hfits hty
    · exact .inl (hreturns method hmethod _ hnoted (by simpa using hty))
  obtain ⟨s, hstart, hr, hlaunched⟩ :=
    (check_typed h hstarts).session (M := .kinds False) rfl trivial
  refine ⟨s, hstart, fun rounds e after hrun => ?_⟩
  have hS : Sound R (.kinds False) ⟨s.registry.objects, rounds⟩ p.source :=
    ⟨Meaning.lawful_kinds, fun hty _ => hfits hty, by rw [hr], hfalls⟩
  exact (hlaunched.session_error hS hrun).elim id fun h => h.1.elim

/-- A program that passes the check, initializes its variables and returns from its methods never
    gets stuck: a run gives an integer or fails by an ordinary error.  Without either of the two
    conditions there are programs that do. -/
theorem check_stuck_free :
    (∀ text p, check .withRange text = .ok p → p.source.Initialized .withRange → p.Returns →
      ∀ world, ∃ s, Session.start .withRange world = .ok s ∧ ∀ rounds result after,
        s.execute rounds p.source = some (result, after) →
          (∃ n, result = .ok n) ∨ ∃ e, result = .error e ∧ e.isOrdinary) ∧
    (∃ text p, check .withRange text = .ok p ∧ p.Returns ∧ p.GetsStuck) ∧
    (∃ text p, check .withRange text = .ok p ∧ p.source.Initialized .withRange ∧ p.GetsStuck) := by
  refine ⟨fun text p h hinitialized hreturns world => ?_, ⟨_, uninitialized_getsStuck⟩,
    ⟨_, unreturned_getsStuck⟩⟩
  obtain ⟨s, hstart, hordinary⟩ := check_ordinary h hinitialized hreturns world
  refine ⟨s, hstart, fun rounds result after hrun => ?_⟩
  cases result with
  | ok n => exact .inl ⟨n, rfl⟩
  | error e => exact .inr ⟨e, rfl, hordinary rounds e after hrun⟩

/-- A program with a global, a loop and a division meets both conditions. -/
theorem halving_is_not_stuck :
    ∃ p s, check .withRange "LET n: Integer = 8; DEF main() DO
      FOR i IN range(0, n) DO n = n / i; END RETURN n; END" = .ok p ∧
      Session.start .withRange default = .ok s ∧ ∀ rounds result after,
        s.execute rounds p.source = some (result, after) →
          (∃ n, result = .ok n) ∨ ∃ e, result = .error e ∧ e.isOrdinary := by
  obtain ⟨p, hp, hmeets⟩ := exists_of_check
    (P := fun p => decide (p.source.Initialized .withRange ∧ p.Returns))
    (show (check .withRange "LET n: Integer = 8; DEF main() DO
      FOR i IN range(0, n) DO n = n / i; END RETURN n; END").toOption.any _ by decide +kernel)
  obtain ⟨hinitialized, hreturns⟩ := of_decide_eq_true hmeets
  obtain ⟨s, hs, hruns⟩ := check_stuck_free.1 _ p hp hinitialized hreturns default
  exact ⟨p, s, hp, hs, hruns⟩

end LetLang

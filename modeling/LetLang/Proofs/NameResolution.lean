import LetLang.Proofs.Derivation
import LetLang.Proofs.Linking
import LetLang.Proofs.Values

/-! # Names are resolved before a program runs

A program that the analysis accepts never fails because of a name: all variables and functions
are found, no name is defined twice in one scope, and every assignment has a place to assign
to.  This is the soundness of typing for a meaning in which every value has every type, so that
nothing but names is left to go wrong. -/

namespace LetLang

/-- Whether the error is about a name: one that is not defined, one that is defined twice, or
    an expression in the place of a name. -/
def RuntimeError.isNameError : RuntimeError → Bool
  | undefinedVariable _ | undefinedFunction .. | invalidTarget _ | scope _ => true
  | _ => false

/-- The native never fails with an error about a name. -/
def Native.RespectsNames (native : Native) : Prop :=
  ∀ values w e w', native.call values w = .error e w' → e.isNameError = false

/-- No native of the registry fails with an error about a name. -/
structure Registry.RespectsNames (r : Registry) : Prop where
  functions : ∀ native ∈ r.functions, native.RespectsNames
  methods : ∀ object ∈ r.objects, ∀ key native, object.methods.get? key = some native →
    native.RespectsNames

/-- Every value has every type, and only errors about names are ruled out. -/
def Meaning.names : Meaning where
  has := fun _ _ _ => True
  valid := fun _ => True
  later := fun _ _ => True
  allowed := fun e => e.isNameError = false

/-- The rules that take no notice of the side table and ask for no initial values. -/
def Rules.lax (r : Registry) : Rules where
  registry := r
  type := fun _ _ => True
  binding := fun _ _ => True
  function := fun _ _ => True
  bare := fun _ => True

/-- The rules without a table look at types and scopes only. -/
theorem Rules.lax_lax (r : Registry) : (Rules.lax r).Lax := fun _ _ =>
  ⟨fun _ _ => trivial, fun _ _ => trivial, fun _ _ => trivial⟩

/-- A native that raises no error of names gives what the meaning of names asks for. -/
theorem Native.RespectsNames.gives {native : Native} (h : native.RespectsNames)
    (values : List Value) (w : World) (ty : Ty) :
    Meaning.names.Gives (native.call values) w ty := by
  unfold Meaning.Gives Ends
  cases hrun : native.call values w with
  | ok v w' => exact ⟨trivial, trivial, trivial⟩
  | error e w' => exact h values w e w' hrun

/-- A method that a value has is one of the registry. -/
theorem Registry.RespectsNames.method {r : Registry} (h : r.RespectsNames) {v : Value}
    {name : String} {arity : Nat} {native : Native}
    (hm : v.method r.objects name arity = .ok native) : native.RespectsNames := by
  obtain ⟨_, _, _, object, hobject, _, hget⟩ := Value.exists_of_method_eq_ok hm
  exact h.methods object hobject _ _ hget

/-- Only names are looked after, so the laws say no more than that no operation fails with an
    error about a name. -/
private theorem Meaning.lawful_names {r : Registry} (hr : r.RespectsNames) :
    names.Lawful (Rules.lax r) where
  -- Every value has every type here; what is left to show is which errors can occur.
  later_refl := fun _ => trivial
  later_trans := fun _ _ => trivial
  has_later := fun _ _ => trivial
  accepts := fun _ _ => trivial
  literal := fun _ => trivial
  integer := trivial
  boolean := trivial
  toBool := fun {w v e} _ h => by
    obtain rfl := Value.toBool_eq_error h
    rfl
  elements := fun _ _ => rfl
  binary := fun {w a b left right operator ty} _ _ _ _ => by
    cases h : Value.binary operator a b with
    | ok v => trivial
    | error e => obtain rfl | rfl := Value.binary_eq_error h <;> rfl
  -- Of the natives nothing is known but that they respect names.
  native := fun hmem _ _ => (hr.functions _ hmem).gives _ _ _
  readField := fun {w v id ty name fieldType} _ _ _ _ => by
    unfold Meaning.Gives Ends NativeM.readField
    cases h : w.heap.read v name with
    | ok u => exact ⟨trivial, trivial, trivial⟩
    | error e => obtain rfl := Heap.read_eq_error h; rfl
  writeField := fun {w v id ty name fieldType u} _ _ _ _ _ => by
    unfold Ends NativeM.writeField
    cases h : w.heap.write v name u with
    | ok heap => exact ⟨trivial, trivial⟩
    | error e => obtain rfl := Heap.write_eq_error h; rfl
  method := fun {w v id ty name arity native} _ _ _ => by
    cases h : v.method (Rules.lax r).registry.objects name arity with
    | ok found => exact fun w' values _ _ _ => (hr.method h).gives _ _ _
    | error e => obtain rfl := Value.method_eq_error h; rfl
  depth := rfl
  result := fun _ _ => rfl

/-- A program that the analysis accepts finds its natives bound on a fresh machine, and no run
    of it fails with an error about a name. -/
theorem analyze_resolves_names {r : Registry} (hr : r.RespectsNames) {source : Source}
    {a : Analysis} (h : analyze r source = .ok a) (world : World) :
    ∃ s, Session.start r world = .ok s ∧ ∀ rounds e after,
      s.execute rounds source = some (.error e, after) → e.isNameError = false := by
  have htyped : SourceTyped (Rules.lax r) source :=
    analyze_typed h (.inl (Rules.lax_lax r)) fun _ _ _ _ _ _ _ => trivial
  have hsound : ∀ rounds, Sound (Rules.lax r) .names ⟨r.objects, rounds⟩ source := fun rounds =>
    ⟨Meaning.lawful_names hr, fun _ _ => trivial, rfl, fun _ _ _ _ => .inr fun _ => trivial⟩
  obtain ⟨s, hstart, rfl, hlaunched⟩ := htyped.session (M := .names) rfl trivial
  exact ⟨s, hstart, fun rounds e after hrun => hlaunched.session_error (hsound rounds) hrun⟩

/-- The two natives of every program raise none. -/
private theorem Registry.respectsNames_withRange : withRange.RespectsNames where
  functions := fun native hmem values w e w' hrun => by
    obtain rfl | rfl := mem_withRange hmem
    · obtain ⟨reason, rfl⟩ := (Native.ends_print values w).of_error hrun
      rfl
    · obtain rfl := (Native.ends_range values w).of_error hrun
      rfl
  methods := fun _ hobject => nomatch hobject

/-- A program with one name for a global, a parameter and a variable inside a loop, from which the
    method calls itself.  In the second round of its first call it divides by zero. -/
def shadowing : String :=
  "LET n = 2;
   DEF f(n: Integer): Integer DO
     FOR i IN range(0, n) DO LET n = i; n = 1 / (f(n) - 1); END RETURN n; END
   DEF main() DO RETURN f(n); END"

/-- The run of `shadowing` fails in the end, but with no error about a name. -/
theorem shadowing_resolves_names : Registry.withRange.RespectsNames ∧
    ∃ p, check .withRange shadowing = .ok p ∧ ∃ s, Session.start .withRange default = .ok s ∧
      (∃ after, s.execute 0 p.source = some (.error .divisionByZero, after)) ∧
      ∀ rounds e after, s.execute rounds p.source = some (.error e, after) →
        e.isNameError = false := by
  have hcompute : (check .withRange shadowing).toOption.any fun p =>
      (Session.start .withRange default).toOption.any fun s =>
        (s.execute 0 p.source).any fun answer => answer.1 == .error .divisionByZero := by
    decide +kernel
  -- The program is accepted, its session starts, and the run divides by zero.
  obtain ⟨p, s, hp, hs, hruns⟩ := exists_of_check_start hcompute
  obtain ⟨⟨_, after⟩, hrun, hresult⟩ := (Option.any_eq_true _ _).mp hruns
  obtain rfl := eq_of_beq hresult
  obtain ⟨_, _, hanalyze⟩ := of_check_eq_ok hp
  -- A start is unique, so what holds of some session holds of this one.
  obtain ⟨s', hs', hresolves⟩ :=
    analyze_resolves_names Registry.respectsNames_withRange hanalyze default
  obtain rfl : s' = s := Except.ok.inj (hs'.symm.trans hs)
  exact ⟨Registry.respectsNames_withRange, p, hp, s', hs, ⟨after, hrun⟩, hresolves⟩

end LetLang

import LetLang.Analysis.Checker
import LetLang.Proofs.Outcome

/-! # Values and their types

Which values a type has, and what the operations on values do with values of the right types.
Types are compared by name, as everywhere.

* `Value.HasType`        which values a type has
* `HasType.of_accepts`   a value may stand where its type is accepted
* `binary_kinds`         operators do what their types promise, up to division by zero and `NIL`
-/

namespace LetLang

/-- Having the same name goes both ways. -/
private theorem Ty.same_comm (a b : Ty) : a.same b = b.same a := BEq.comm

/-- A type takes the types of its own name. -/
private theorem Ty.accepts_of_same {target actual : Ty} (h : target.same actual) :
    target.accepts actual := by
  unfold accepts
  rw [h]
  exact Bool.true_or _

/-- Logical operators and comparisons combine Booleans. -/
theorem Operator.type_of_boolean {operator : Operator} {left right ty : Ty}
    (hlevel : operator.level = .logical ∨ operator.level = .comparison)
    (h : operator.type left right = .ok ty) :
    Ty.boolean.accepts left ∧ Ty.boolean.accepts right ∧ ty = .boolean := by
  obtain hlevel | hlevel := hlevel <;>
  · simp only [Operator.type, hlevel, requireAssignable] at h
    split at h
    · split at h
      · cases h
        exact ⟨by assumption, by assumption, rfl⟩
      · exact nomatch h
    · exact nomatch h

/-- The types that operators tell apart. -/
def Ty.operands : List Ty := [.boolean, .string, .integer, .decimal]

/-- The types that operators tell apart are built in, and have values of their own. -/
theorem Ty.of_mem_operands :
    ∀ ty ∈ Ty.operands, ty ∈ Ty.builtin ∧ ty ≠ .any ∧ ty ≠ .comparable := by
  decide

/-- What an operator gives is of one of these types, too. -/
theorem Operator.type_mem_operands {operator : Operator} {left right ty : Ty}
    (h : operator.type left right = .ok ty) : ty ∈ Ty.operands := by
  have harithmetic : arithmeticType operator left right = .ok ty → ty ∈ Ty.operands := by
    intro h
    unfold arithmeticType at h
    split at h <;> cases h <;> decide
  -- By level: the first two give Booleans, and `+` looks for a string before it does arithmetic.
  cases hl : operator.level with
  | logical | comparison =>
    obtain ⟨_, _, rfl⟩ := Operator.type_of_boolean (by simp [hl]) h
    decide
  | additive =>
    simp only [Operator.type, hl] at h
    split at h
    · cases h
      decide
    · exact harithmetic h
  | multiplicative =>
    simp only [Operator.type, hl] at h
    exact harithmetic h

namespace Value

/-- The type of a value itself. -/
def kind : Value → Ty
  | nil => .nil
  | boolean _ => .boolean
  | character _ => .character
  | string _ => .string
  | integer _ => .integer
  | decimal _ => .decimal
  | range .. => .integerIterable
  | object _ ref => .object ref

/-- The kind of a value is a type of the name that the value shows. -/
@[simp] theorem name_kind (v : Value) : v.kind.name = v.typeName := by
  cases v <;> rfl

/-- Whether a value is an object. -/
def isObject : Value → Bool
  | object .. => true
  | _ => false

/-- Whether a value has a type: `Any` has all values, `Comparable` has integers, decimals,
    characters and strings, and besides a value has its own type. -/
def HasType (v : Value) (ty : Ty) : Prop :=
  ty.same .any ∨ (ty.same .comparable ∧ v.kind.isComparable) ∨ ty.same v.kind

instance (v : Value) (ty : Ty) : Decidable (v.HasType ty) :=
  inferInstanceAs (Decidable (_ ∨ _))

namespace HasType

variable {v : Value} {ty : Ty}

/-- A value has the type of its kind. -/
theorem own (v : Value) : v.HasType v.kind := .inr (.inr (by simp [Ty.same]))

/-- Types of one name have the same values. -/
private theorem of_same {ty' : Ty} (h : v.HasType ty) (hs : ty'.same ty) : v.HasType ty' := by
  simp only [HasType, Ty.same, beq_iff_eq] at h hs ⊢
  rwa [hs]

/-- A value that is no object and has the type of a kind is of that kind. -/
theorem kind_eq (h : v.HasType ty) (hv : v.isObject = false) (hmem : ty ∈ Ty.builtin)
    (hany : ty ≠ .any) (hcomparable : ty ≠ .comparable) : v.kind = ty := by
  cases v <;> cases ty <;> simp_all [HasType, Ty.same, Ty.name, kind, isObject, Ty.builtin]

/-- A value may stand where its type is accepted. -/
theorem of_accepts {target : Ty} (h : v.HasType ty) (hv : v.isObject = false)
    (ha : target.accepts ty) : v.HasType target := by
  unfold Ty.accepts at ha
  rw [Bool.or_eq_true] at ha
  obtain hsame | hrule := ha
  · exact h.of_same hsame
  · cases target with
    | any => exact .inl rfl
    | comparable =>
      -- The four types that are accepted here have no values but their own.
      have hkind : v.kind = ty := h.kind_eq hv (by cases ty <;> first | decide | exact nomatch hrule)
        (by rintro rfl; exact nomatch hrule) (by rintro rfl; exact nomatch hrule)
      exact .inr (.inl ⟨rfl, by rw [hkind]; exact hrule⟩)
    | _ => exact nomatch hrule

example : (integer 7).HasType .comparable ∧ ¬nil.HasType .comparable ∧ ¬(range 0 3).HasType .integer := by
  decide

end HasType

/-! ## Errors of operations -/

/-- A condition can only fail for not being a Boolean. -/
theorem toBool_eq_error {v : Value} {e : RuntimeError} (h : v.toBool = .error e) :
    e = .expectedBoolean v.typeName := by
  cases v with
  | boolean b => exact nomatch h
  | _ => cases h; rfl

/-- An operator fails on a division by zero, or because it does not combine the two kinds. -/
theorem binary_eq_error {operator : Operator} {a b : Value} {e : RuntimeError}
    (h : binary operator a b = .error e) :
    e = .divisionByZero ∨ e = invalid operator.symbol a b := by
  have hdefined : ∀ {o : Option Value}, defined operator.symbol a b o = .error e →
      e = .divisionByZero ∨ e = invalid operator.symbol a b := by
    intro o ho
    cases o with
    | none => cases ho; exact .inr rfl
    | some v => exact nomatch ho
  have hordered : ∀ {holds : Ordering → Bool}, ordered operator.symbol a b holds = .error e →
      e = .divisionByZero ∨ e = invalid operator.symbol a b := by
    intro holds ho
    unfold ordered at ho
    split at ho
    · exact nomatch ho
    · cases ho
      exact .inr rfl
  -- All operators but division come down to one of the two.
  cases operator with
  | plus | minus | times => exact hdefined h
  | divide =>
    simp only [binary] at h
    cases hdiv : div? a b with
    | none => rw [hdiv] at h; cases h; exact .inr rfl
    | some result =>
      rw [hdiv, Option.getD_some] at h
      subst h
      unfold div? at hdiv
      -- Integers and decimals are tested for a zero, all else is not divided.
      split at hdiv
      · split at hdiv <;> cases hdiv
        exact .inl rfl
      · split at hdiv <;> cases hdiv
        exact .inl rfl
      · exact nomatch hdiv
  | less | lessEqual | greater | greaterEqual => exact hordered h
  | equal | notEqual => exact nomatch h
  | and | or => cases h; exact .inr rfl

/-! ## Operators -/

/-- The value is no object and has the type, or it is `NIL` and that is let pass. -/
def Fits (lenient : Prop) (v : Value) (ty : Ty) : Prop :=
  (lenient ∧ v = .nil) ∨ (v.isObject = false ∧ v.HasType ty)

variable {lenient : Prop}

namespace Fits

variable {v : Value} {ty ty' : Ty}

/-- A value that is no object fits its kind. -/
theorem own (hv : v.isObject = false) : v.Fits lenient v.kind := .inr ⟨hv, .own v⟩

private theorem of_same (h : v.Fits lenient ty) (hs : ty'.same ty) : v.Fits lenient ty' :=
  h.imp id fun ⟨hv, hty⟩ => ⟨hv, hty.of_same hs⟩

theorem of_accepts (h : v.Fits lenient ty) (ha : ty'.accepts ty) : v.Fits lenient ty' :=
  h.imp id fun ⟨hv, hty⟩ => ⟨hv, hty.of_accepts hv ha⟩

theorem kind_eq (h : v.Fits lenient ty) (hmem : ty ∈ Ty.builtin) (hany : ty ≠ .any)
    (hcomparable : ty ≠ .comparable) : (lenient ∧ v = .nil) ∨ v.kind = ty :=
  h.imp id fun ⟨hv, hty⟩ => hty.kind_eq hv hmem hany hcomparable

/-- What fits `Boolean` is a truth value, or `NIL`. -/
theorem boolean (h : v.Fits lenient .boolean) : (lenient ∧ v = .nil) ∨ ∃ b, v = .boolean b := by
  refine (h.kind_eq (by decide) (by decide) (by decide)).imp id fun hkind => ?_
  cases v <;> first | exact ⟨_, rfl⟩ | exact nomatch hkind

/-- What fits `Integer` is an integer, or `NIL`. -/
theorem integer (h : v.Fits lenient .integer) : (lenient ∧ v = .nil) ∨ ∃ n, v = .integer n := by
  refine (h.kind_eq (by decide) (by decide) (by decide)).imp id fun hkind => ?_
  cases v <;> first | exact ⟨_, rfl⟩ | exact nomatch hkind

/-- What fits `Decimal` is a decimal, or `NIL`. -/
theorem decimal (h : v.Fits lenient .decimal) : (lenient ∧ v = .nil) ∨ ∃ d, v = .decimal d := by
  refine (h.kind_eq (by decide) (by decide) (by decide)).imp id fun hkind => ?_
  cases v <;> first | exact ⟨_, rfl⟩ | exact nomatch hkind

/-- What fits `String` is a string, or `NIL`. -/
theorem string (h : v.Fits lenient .string) : (lenient ∧ v = .nil) ∨ ∃ s, v = .string s := by
  refine (h.kind_eq (by decide) (by decide) (by decide)).imp id fun hkind => ?_
  cases v <;> first | exact ⟨_, rfl⟩ | exact nomatch hkind

/-- What fits `IntegerIterable` is a range, or `NIL`. -/
theorem range (h : v.Fits lenient .integerIterable) :
    (lenient ∧ v = .nil) ∨ ∃ start stop, v = .range start stop := by
  refine (h.kind_eq (by decide) (by decide) (by decide)).imp id fun hkind => ?_
  cases v <;> first | exact ⟨_, _, rfl⟩ | exact nomatch hkind

end Fits

/-- What an operation gives if nothing but a division by zero, or a `NIL` that was let pass, can
    go wrong. -/
def Combines (lenient : Prop) (symbol : String) (a b : Value) (ty : Ty) :
    Except RuntimeError Value → Prop
  | .ok v => v.Fits lenient ty
  | .error e => e = .divisionByZero ∨
      (lenient ∧ e = invalid symbol a b ∧ (a = .nil ∨ b = .nil))

/-- Comparisons of Booleans. -/
private theorem binary_comparison {operator : Operator} {a b : Value} (ha : a.Fits lenient .boolean)
    (hb : b.Fits lenient .boolean) (hlevel : operator.level = .comparison) :
    Combines lenient operator.symbol a b .boolean (binary operator a b) := by
  -- An order needs both operands; equality takes any.
  have hordered : ∀ holds, Combines lenient operator.symbol a b .boolean
      (ordered operator.symbol a b holds) := by
    intro holds
    obtain ⟨hl, rfl⟩ | ⟨x, rfl⟩ := ha.boolean
    · exact .inr ⟨hl, rfl, .inl rfl⟩
    · obtain ⟨hl, rfl⟩ | ⟨y, rfl⟩ := hb.boolean
      · exact .inr ⟨hl, rfl, .inr rfl⟩
      · exact Fits.own (v := .boolean _) rfl
  cases operator with
  | less | lessEqual | greater | greaterEqual => exact hordered _
  | equal | notEqual => exact Fits.own (v := .boolean _) rfl
  | _ => exact nomatch hlevel

/-- Arithmetic with a `NIL` on the left fails, unless there is a text to join it to. -/
private theorem combines_nil_left {operator : Operator} {b : Value} {ty : Ty} (hl : lenient)
    (hlevel : operator.level = .additive ∨ operator.level = .multiplicative)
    (hb : b.kind ≠ .string) : Combines lenient operator.symbol .nil b ty (binary operator .nil b) := by
  have hinvalid : binary operator .nil b = .error (invalid operator.symbol .nil b) := by
    cases operator <;>
      first | exact absurd hlevel (by decide) | (cases b <;> first | rfl | exact absurd rfl hb)
  rw [hinvalid]
  exact .inr ⟨hl, rfl, .inl rfl⟩

/-- Arithmetic with a `NIL` on the right fails, unless there is a text to join it to. -/
private theorem combines_nil_right {operator : Operator} {a : Value} {ty : Ty} (hl : lenient)
    (hlevel : operator.level = .additive ∨ operator.level = .multiplicative)
    (ha : a.kind ≠ .string) : Combines lenient operator.symbol a .nil ty (binary operator a .nil) := by
  have hinvalid : binary operator a .nil = .error (invalid operator.symbol a .nil) := by
    cases operator <;>
      first | exact absurd hlevel (by decide) | (cases a <;> first | rfl | exact absurd rfl ha)
  rw [hinvalid]
  exact .inr ⟨hl, rfl, .inr rfl⟩

/-- Arithmetic of integers. -/
private theorem binary_integer {operator : Operator} {a b : Value} (ha : a.Fits lenient .integer)
    (hb : b.Fits lenient .integer)
    (hlevel : operator.level = .additive ∨ operator.level = .multiplicative) :
    Combines lenient operator.symbol a b .integer (binary operator a b) := by
  -- `NIL` on either side is the error; otherwise only a division can fail.
  obtain ⟨hl, rfl⟩ | ⟨x, rfl⟩ := ha.integer
  · apply combines_nil_left hl hlevel
    obtain ⟨_, rfl⟩ | ⟨y, rfl⟩ := hb.integer <;> exact nofun
  obtain ⟨hl, rfl⟩ | ⟨y, rfl⟩ := hb.integer
  · exact combines_nil_right hl hlevel nofun
  cases operator with
  | plus | minus | times => exact Fits.own (v := .integer _) rfl
  | divide =>
    simp only [binary, div?, Option.getD_some]
    split
    · exact .inl rfl
    · exact Fits.own (v := .integer _) rfl
  | _ => exact absurd hlevel (by decide)

/-- Arithmetic of decimals. -/
private theorem binary_decimal {operator : Operator} {a b : Value} (ha : a.Fits lenient .decimal)
    (hb : b.Fits lenient .decimal)
    (hlevel : operator.level = .additive ∨ operator.level = .multiplicative) :
    Combines lenient operator.symbol a b .decimal (binary operator a b) := by
  -- The same cases as for integers.
  obtain ⟨hl, rfl⟩ | ⟨x, rfl⟩ := ha.decimal
  · apply combines_nil_left hl hlevel
    obtain ⟨_, rfl⟩ | ⟨y, rfl⟩ := hb.decimal <;> exact nofun
  obtain ⟨hl, rfl⟩ | ⟨y, rfl⟩ := hb.decimal
  · exact combines_nil_right hl hlevel nofun
  cases operator with
  | plus | minus | times => exact Fits.own (v := .decimal _) rfl
  | divide =>
    simp only [binary, div?, Option.getD_some]
    split
    · exact .inl rfl
    · exact Fits.own (v := .decimal _) rfl
  | _ => exact absurd hlevel (by decide)

/-- Joining texts: one of the operands is a string. -/
private theorem binary_text {a b : Value} (h : a.Fits lenient .string ∨ b.Fits lenient .string) :
    Combines lenient Operator.plus.symbol a b .string (binary .plus a b) := by
  -- A `NIL` in the place of the string is joined to a string on the other side.
  obtain h | h := h
  · obtain ⟨hl, rfl⟩ | ⟨s, rfl⟩ := h.string
    · cases b with
      | string t => exact Fits.own (v := .string _) rfl
      | _ => exact combines_nil_left hl (.inl rfl) nofun
    · exact Fits.own (v := .string _) rfl
  · obtain ⟨hl, rfl⟩ | ⟨s, rfl⟩ := h.string
    · cases a with
      | string t => exact Fits.own (v := .string _) rfl
      | _ => exact combines_nil_right hl (.inl rfl) nofun
    · cases a <;> exact Fits.own (v := .string _) rfl

/-- Arithmetic combines two integers or two decimals. -/
private theorem binary_arithmetic {operator : Operator} {a b : Value} {left right ty : Ty}
    (ha : ∀ kind ∈ Ty.operands, kind.accepts left → a.Fits lenient kind)
    (hb : ∀ kind ∈ Ty.operands, kind.accepts right → b.Fits lenient kind)
    (htype : arithmeticType operator left right = .ok ty)
    (hlevel : operator.level = .additive ∨ operator.level = .multiplicative) :
    Combines lenient operator.symbol a b ty (binary operator a b) := by
  unfold arithmeticType at htype
  split at htype
  · cases htype
    exact binary_integer (ha _ (by decide) rfl) (hb _ (by decide) rfl) hlevel
  · cases htype
    exact binary_decimal (ha _ (by decide) rfl) (hb _ (by decide) rfl) hlevel
  · exact nomatch htype

/-- Operators other than `AND` and `OR` do what their types promise, if their operands are what
    the operators take them for. -/
theorem binary_operands {operator : Operator} {a b : Value} {left right ty : Ty}
    (ha : ∀ kind ∈ Ty.operands, kind.accepts left → a.Fits lenient kind)
    (hb : ∀ kind ∈ Ty.operands, kind.accepts right → b.Fits lenient kind)
    (htype : operator.type left right = .ok ty) (hlevel : operator.level ≠ .logical) :
    Combines lenient operator.symbol a b ty (binary operator a b) := by
  -- The cases of the checker, level by level; what it asks of the operands is what the operation
  -- needs.
  cases hl : operator.level with
  | logical => exact absurd hl hlevel
  | comparison =>
    obtain ⟨hleft, hright, rfl⟩ := Operator.type_of_boolean (.inr hl) htype
    exact binary_comparison (ha _ (by decide) hleft) (hb _ (by decide) hright) hl
  | additive =>
    simp only [Operator.type, hl] at htype
    split at htype
    · rename_i hplus
      -- One operand has the type of strings, the other may be anything.
      obtain ⟨rfl, hstring⟩ := hplus
      cases htype
      have haccepts : ∀ {ty : Ty}, ty.same .string → Ty.string.accepts ty :=
        fun h => Ty.accepts_of_same (by rwa [Ty.same_comm])
      exact binary_text (hstring.imp (fun h => ha _ (by decide) (haccepts h))
        (fun h => hb _ (by decide) (haccepts h)))
    · exact binary_arithmetic ha hb htype (.inl hl)
  | multiplicative =>
    simp only [Operator.type, hl] at htype
    exact binary_arithmetic ha hb htype (.inr hl)

/-- Operators other than `AND` and `OR` do what their types promise. -/
theorem binary_kinds {operator : Operator} {a b : Value} {left right ty : Ty}
    (ha : a.Fits lenient left) (hb : b.Fits lenient right) (htype : operator.type left right = .ok ty)
    (hlevel : operator.level ≠ .logical) :
    Combines lenient operator.symbol a b ty (binary operator a b) :=
  binary_operands (fun _ _ h => ha.of_accepts h) (fun _ _ h => hb.of_accepts h) htype hlevel

/-! ## Members of values -/

/-- Only objects have methods, and theirs are those of a declared type. -/
theorem exists_of_method_eq_ok {objects : List ObjectType} {v : Value} {name : String}
    {arity : Nat} {native : Native} (h : v.method objects name arity = .ok native) :
    ∃ address ref, v = .object address ref ∧ ∃ object ∈ objects,
      ref.declaration? objects = some object ∧ object.methods.get? (name, arity) = some native := by
  unfold Value.method at h
  cases v with
  | object address ref =>
    simp only at h
    cases hfound : Ty.method? objects (.object ref) name arity with
    | none => rw [hfound] at h; exact nomatch h
    | some found =>
      rw [hfound] at h
      cases h
      obtain ⟨object, hobject, hget⟩ := Option.bind_eq_some_iff.mp hfound
      -- The type of the object is at a position of the registry, if it is anywhere.
      obtain ⟨i, _, hi⟩ := Option.bind_eq_some_iff.mp hobject
      exact ⟨address, ref, rfl, object, List.mem_of_getElem? hi, hobject, hget⟩
  | _ => exact nomatch h

/-- A lookup of a method only fails for want of the method. -/
theorem method_eq_error {objects : List ObjectType} {v : Value} {name : String} {arity : Nat}
    {e : RuntimeError} (h : v.method objects name arity = .error e) :
    e = .undefinedMethod v.typeName name arity := by
  unfold Value.method at h
  dsimp only at h
  split at h
  · exact nomatch h
  · cases h
    rfl

end Value

/-- Reading a field only fails for want of the field. -/
theorem Heap.read_eq_error {h : Heap} {v : Value} {name : String} {e : RuntimeError}
    (hr : h.read v name = .error e) : e = .undefinedField v.typeName name := by
  unfold Heap.read at hr
  dsimp only at hr
  split at hr
  · exact nomatch hr
  · cases hr
    rfl

/-- Writing a field only fails for want of the field. -/
theorem Heap.write_eq_error {h : Heap} {v u : Value} {name : String} {e : RuntimeError}
    (hw : h.write v name u = .error e) : e = .undefinedField v.typeName name := by
  unfold Heap.write at hw
  split at hw
  · split at hw
    · exact nomatch hw
    · cases hw
      rfl
  · cases hw
    rfl

/-! ## Literals and natives -/

/-- Literals are of their own kind. -/
theorem Literal.kind_toValue {value : Literal} {ty : Ty} (h : value.type = .ok ty) :
    value.toValue.isObject = false ∧ value.toValue.kind = ty := by
  cases value with
  | integer n =>
    simp only [Literal.type] at h
    split at h
    · cases h; exact ⟨rfl, rfl⟩
    · exact nomatch h
  | decimal d =>
    simp only [Literal.type] at h
    split at h
    · cases h; exact ⟨rfl, rfl⟩
    · exact nomatch h
  | _ => cases h; exact ⟨rfl, rfl⟩

/-- Writing fails, if at all, with an error about the output. -/
private theorem NativeM.ends_write (text : String) (w : World) :
    Ends (write text) w (fun _ _ => True) (fun e _ => ∃ reason, e = .output reason) := by
  by_cases hfits : w.output.fits text.toUTF8
  · simp only [Ends, write, hfits, if_true]
  · simp only [Ends, write, hfits]
    exact ⟨_, rfl⟩

/-- Printing fails only if the output cannot be written. -/
private theorem Native.ends_printAll (values : List Value) (w : World) :
    Ends (printAll values) w (fun _ _ => True) (fun e _ => ∃ reason, e = .output reason) := by
  induction values generalizing w with
  | nil => trivial
  | cons v rest ih =>
    rw [printAll, ends_bind]
    exact (NativeM.ends_write _ w).mono (fun _ w' _ _ => ih w')

/-- `print` gives `NIL` or fails to write. -/
theorem Native.ends_print (values : List Value) (w : World) :
    Ends (print.call values) w (fun v _ => v = .nil) (fun e _ => ∃ reason, e = .output reason) := by
  show Ends (printAll values >>= fun _ => pure Value.nil) w _ _
  rw [ends_bind]
  exact (ends_printAll values w).mono (fun _ _ _ _ => ends_pure.mpr rfl)

/-- `range` makes a range of two integers and of nothing else. -/
theorem Native.ends_range (values : List Value) (w : World) :
    Ends (range.call values) w
      (fun v _ => ∃ start stop, values = [.integer start, .integer stop] ∧ v = .range start stop)
      (fun e _ => e = invalidArguments "range" values) := by
  unfold range
  dsimp only
  split
  · rw [ends_pure]
    exact ⟨_, _, rfl, rfl⟩
  · rw [ends_throw]

/-- The natives of the command line. -/
theorem Registry.mem_withRange {native : Native} (h : native ∈ withRange.functions) :
    native = .print ∨ native = .range := by
  simpa [withRange, standard, register, empty] using h

end LetLang

import LetLang.Proofs.Determinacy
import LetLang.Proofs.Grafting
import LetLang.Proofs.NameResolution
import Mathlib.Data.List.Flatten
import Mathlib.Data.List.Induction
import Mathlib.Data.List.Nodup
import Mathlib.Data.List.Perm.Subperm

/-!
# The order of methods does not matter, nor do further ones

A method can be called only below the place where it stands, so the order of the methods decides
whether a program is accepted.  It decides nothing else: if two accepted programs have the same
globals and one has all methods of the other, in any order and among any others, then both say the
same about the nodes that they share, and both runs end alike.

* `Source.Extends`           a program with more methods
* `Alongside.all_methods`    every method is recorded alike, those above it being so
* `analyze_conservative`     the side tables agree on the smaller program
* `Alongside.execute`        the two runs end alike and write the same output
* `methods_are_conservative` both
-/

namespace LetLang

open Scopes Exec

/-! ## No two nodes have one number -/

mutual

/-- The numbers of a statement are those of its expressions and those of its declarations. -/
private theorem Statement.count_ids (id : NodeId) : ∀ s : Statement,
    s.ids.count id =
      (s.exprs.flatMap Expr.ids).count id + (s.declarations.map Declaration.id).count id
  -- Counting is enough: the two lists have the same ids, but in another order.
  | .expression _ | .returns _ => by simp [Statement.ids, Statement.exprs, Statement.declarations]
  | .assign .. => by simp [Statement.ids, Statement.exprs, Statement.declarations]
  -- A declaration stands behind its initializer, if it has one.
  | .declare d => by
    cases hvalue : d.initializer <;>
      simp [Statement.ids, Statement.exprs, Statement.declarations, Declaration.ids, hvalue]
  | .ifElse _ thenBody elseBody => by
    have hthen := Statement.count_idsAll id thenBody
    have helse := Statement.count_idsAll id elseBody
    simp only [Statement.ids, Statement.exprs, Statement.declarations, List.flatMap_cons,
      List.flatMap_append, List.map_append, List.count_append]
    omega
  | .forIn _ _ body | .whileDo _ body => by
    have hbody := Statement.count_idsAll id body
    simp only [Statement.ids, Statement.exprs, Statement.declarations, List.flatMap_cons,
      List.count_append]
    omega

/-- The ids of statements are those of their expressions and of their declarations. -/
private theorem Statement.count_idsAll (id : NodeId) : ∀ body : List Statement,
    (Statement.idsAll body).count id =
      ((Statement.listExprs body).flatMap Expr.ids).count id +
        ((Statement.declarationsAll body).map Declaration.id).count id
  | [] => by simp [Statement.idsAll, Statement.listExprs, Statement.declarationsAll]
  | s :: rest => by
    have hs := Statement.count_ids id s
    have hrest := Statement.count_idsAll id rest
    simp only [Statement.idsAll, Statement.listExprs, Statement.declarationsAll,
      List.flatMap_append, List.map_append, List.count_append]
    omega

end

namespace Source

variable {s : Source}

/-- The numbers of a program are those of its expressions, its declarations and its methods. -/
private theorem ids_perm (s : Source) : s.ids.Perm
    (s.expressionIds ++ (s.declarations.map Declaration.id ++ s.methods.map Method.id)) := by
  have hfields : ∀ (id : NodeId) (fields : List Declaration),
      (fields.flatMap Declaration.ids).count id =
        ((fields.flatMap (·.initializer.toList)).flatMap Expr.ids).count id +
          (fields.map Declaration.id).count id := by
    intro id fields
    induction fields with
    | nil => rfl
    | cons d rest ih =>
      have hd := Statement.count_ids id (.declare d)
      simp only [Statement.ids, Statement.exprs, Statement.declarations, List.map_cons,
        List.map_nil] at hd
      simp only [List.flatMap_cons, List.flatMap_append, List.map_cons, List.count_append, ih, hd,
        List.count_cons, List.count_nil]
      omega
  -- The ids of a method are those of its body and its own.
  have hmethods : ∀ (id : NodeId) (methods : List Method),
      (methods.flatMap Method.ids).count id =
        ((methods.flatMap fun m => Statement.listExprs m.body).flatMap Expr.ids).count id +
          ((methods.flatMap fun m => Statement.declarationsAll m.body).map Declaration.id).count id +
          (methods.map Method.id).count id := by
    intro id methods
    induction methods with
    | nil => rfl
    | cons m rest ih =>
      have hbody := Statement.count_idsAll id m.body
      simp only [List.flatMap_cons, List.flatMap_append, List.map_cons, List.map_append,
        List.count_append, Method.ids, ih, hbody, List.count_cons, List.count_nil]
      omega
  have hexpressions : s.expressionIds = s.exprs.flatMap Expr.ids := by
    simp only [expressionIds, nodes, List.map_flatMap, ← Expr.ids_eq_map]
  -- Both lists count every id equally often.
  apply List.perm_iff_count.mpr
  intro id
  simp only [hexpressions, ids, exprs, declarations, List.flatMap_append, List.map_append,
    List.count_append, hfields, hmethods]
  omega

/-- With distinct ids, the id determines the node. -/
private theorem nodes_inj (h : s.ids.Nodup) {n n' : Expr} (hn : n ∈ s.nodes) (hn' : n' ∈ s.nodes)
    (hid : n.id = n'.id) : n = n' :=
  List.inj_on_of_nodup_map (List.nodup_append.mp (s.ids_perm.nodup_iff.mp h)).1 hn hn' hid

/-- Nodes and declarations have different ids. -/
private theorem node_ne_declaration (h : s.ids.Nodup) {n : Expr} {d : Declaration}
    (hn : n ∈ s.nodes) (hd : d ∈ s.declarations) : n.id ≠ d.id :=
  (List.nodup_append.mp (s.ids_perm.nodup_iff.mp h)).2.2 _ (List.mem_map_of_mem hn) _
    (List.mem_append_left _ (List.mem_map_of_mem hd))

/-- Nodes and methods have different ids. -/
private theorem node_ne_method (h : s.ids.Nodup) {n : Expr} {m : Method} (hn : n ∈ s.nodes)
    (hm : m ∈ s.methods) : n.id ≠ m.id :=
  (List.nodup_append.mp (s.ids_perm.nodup_iff.mp h)).2.2 _ (List.mem_map_of_mem hn) _
    (List.mem_append_right _ (List.mem_map_of_mem hm))

/-- Declarations and methods have different ids. -/
private theorem declaration_ne_method (h : s.ids.Nodup) {d : Declaration} {m : Method}
    (hd : d ∈ s.declarations) (hm : m ∈ s.methods) : d.id ≠ m.id :=
  (List.nodup_append.mp (List.nodup_append.mp (s.ids_perm.nodup_iff.mp h)).2.1).2.2 _
    (List.mem_map_of_mem hd) _ (List.mem_map_of_mem hm)

/-- A node that is listed among the variables is an access. -/
private theorem isAccess_of_mem (h : s.ids.Nodup) {n : Expr} (hn : n ∈ s.nodes)
    (hid : n.id ∈ s.variableIds) : n.isAccess = true := by
  obtain hid | hid := List.mem_append.mp hid
  · obtain ⟨n', hn', heq⟩ := List.mem_map.mp hid
    obtain ⟨hmem, haccess⟩ := List.mem_filter.mp hn'
    rwa [← nodes_inj h hmem hn heq]
  · obtain ⟨d, hd, heq⟩ := List.mem_map.mp hid
    exact absurd heq.symm (node_ne_declaration h hn hd)

/-- A node that is listed among the functions is a call. -/
private theorem isCall_of_mem (h : s.ids.Nodup) {n : Expr} (hn : n ∈ s.nodes)
    (hid : n.id ∈ s.functionIds) : n.isCall = true := by
  obtain hid | hid := List.mem_append.mp hid
  · obtain ⟨n', hn', heq⟩ := List.mem_map.mp hid
    obtain ⟨hmem, hcall⟩ := List.mem_filter.mp hn'
    rwa [← nodes_inj h hmem hn heq]
  · obtain ⟨m, hm, heq⟩ := List.mem_map.mp hid
    exact absurd heq.symm (node_ne_method h hn hm)

/-- The id of a declaration is neither that of an expression nor that of a function. -/
private theorem declaration_not_mem (h : s.ids.Nodup) {d : Declaration} (hd : d ∈ s.declarations) :
    d.id ∉ s.expressionIds ∧ d.id ∉ s.functionIds := by
  have hnode : ∀ n ∈ s.nodes, n.id ≠ d.id := fun n hn => node_ne_declaration h hn hd
  have hmethod : ∀ m ∈ s.methods, d.id ≠ m.id := fun m hm => declaration_ne_method h hd hm
  constructor
  · intro hid
    obtain ⟨n, hn, heq⟩ := List.mem_map.mp hid
    exact hnode n hn heq
  -- A function id is that of a call or of a method.
  · intro hid
    obtain hid | hid := List.mem_append.mp hid
    · obtain ⟨n, hn, heq⟩ := List.mem_map.mp hid
      exact hnode n (List.mem_filter.mp hn).1 heq
    · obtain ⟨m, hm, heq⟩ := List.mem_map.mp hid
      exact hmethod m hm heq.symm

/-- The id of a method is neither that of an expression nor that of a variable. -/
private theorem method_not_mem (h : s.ids.Nodup) {m : Method} (hm : m ∈ s.methods) :
    m.id ∉ s.expressionIds ∧ m.id ∉ s.variableIds := by
  have hnode : ∀ n ∈ s.nodes, n.id ≠ m.id := fun n hn => node_ne_method h hn hm
  constructor
  · intro hid
    obtain ⟨n, hn, heq⟩ := List.mem_map.mp hid
    exact hnode n hn heq
  -- A variable id is that of a name in an expression or of a declaration.
  · intro hid
    obtain hid | hid := List.mem_append.mp hid
    · obtain ⟨n, hn, heq⟩ := List.mem_map.mp hid
      exact hnode n (List.mem_filter.mp hn).1 heq
    · obtain ⟨d, hd, heq⟩ := List.mem_map.mp hid
      exact declaration_ne_method h hd hm heq

end Source

/-! ## Programs with more methods -/

/-- The program `s'` has the globals of `s` and all its methods. -/
structure Source.Extends (s' s : Source) : Prop where
  fields : s'.fields = s.fields
  methods : s.methods ⊆ s'.methods

namespace Source.Extends

variable {s s' : Source}

/-- A program that extends another has its nodes. -/
theorem nodes (h : s'.Extends s) : s.nodes ⊆ s'.nodes := by
  intro n hn
  obtain ⟨e, he, hne⟩ := List.mem_flatMap.mp hn
  refine List.mem_flatMap.mpr ⟨e, ?_, hne⟩
  obtain he | he := List.mem_append.mp he
  · rw [← h.fields] at he
    exact List.mem_append_left _ he
  · obtain ⟨m, hm, hbody⟩ := List.mem_flatMap.mp he
    exact List.mem_append_right _ (List.mem_flatMap.mpr ⟨m, h.methods hm, hbody⟩)

/-- A program that extends another has its declarations. -/
theorem declarations (h : s'.Extends s) : s.declarations ⊆ s'.declarations := by
  intro d hd
  obtain hd | hd := List.mem_append.mp hd
  · rw [← h.fields] at hd
    exact List.mem_append_left _ hd
  · obtain ⟨m, hm, hbody⟩ := List.mem_flatMap.mp hd
    exact List.mem_append_right _ (List.mem_flatMap.mpr ⟨m, h.methods hm, hbody⟩)

/-- What is recorded of the smaller program only, is recorded within the larger one. -/
theorem within (h : s'.Extends s) {a : Analysis}
    (ha : a.Within (· ∈ s.expressionIds) (· ∈ s.variableIds) (· ∈ s.functionIds)) :
    a.Within (· ∈ s'.expressionIds) (· ∈ s'.variableIds) (· ∈ s'.functionIds) where
  type := fun id hid => List.map_subset _ h.nodes (ha.type id hid)
  binding := fun id hid => by
    obtain hid | hid := List.mem_append.mp (ha.binding id hid)
    · exact List.mem_append_left _ (List.map_subset _ (List.filter_subset _ h.nodes) hid)
    · exact List.mem_append_right _ (List.map_subset _ h.declarations hid)
  function := fun id hid => by
    obtain hid | hid := List.mem_append.mp (ha.function id hid)
    · exact List.mem_append_left _ (List.map_subset _ (List.filter_subset _ h.nodes) hid)
    · exact List.mem_append_right _ (List.map_subset _ h.methods hid)

/-- If no method stands twice in the smaller program, it repeats no number either. -/
private theorem nodup_ids (h : s'.Extends s) (hids : s'.ids.Nodup) (hmethods : s.methods.Nodup) :
    s.ids.Nodup := by
  obtain ⟨l, hperm, hsublist⟩ := List.subperm_of_subset hmethods h.methods
  have hbodies : (s.methods.flatMap Method.ids).Perm (l.flatMap Method.ids) :=
    (hperm.flatMap_right Method.ids).symm
  have hids' : (s.fields.flatMap Declaration.ids ++ l.flatMap Method.ids).Nodup := by
    rw [← h.fields]
    exact hids.sublist ((List.Sublist.refl _).append (hsublist.flatMap Method.ids))
  exact (hbodies.append_left _).nodup_iff.mpr hids'

end Source.Extends

/-- Two tables that record nothing beyond `T`, `V` and `F` agree on a node if they agree on what
    is due there. -/
private theorem Analysis.Within.entry_eq {T V F : NodeId → Prop} {a a' : Analysis}
    (h : a.Within T V F)
    (h' : a'.Within T V F) {id : NodeId} (htype : T id → a'.type? id = a.type? id)
    (hbinding : V id → a'.binding? id = a.binding? id)
    (hfunction : F id → a'.function? id = a.function? id) : a'.entry id = a.entry id := by
  -- Outside the given ids both tables are empty.
  have hagree : ∀ {β : Type} {x y : Option β} {P : Prop}, (x.isSome = true → P) →
      (y.isSome = true → P) → (P → y = x) → y = x := by
    intro β x y P hx hy heq
    cases x with
    | some _ => exact heq (hx rfl)
    | none =>
      cases y with
      | some _ => exact heq (hy rfl)
      | none => rfl
  simp only [entry, hagree (h.type id) (h'.type id) htype,
    hagree (h.binding id) (h'.binding id) hbinding,
    hagree (h.function id) (h'.function id) hfunction]

/-! ## Methods have different keys -/

/-- A method is bound under a key that was free. -/
private theorem MethodTyped.binds {R : Rules} {Γ Γ' : StaticScopes} {m : Method}
    {signature : Signature} (h : MethodTyped R Γ m signature Γ') (hΓ : Located 1 0 Γ) :
    Located 1 0 Γ' ∧ Γ.found (·.functions.get? m.key) 0 = none ∧
      ∀ key, Γ'.found (·.functions.get? key) 0 =
        if key = m.key then some ⟨m.name, signature⟩ else Γ.found (·.functions.get? key) 0 := by
  obtain @⟨parameters, _, returns, _, _, _, hannotated, _, _, hdefine, _, _, _, _⟩ := h
  obtain ⟨hfree, rfl⟩ := defineFunction_eq_ok_iff.mp hdefine
  rw [hΓ.current_eq, place_zero] at hfree
  have hΓ₁ := hΓ.redefineFunction m.name parameters.length
  rw [Method.key, hannotated.length_eq]
  refine ⟨(hΓ₁ _).redefineFunction _ _ _, hfree, ?_⟩
  -- The method is bound twice, before its body is checked and after, under the same key.
  intro key
  rw [found_function_redefineFunction (hΓ₁ _), found_function_redefineFunction hΓ]
  split <;> rfl

/-- No two methods of a program have one key, and none has a key that was taken before. -/
private theorem MethodsTyped.distinct {R : Rules} : ∀ {methods : List Method} {Γ Γ' : StaticScopes},
    MethodsTyped R Γ methods Γ' → Located 1 0 Γ → (methods.map Method.key).Nodup ∧
      ∀ m ∈ methods, Γ.found (·.functions.get? m.key) 0 = none
  | [], _, _, .nil, _ => ⟨.nil, fun _ h => nomatch h⟩
  | m :: rest, Γ, Γ', .cons hm hrest, hΓ => by
    obtain ⟨hΓ₁, hfree, hfound⟩ := hm.binds hΓ
    obtain ⟨hnodup, hrestFree⟩ := hrest.distinct hΓ₁
    -- A key that is free behind the method is another one, and was free before.
    have hother : ∀ m' ∈ rest, m'.key ≠ m.key ∧ Γ.found (·.functions.get? m'.key) 0 = none := by
      intro m' hm'
      have hnone := hrestFree m' hm'
      rw [hfound] at hnone
      by_cases hkey : m'.key = m.key
      · rw [if_pos hkey] at hnone
        exact nomatch hnone
      · rw [if_neg hkey] at hnone
        exact ⟨hkey, hnone⟩
    constructor
    · rw [List.map_cons, List.nodup_cons]
      refine ⟨fun hmem => ?_, hnodup⟩
      obtain ⟨m', hm', hkey⟩ := List.mem_map.mp hmem
      exact (hother m' hm').1 hkey
    · exact List.forall_mem_cons.mpr ⟨hfree, fun m' hm' => (hother m' hm').2⟩

/-- More methods above bring more functions into scope. -/
theorem InScope.mono {a : Analysis} {base : FunctionKey → FunctionBinding → Prop}
    {above above' : List Method} {key : FunctionKey} {binding : FunctionBinding}
    (h : InScope a base above key binding) (hsub : above ⊆ above') :
    InScope a base above' key binding := by
  cases h with
  | base hbase => exact .base hbase
  | method hm hrecorded => exact .method (hsub hm) hrecorded

/-- What is known behind the methods `above` if the scopes before them are `Γ`. -/
abbrev Analysis.Behind (a : Analysis) (Γ : StaticScopes) (above : List Method) :
    FunctionKey → FunctionBinding → Prop :=
  InScope a (fun key binding => Γ.found (·.functions.get? key) 0 = some binding) above

/-- Outside all methods only the natives are offered. -/
theorem Scopes.Located.offers {Γ : StaticScopes} (h : Located 1 0 Γ) (a : Analysis) :
    Γ.Offers (a.Behind Γ []) 0 :=
  ⟨h, fun _ _ hfound => .base hfound⟩

/-- Only what was known before and the methods themselves are known behind them. -/
theorem MethodsTyped.inScope {r : Registry} {a : Analysis}
    {base : FunctionKey → FunctionBinding → Prop} : ∀ {methods above : List Method}
    {Γ Γ' : StaticScopes}, MethodsTyped (a.rules r) Γ methods Γ' →
    Γ.Offers (InScope a base above) 0 → Γ'.Offers (InScope a base (above ++ methods)) 0
  | [], above, _, _, .nil, hΓ => by rwa [List.append_nil]
  | m :: rest, above, _, _, .cons hm hrest, hΓ => by
    rw [List.append_cons]
    exact hrest.inScope (hm.inScope hΓ).1

/-! ## Both programs are recorded alike -/

/-- The natives leave one pair of scopes. -/
theorem NativesTyped.unique : ∀ {natives : List Native} {Γ Γ₁ Γ₂ : StaticScopes},
    NativesTyped Γ natives Γ₁ → NativesTyped Γ natives Γ₂ → Γ₂ = Γ₁
  | [], _, _, _, .nil, .nil => rfl
  | _ :: _, _, _, _, .cons hdefine hrest, .cons hdefine' hrest' => by
    obtain rfl := Except.ok.inj (hdefine'.symm.trans hdefine)
    exact hrest.unique hrest'

/-- Natives are bound in the global frame. -/
theorem NativesTyped.located : ∀ {natives : List Native} {Γ Γ' : StaticScopes},
    NativesTyped Γ natives Γ' → Located 1 0 Γ → Located 1 0 Γ'
  | [], _, _, .nil, hΓ => hΓ
  | _ :: _, _, _, .cons hdefine hrest, hΓ => by
    obtain ⟨_, rfl⟩ := defineFunction_eq_ok_iff.mp hdefine
    exact hrest.located (hΓ.redefineFunction _ _ _)

/-- Fields are variables, so they do not change the shape. -/
theorem FieldsTyped.sameShape {R : Rules} : ∀ {fields : List Declaration} {Γ Γ' : StaticScopes},
    FieldsTyped R Γ fields Γ' → SameShape Γ Γ'
  | [], _, _, .nil => .refl _
  | _ :: _, _, _, .cons hd hrest => hd.grows.shape.trans hrest.sameShape

/-- Two derivations for the fields leave compatible scopes. -/
theorem FieldsTyped.paired {r : Registry} {a a' : Analysis} : ∀ {fields : List Declaration}
    {Γ Γ' Γ₁ Γ₁' : StaticScopes}, Compatible 0 Γ Γ' → FieldsTyped (a.rules r) Γ fields Γ₁ →
    FieldsTyped (a'.rules r) Γ' fields Γ₁' →
    Compatible 0 Γ₁ Γ₁' ∧ a.SameOn a' (fields.flatMap (·.initializer.toList)) fields
  | [], _, _, _, _, hΓ, .nil, .nil => ⟨hΓ, .nil⟩
  | _ :: _, _, _, _, _, hΓ, .cons hd hrest, .cons hd' hrest' => by
    obtain ⟨hΓ₁, hsame⟩ := hd.paired hΓ hd'
    obtain ⟨hΓ₂, hsame'⟩ := hrest.paired hΓ₁ hrest'
    exact ⟨hΓ₂, hsame.append hsame'⟩

/-- Two programs of which the second extends the first, with the scopes `Γ` and `Γ'` between their
    globals and their methods. -/
structure Alongside (r : Registry) (s s' : Source) (a a' : Analysis) (Γ Γ' : StaticScopes) :
    Prop where
  includes : s'.Extends s
  natives : ∃ Γ₀, NativesTyped Scopes.new r.functions Γ₀ ∧ SameShape Γ₀ Γ
  compatible : Compatible 0 Γ Γ'
  functions : ∀ key, Γ'.found (·.functions.get? key) 0 = Γ.found (·.functions.get? key) 0
  fields : a.SameOn a' (s.fields.flatMap (·.initializer.toList)) s.fields
  methods : ∃ Γ₁ binding, MethodsTyped (a.rules r) Γ s.methods Γ₁ ∧
    Γ₁.function? "main" 0 = some binding
  methods' : ∃ Γ₁, MethodsTyped (a'.rules r) Γ' s'.methods Γ₁

/-- The two programs can be typed side by side, method by method. -/
private theorem SourceTyped.alongside {r : Registry} {s s' : Source} {a a' : Analysis}
    (h : SourceTyped (a.rules r) s) (h' : SourceTyped (a'.rules r) s') (hs : s'.Extends s) :
    ∃ Γ Γ', Alongside r s s' a a' Γ Γ' := by
  obtain @⟨Γ₀, Γ, Γ₁, binding, hnatives, hfields, hmethods, hmain, _, _⟩ := h
  obtain @⟨_, Γ', Γ₁', _, hnatives', hfields', hmethods', _, _, _⟩ := h'
  obtain rfl := hnatives.unique hnatives'
  -- The natives and the fields are the same, so the methods start from compatible scopes.
  rw [hs.fields] at hfields'
  have hΓ₀ := hnatives.located located_new
  have hcompatible : Compatible 0 _ _ :=
    ⟨hΓ₀, hΓ₀, fun _ _ _ => rfl, fun _ _ _ hf hf' => Option.some.inj (hf'.symm.trans hf)⟩
  obtain ⟨hΓ, hsame⟩ := hfields.paired hcompatible hfields'
  refine ⟨Γ, Γ', hs, ⟨_, hnatives, hfields.sameShape⟩, hΓ, ?_, hsame, ⟨Γ₁, binding, hmethods, hmain⟩,
    Γ₁', hmethods'⟩
  intro key
  rw [hfields.sameShape.found_function, hfields'.sameShape.found_function]

namespace Alongside

variable {r : Registry} {s s' : Source} {a a' : Analysis} {Γ Γ' : StaticScopes}

/-- One method more: it is recorded alike if those above it are. -/
theorem method (h : Alongside r s s' a a' Γ Γ') {front back : List Method} {m : Method}
    (hsplit : s.methods = front ++ m :: back)
    (hfront : ∀ n ∈ front, a'.function? n.id = a.function? n.id) :
    a'.function? m.id = a.function? m.id ∧
      a.SameOn a' (Statement.listExprs m.body) (Statement.declarationsAll m.body) := by
  obtain ⟨_, _, hmethods, _⟩ := h.methods
  obtain ⟨_, hmethods'⟩ := h.methods'
  have hm : m ∈ s.methods := by simp [hsplit]
  -- The method stands in the larger program too, with other methods above it.
  obtain ⟨front', back', hsplit'⟩ := List.append_of_mem (h.includes.methods hm)
  obtain ⟨Γ₁, signature, _, htyped, hoffers, hvars⟩ :=
    hmethods.split (h.compatible.left.offers a) front m back hsplit
  obtain ⟨Γ₁', signature', _, htyped', hoffers', hvars'⟩ :=
    hmethods'.split (h.compatible.right.offers a') front' m back' hsplit'
  have hmem : ∀ n ∈ front, n ∈ s.methods := fun n hn => by
    rw [hsplit]
    exact List.mem_append_left _ hn
  have hmem' : ∀ n ∈ front', n ∈ s'.methods := fun n hn => by
    rw [hsplit']
    exact List.mem_append_left _ hn
  obtain ⟨_, hfree⟩ := hmethods.distinct h.compatible.left
  obtain ⟨hkeys', hfree'⟩ := hmethods'.distinct h.compatible.right
  refine MethodTyped.paired ⟨hoffers.located, hoffers'.located, ?_, ?_⟩ htyped htyped'
  · intro name i hi
    rw [hvars, hvars']
    exact h.compatible.vars name i hi
  -- A function that both know is a native for both, or one method above `m` in both programs.
  · intro key binding binding' hfound hfound'
    cases hoffers.offers key binding hfound with
    | base hbase =>
      cases hoffers'.offers key binding' hfound' with
      | base hbase' =>
        rw [h.functions, hbase] at hbase'
        exact (Option.some.inj hbase').symm
      | @method n' _ hn' _ =>
        -- A native and a method cannot share a key within one program.
        have hnone := hfree' n' (hmem' n' hn')
        rw [h.functions, hbase] at hnone
        exact nomatch hnone
    | @method n _ hn hrecorded =>
      generalize hkey : n.key = key at hfound'
      cases hoffers'.offers key binding' hfound' with
      | base hbase' =>
        have hnone := hfree n (hmem n hn)
        rw [hkey, ← h.functions, hbase'] at hnone
        exact nomatch hnone
      | @method n' _ hn' hrecorded' =>
        -- The keys of the larger program are distinct, so both have found the same method.
        obtain rfl := List.inj_on_of_nodup_map hkeys' (h.includes.methods (hmem n hn))
          (hmem' n' hn') hkey
        rw [hfront n hn, hrecorded] at hrecorded'
        exact (Option.some.inj hrecorded').symm

/-- All methods of the smaller program are recorded alike. -/
theorem all_methods (h : Alongside r s s' a a' Γ Γ') :
    ∀ m ∈ s.methods, a'.function? m.id = a.function? m.id ∧
      a.SameOn a' (Statement.listExprs m.body) (Statement.declarationsAll m.body) := by
  have hfront : ∀ front back, s.methods = front ++ back → ∀ m ∈ front,
      a'.function? m.id = a.function? m.id ∧
        a.SameOn a' (Statement.listExprs m.body) (Statement.declarationsAll m.body) := by
    intro front
    -- Induction from above: a method calls only those above it, and itself.
    induction front using List.reverseRecOn with
    | nil => exact fun _ _ _ hm => nomatch hm
    | append_singleton front m ih =>
      intro back hsplit
      rw [List.append_assoc, List.singleton_append] at hsplit
      have habove := ih (m :: back) hsplit
      have hm := h.method hsplit fun n hn => (habove n hn).1
      intro n hn
      obtain hn | hn := List.mem_append.mp hn
      · exact habove n hn
      · rwa [List.mem_singleton.mp hn]
  exact hfront s.methods [] (List.append_nil _).symm

end Alongside

/-! ## The side tables -/

/-- No method stands twice in an accepted program. -/
private theorem analyze_nodup_methods {r : Registry} {s : Source} {a : Analysis}
    (h : analyze r s = .ok a) : s.methods.Nodup := by
  have hlax : (Rules.lax r).Lax := fun _ _ =>
    ⟨fun _ _ => trivial, fun _ _ => trivial, fun _ _ => trivial⟩
  have htyped : SourceTyped (Rules.lax r) s :=
    analyze_typed h (.inl hlax) fun _ _ _ _ _ _ _ => trivial
  obtain ⟨hnatives, hfields, hmethods, _, _, _⟩ := htyped
  have hΓ := hfields.sameShape.located (hnatives.located located_new)
  exact (hmethods.distinct hΓ).1.of_map

section Conservative

variable {r : Registry} {s s' : Source} {a a' : Analysis}

/-- Two programs that both pass the analysis can be typed side by side. -/
private theorem analyze_alongside (h : analyze r s = .ok a) (h' : analyze r s' = .ok a')
    (hs : s'.Extends s) (hids : s'.ids.Nodup) : ∃ Γ Γ', Alongside r s s' a a' Γ Γ' :=
  (analyze_recorded h (hs.nodup_ids hids (analyze_nodup_methods h))).alongside
    (analyze_recorded h' hids) hs

/-- Both side tables have the same entry for every node of the smaller program. -/
theorem analyze_conservative (h : analyze r s = .ok a) (h' : analyze r s' = .ok a')
    (hs : s'.Extends s) (hids : s'.ids.Nodup) : ∀ id ∈ s.ids, a'.entry id = a.entry id := by
  obtain ⟨Γ, Γ', hpair⟩ := analyze_alongside h h' hs hids
  have hmethods := hpair.all_methods
  have hexprs : ∀ n ∈ s.nodes, a.SameAt a' n := by
    intro n hn
    obtain ⟨e, he, hne⟩ := List.mem_flatMap.mp hn
    obtain he | he := List.mem_append.mp he
    · exact hpair.fields.exprs e he n hne
    · obtain ⟨m, hm, he⟩ := List.mem_flatMap.mp he
      exact (hmethods m hm).2.exprs e he n hne
  have hdeclarations : ∀ d ∈ s.declarations, a'.binding? d.id = a.binding? d.id := by
    intro d hd
    obtain hd | hd := List.mem_append.mp hd
    · exact hpair.fields.declarations d hd
    · obtain ⟨m, hm, hd⟩ := List.mem_flatMap.mp hd
      exact (hmethods m hm).2.declarations d hd
  have hwithin := hs.within (analyze_within h)
  have hwithin' := analyze_within h'
  intro id hid
  -- Which of the three kinds of entries are due depends on what the number stands for.
  obtain hid | hid := List.mem_append.mp (s.ids_perm.mem_iff.mp hid)
  · obtain ⟨n, hn, rfl⟩ := List.mem_map.mp hid
    have hn' := hs.nodes hn
    exact hwithin.entry_eq hwithin' (fun _ => (hexprs n hn).type)
      (fun hvar => (hexprs n hn).binding (Source.isAccess_of_mem hids hn' hvar))
      fun hfun => (hexprs n hn).function (Source.isCall_of_mem hids hn' hfun)
  obtain hid | hid := List.mem_append.mp hid
  · obtain ⟨d, hd, rfl⟩ := List.mem_map.mp hid
    obtain ⟨hexpr, hfun⟩ := Source.declaration_not_mem hids (hs.declarations hd)
    exact hwithin.entry_eq hwithin' (fun hmem => absurd hmem hexpr)
      (fun _ => hdeclarations d hd) fun hmem => absurd hmem hfun
  · obtain ⟨m, hm, rfl⟩ := List.mem_map.mp hid
    obtain ⟨hexpr, hvar⟩ := Source.method_not_mem hids (hs.methods hm)
    exact hwithin.entry_eq hwithin' (fun hmem => absurd hmem hexpr)
      (fun hmem => absurd hmem hvar) fun _ => (hmethods m hm).1

end Conservative

/-! ## Binding the methods -/

/-- The functions with the given methods among them. -/
def Table.withMethods (t : Table FunctionKey Callable) (methods : List Method) :
    Table FunctionKey Callable :=
  methods.foldl (fun t m => t.insert m.key (.method m)) t

/-- Methods of other keys do not matter. -/
private theorem Table.get?_withMethods_of_not_mem : ∀ {methods : List Method}
    {t : Table FunctionKey Callable} {key : FunctionKey}, key ∉ methods.map Method.key →
    (t.withMethods methods).get? key = t.get? key
  | [], _, _, _ => rfl
  | m :: rest, t, key, hkey => by
    rw [List.map_cons, List.mem_cons, not_or] at hkey
    show ((t.insert m.key (.method m)).withMethods rest).get? key = _
    rw [get?_withMethods_of_not_mem hkey.2, get?_insert, if_neg hkey.1]

/-- A method is found under its key. -/
private theorem Table.get?_withMethods_of_mem :
    ∀ {methods : List Method} {t : Table FunctionKey Callable}
    {m : Method}, (methods.map Method.key).Nodup → m ∈ methods →
    (t.withMethods methods).get? m.key = some (.method m)
  | first :: rest, t, m, hkeys, hm => by
    rw [List.map_cons, List.nodup_cons] at hkeys
    show ((t.insert first.key (.method first)).withMethods rest).get? m.key = _
    obtain rfl | hm := List.mem_cons.mp hm
    · rw [get?_withMethods_of_not_mem hkeys.1, get?_insert, if_pos rfl]
    · exact get?_withMethods_of_mem hkeys.2 hm

namespace Scopes

variable {V F : Type} {s : Scopes V F} {table : Table FunctionKey F}

/-- Grafting the functions that are there changes nothing. -/
private theorem graft_self (h : s.frames[0]?.map (·.functions) = some table) :
    s.graft table = s := by
  obtain ⟨f, hf, rfl⟩ := Option.map_eq_some_iff.mp h
  have hframes : (s.graft f.functions).frames = s.frames := by
    apply Array.ext_getElem?
    intro i
    rw [graft_frame]
    by_cases hi : i = 0
    · rw [if_pos hi, hi, hf, Option.map_some]
    · rw [if_neg hi]
  exact congrArg (Scopes.mk · s.current) hframes

/-- A function that is defined globally is one more in the global frame. -/
private theorem redefineFunction_eq_graft (h : s.frames[0]?.map (·.functions) = some table)
    (hcurrent : s.current = 0) (name : String) (arity : Nat) (function : F) :
    s.redefineFunction name arity function = s.graft (table.insert (name, arity) function) := by
  obtain ⟨f, hf, rfl⟩ := Option.map_eq_some_iff.mp h
  have hframes : (s.redefineFunction name arity function).frames =
      (s.graft (f.functions.insert (name, arity) function)).frames := by
    apply Array.ext_getElem?
    intro i
    rw [redefineFunction_frame, graft_frame, hcurrent]
    -- Only the global frame is touched by either.
    by_cases hi : i = 0
    · rw [if_pos hi, if_pos hi, hi, hf, Option.map_some, Option.map_some]
    · rw [if_neg hi, if_neg hi]
  exact congrArg (Scopes.mk · s.current) hframes

end Scopes

/-- Methods with different keys that are free are bound one after the other. -/
private theorem defineMethods_eq : ∀ {methods : List Method} {t : Table FunctionKey Callable}
    {m : Machine}, Located 1 0 m.scopes → m.scopes.frames[0]?.map (·.functions) = some t →
    (methods.map Method.key).Nodup → (∀ n ∈ methods, t.get? n.key = none) →
    methods.forM defineMethod m = .ok () { m with scopes := m.scopes.graft (t.withMethods methods) }
  | [], t, m, _, ht, _, _ => by
    show EStateM.Result.ok () m = .ok () { m with scopes := m.scopes.graft t }
    rw [graft_self ht]
  | n :: rest, t, m, hm, ht, hkeys, hfree => by
    rw [List.map_cons, List.nodup_cons] at hkeys
    rw [List.forall_mem_cons] at hfree
    have hgraft := redefineFunction_eq_graft ht hm.current_eq n.name n.parameters.length (.method n)
    have hm₁ := hm.redefineFunction n.name n.parameters.length (.method n)
    -- The name is free, so the method is bound in the global frame.
    have hdefine : m.scopes.defineFunction n.name n.parameters.length (.method n) =
        .ok (m.scopes.redefineFunction n.name n.parameters.length (.method n)) := by
      obtain ⟨f, hf, rfl⟩ := Option.map_eq_some_iff.mp ht
      refine defineFunction_eq_ok_iff.mpr ⟨?_, rfl⟩
      rw [hm.current_eq, place_zero, found, hf, Option.bind_some]
      exact hfree.1
    have ht₁ : (m.scopes.redefineFunction n.name n.parameters.length
        (.method n)).frames[0]?.map (·.functions) = some (t.insert n.key (.method n)) := by
      obtain ⟨f, hf, _⟩ := Option.map_eq_some_iff.mp ht
      rw [hgraft, graft_frame, if_pos rfl, hf]
      rfl
    -- It takes no other name.
    have hfree₁ : ∀ n' ∈ rest, (t.insert n.key (.method n)).get? n'.key = none := by
      intro n' hn'
      rw [Table.get?_insert, if_neg, hfree.2 n' hn']
      exact fun hkey => hkeys.1 (List.mem_map.mpr ⟨n', hn', hkey⟩)
    have hfirst : defineMethod n m = .ok () { m with
        scopes := m.scopes.redefineFunction n.name n.parameters.length (.method n) } := by
      simp only [defineMethod, Exec.defineFunction, changeScopes, hdefine]
    have hrest := defineMethods_eq (m := { m with
      scopes := m.scopes.redefineFunction n.name n.parameters.length (.method n) })
      hm₁ ht₁ hkeys.2 hfree₁
    show (defineMethod n >>= fun _ => rest.forM defineMethod) m = _
    simp only [Bind.bind, EStateM.bind, hfirst, hrest]
    rw [hgraft, graft_graft]
    rfl

/-- Between runs, a machine may be given any functions. -/
private theorem Machine.grafted_of_located {m : Machine} (h : Located 1 0 m.scopes)
    (table table' : Table FunctionKey Callable) :
    Grafted table table' { m with scopes := m.scopes.graft table }
      { m with scopes := m.scopes.graft table' } where
  functionsGlobal := by
    intro i f hi hf
    -- There is no frame but the global one.
    have hlt := (Array.getElem?_eq_some_iff.mp hf).1
    have hsize := h.size_eq
    rw [graft_size] at hlt
    omega
  table_eq := by
    obtain ⟨f, hf, _⟩ := h.globalFrame
    show (m.scopes.graft table).frames[0]?.map _ = _
    rw [graft_frame, if_pos rfl, hf]
    rfl
  scopes_eq := (graft_graft _).symm
  world_eq := rfl
  calls_eq := rfl

/-! ## Both runs end alike -/

/-- Globals leave the functions alone. -/
private theorem fields_sameShape (env : Env) (fields : List Declaration) {m : Machine}
    (h : m.scopes.Rooted) :
    Ends (fields.forM (declare env (invoke env))) m (fun _ m' => SameShape m.scopes m'.scopes)
      (fun _ _ => True) := by
  have hdefine : ∀ (m' : Machine) name value, SameShape m.scopes m'.scopes →
      Ends (Exec.defineVariable name value) m' (fun _ m'' => SameShape m.scopes m''.scopes)
        (fun _ _ => True) := by
    intro m' name value hshape
    rw [ends_defineVariable]
    cases hd : m'.scopes.defineVariable name value with
    | error e => trivial
    | ok scopes =>
      obtain ⟨_, rfl⟩ := defineVariable_eq_ok_iff.mp hd
      exact hshape.trans (sameShape_store _ _ _ _)
  -- Every field leaves the shape that it found.
  refine ends_forM (I := fun m' : Machine => SameShape m.scopes m'.scopes) ?_ (.refl _)
  intro d _ m' hshape
  unfold declare
  cases d.initializer with
  | none => exact hdefine m' _ _ hshape
  | some e =>
    have hquiet := quiet_evaluate env (quiet_invoke env) e m' (hshape.rooted h) 0 (Nat.zero_le _)
    have hkeeps : Ends (evaluate env (invoke env) e) m'
        (fun _ m'' => SameShape m.scopes m''.scopes) (fun _ _ => True) :=
      hquiet.imp (fun _ _ _ hk => hshape.trans hk.shape) fun _ _ _ _ => trivial
    exact hkeeps.bind fun v m'' _ hshape' => hdefine m'' _ _ hshape'

/-- On a fresh machine there are only natives, and no others than the analysis knows. -/
theorem NativesTyped.machine {r : Registry} {Γ : StaticScopes}
    (h : NativesTyped Scopes.new r.functions Γ) (world : World) :
    ∃ start, Machine.new r world = .ok start ∧
      (∀ key, Γ.found (·.functions.get? key) 0 = none →
        start.scopes.found (·.functions.get? key) 0 = none) ∧
      ∀ key method, start.scopes.found (·.functions.get? key) 0 ≠ some (.method method) := by
  obtain ⟨P, scopes, hrun, hfresh, htop⟩ := AtTop.natives (R := Rules.lax r) (M := .names)
    (AtTop.new trivial) (fun _ _ h => h) h (fun _ h => h)
  refine ⟨⟨scopes, world, 0⟩, by rw [Machine.new, nativeScopes, hrun], ?_, ?_⟩
  · intro key hkey
    exact (htop.agrees.globals.functions key).trans (htop.keys key hkey)
  · intro key method hfound
    rw [htop.agrees.globals.functions key] at hfound
    cases hΓ : Γ.found (·.functions.get? key) 0 with
    | none =>
      rw [htop.keys key hΓ] at hfound
      cases hfound
    | some binding =>
      -- A method would have been checked, and none has been yet.
      obtain ⟨callable, hbound, hmeets⟩ := htop.agrees.knows.functions key binding hΓ
      rw [hfound, Option.some.injEq] at hbound
      subst hbound
      obtain ⟨returns, hchecked, _⟩ := hmeets
      exact hfresh _ _ hchecked

/-- What a run does with the value that `main` returns looks at no function. -/
private theorem unaffected_result {t t' : Table FunctionKey Callable} {x : Exec Value}
    (h : Unaffected t t' x) :
    Unaffected t t' (do
      match ← x with
      | .integer n => return n
      | v => fail (.nonIntegerResult v.typeName)) := by
  refine h.bind fun v => ?_
  cases v with
  | integer n => exact unaffected_pure n
  | _ => exact unaffected_fail _

namespace Alongside

variable {r : Registry} {s s' : Source} {a a' : Analysis} {Γ Γ' : StaticScopes}
  {t : Table FunctionKey Callable}

/-- Both programs bind their methods under free keys. -/
private theorem distinct (h : Alongside r s s' a a' Γ Γ') :
    ((s.methods.map Method.key).Nodup ∧
      ∀ m ∈ s.methods, Γ.found (·.functions.get? m.key) 0 = none) ∧
    (s'.methods.map Method.key).Nodup ∧
      ∀ m ∈ s'.methods, Γ.found (·.functions.get? m.key) 0 = none := by
  obtain ⟨_, _, hmethods, _⟩ := h.methods
  obtain ⟨_, hmethods'⟩ := h.methods'
  obtain ⟨hkeys', hfree'⟩ := hmethods'.distinct h.compatible.right
  exact ⟨hmethods.distinct h.compatible.left, hkeys', fun m hm => h.functions m.key ▸ hfree' m hm⟩

/-- What the smaller program can call is the same function in both. -/
private theorem get?_eq (h : Alongside r s s' a a' Γ Γ') {key : FunctionKey}
    {binding : FunctionBinding} (hkey : a.Behind Γ s.methods key binding) :
    (t.withMethods s.methods).get? key = (t.withMethods s'.methods).get? key := by
  obtain ⟨⟨hkeys, hfree⟩, hkeys', hfree'⟩ := h.distinct
  cases hkey with
  | method hm _ =>
    rw [Table.get?_withMethods_of_mem hkeys hm,
      Table.get?_withMethods_of_mem hkeys' (h.includes.methods hm)]
  | base hbase =>
    -- A native has a key that no method has.
    have hother : ∀ methods : List Method,
        (∀ m ∈ methods, Γ.found (·.functions.get? m.key) 0 = none) →
        key ∉ methods.map Method.key := by
      intro methods hnone hmem
      obtain ⟨m, hm, rfl⟩ := List.mem_map.mp hmem
      rw [hnone m hm] at hbase
      exact nomatch hbase
    rw [Table.get?_withMethods_of_not_mem (hother _ hfree),
      Table.get?_withMethods_of_not_mem (hother _ hfree')]

/-- The methods of the smaller program call only what it has. -/
theorem closed (h : Alongside r s s' a a' Γ Γ')
    (hnatives : ∀ key method, t.get? key ≠ some (.method method)) :
    (t.withMethods s.methods).Closed (t.withMethods s'.methods) := by
  intro key m hget e he id name items hcall
  obtain ⟨_, _, hmethods, _⟩ := h.methods
  -- What is bound as a method is one of the program.
  have hm : m ∈ s.methods := by
    by_cases hmem : key ∈ s.methods.map Method.key
    · obtain ⟨m', hm', rfl⟩ := List.mem_map.mp hmem
      rw [Table.get?_withMethods_of_mem h.distinct.1.1 hm', Option.some.injEq,
        Callable.method.injEq] at hget
      rwa [← hget]
    · rw [Table.get?_withMethods_of_not_mem hmem] at hget
      exact absurd hget (hnatives key m)
  obtain ⟨front, back, hsplit⟩ := List.append_of_mem hm
  obtain ⟨_, signature, _, htyped, hoffers, _⟩ :=
    hmethods.split (h.compatible.left.offers a) front m back hsplit
  have habove : front ⊆ s.methods := by
    rw [hsplit]
    exact List.subset_append_left _ _
  obtain ⟨_, hcontents⟩ : _ ∧ Contents (a.rules r)
      (fun key _ => ∃ binding, a.Behind Γ s.methods key binding) _ _ _ _ :=
    htyped.contents hoffers (fun key binding hknown => ⟨binding, hknown.mono habove⟩)
      fun _ _ _ hrecorded _ => ⟨_, .method hm hrecorded⟩
  obtain ⟨_, _, binding, hknown⟩ := (hcontents.consistent he).1 id name items hcall
  exact h.get?_eq hknown

/-- The call of `main` ends alike in both programs. -/
private theorem unaffected_main (h : Alongside r s s' a a' Γ Γ')
    (hnatives : ∀ key method, t.get? key ≠ some (.method method)) (env : Env) :
    Unaffected (t.withMethods s.methods) (t.withMethods s'.methods)
      (call (invoke env) "main" []) := by
  obtain ⟨_, _, hmethods, hmain⟩ := h.methods
  have hknown := (hmethods.inScope (h.compatible.left.offers a)).function hmain
  exact unaffected_call (unaffected_invokeWithin env (h.closed hnatives) _) (h.get?_eq hknown)

/-- Both runs end alike, with the same objects and the same output. -/
theorem execute (h : Alongside r s s' a a' Γ Γ') {start : Machine} (hrest : start.Resting)
    (hkeys : ∀ key, Γ.found (·.functions.get? key) 0 = none →
      start.scopes.found (·.functions.get? key) 0 = none)
    (hnatives : ∀ key method, start.scopes.found (·.functions.get? key) 0 ≠ some (.method method))
    (env : Env) : SameEnd (fun m m' => m'.world = m.world) (Exec.execute env s start)
      (Exec.execute env s' start) := by
  obtain ⟨⟨hnodup, hfree⟩, hnodup', hfree'⟩ := h.distinct
  unfold Exec.execute
  rw [h.includes.fields]
  cases hfields : s.fields.forM (declare env (invoke env)) start with
  | error e m₀ =>
    simp only [Bind.bind, EStateM.bind, hfields]
    exact ⟨rfl, rfl⟩
  | ok _ m₀ =>
    have hshape := (fields_sameShape env s.fields hrest.located.rooted).of_ok hfields
    have hm₀ := hshape.located hrest.located
    obtain ⟨f, hf, _⟩ := hm₀.globalFrame
    have htable : m₀.scopes.frames[0]?.map (·.functions) = some f.functions := by
      rw [hf, Option.map_some]
    -- The functions behind the globals are those of the fresh machine.
    have hget : ∀ key, f.functions.get? key = start.scopes.found (·.functions.get? key) 0 := by
      intro key
      rw [← hshape.found_function, found, hf, Option.bind_some]
    have hunbound : ∀ methods : List Method,
        (∀ m ∈ methods, Γ.found (·.functions.get? m.key) 0 = none) →
        ∀ m ∈ methods, f.functions.get? m.key = none := by
      intro methods hnone m hm
      rw [hget]
      exact hkeys m.key (hnone m hm)
    have hdefine := defineMethods_eq hm₀ htable hnodup (hunbound _ hfree)
    have hdefine' := defineMethods_eq hm₀ htable hnodup' (hunbound _ hfree')
    have hcall := h.unaffected_main (t := f.functions)
      (fun key method hmethod => hnatives key method (hget key ▸ hmethod)) env
    simp only [Bind.bind, EStateM.bind, hfields, hdefine, hdefine']
    have hgrafted := Machine.grafted_of_located hm₀
    exact (unaffected_result hcall _ _ (hgrafted _ _)).imp fun _ _ hend => hend.world_eq

end Alongside

/-- A session answers alike to programs that end alike. -/
private theorem Session.answers_alike {session : Session} {rounds : Nat} {s s' : Source}
    (h : SameEnd (fun m m' : Machine => m'.world = m.world)
      (Exec.execute ⟨session.registry.objects, rounds⟩ s session.machine)
      (Exec.execute ⟨session.registry.objects, rounds⟩ s' session.machine)) :
    (session.execute rounds s').map (fun answer => (answer.1, answer.2.output)) =
      (session.execute rounds s).map (fun answer => (answer.1, answer.2.output)) := by
  unfold Session.execute
  -- The two runs end alike, and the answer shows how a run ended and what was written.
  cases hs : Exec.execute ⟨session.registry.objects, rounds⟩ s session.machine <;>
    cases hs' : Exec.execute ⟨session.registry.objects, rounds⟩ s' session.machine <;>
    rw [hs, hs'] at h
  · obtain ⟨rfl, hworld⟩ := h
    simp [Session.output, hworld]
  · exact h.elim
  · exact h.elim
  · obtain ⟨rfl, hworld⟩ := h
    rename_i halt _ _
    cases halt <;> simp [Session.output, hworld]

/-- If two accepted programs have the same globals and the second has all methods of the first,
    in any order and among any others, then both side tables have the same entries for the nodes of
    the first, and on fresh machines both end alike and write the same output.  A `WHILE` that
    never ends uses up any number of rounds in both. -/
theorem methods_are_conservative {r : Registry} {s s' : Source} {a a' : Analysis}
    (h : analyze r s = .ok a) (h' : analyze r s' = .ok a') (hfields : s'.fields = s.fields)
    (hmethods : ∀ m ∈ s.methods, m ∈ s'.methods) (hids : s'.ids.Nodup) :
    (∀ id ∈ s.ids, a'.entry id = a.entry id) ∧
    ∀ world, ∃ session, Session.start r world = .ok session ∧ ∀ rounds,
      SameEnd (fun m m' : Machine => m'.world = m.world)
        (Exec.execute ⟨r.objects, rounds⟩ s session.machine)
        (Exec.execute ⟨r.objects, rounds⟩ s' session.machine) ∧
      (session.execute rounds s').map (fun answer => (answer.1, answer.2.output)) =
        (session.execute rounds s).map (fun answer => (answer.1, answer.2.output)) := by
  have hs : s'.Extends s := ⟨hfields, hmethods⟩
  refine ⟨analyze_conservative h h' hs hids, fun world => ?_⟩
  obtain ⟨Γ, Γ', hpair⟩ := analyze_alongside h h' hs hids
  obtain ⟨Γ₀, hnatives, hshape⟩ := hpair.natives
  obtain ⟨start, hnew, hkeys, honly⟩ := hnatives.machine world
  -- Both runs start from the machine of the registry, and only the methods differ.
  have hend : ∀ rounds, SameEnd (fun m m' : Machine => m'.world = m.world)
      (Exec.execute ⟨r.objects, rounds⟩ s start) (Exec.execute ⟨r.objects, rounds⟩ s' start) := by
    intro rounds
    refine hpair.execute (Machine.resting_new hnew) (fun key hkey => hkeys key ?_) honly _
    rwa [hshape.found_function] at hkey
  refine ⟨⟨r, start⟩, ?_, fun rounds => ⟨hend rounds, Session.answers_alike (hend rounds)⟩⟩
  rw [Session.start, hnew]
  rfl

/-- A program with a method that nothing calls, and two that could change places. -/
def unsorted : String :=
  "LET k = 2; DEF unused() DO RETURN 1 / 0; END DEF twice(n: Integer) DO RETURN k * n; END
  DEF next() DO k = k + 1; print(k); RETURN k; END DEF main() DO RETURN twice(next()); END"

/-- The program with the methods at the given positions only. -/
def Source.select (s : Source) (positions : List Nat) : Source :=
  { s with methods := positions.filterMap (s.methods[·]?) }

/-- Without the first method and with the other two in the other order, the program says and does
    the same. -/
theorem unsorted_is_conservative :
    ∃ source a a', source.methods.map (·.name) = ["unused", "twice", "next", "main"] ∧
      (source.select [2, 1, 3]).methods.map (·.name) = ["next", "twice", "main"] ∧
      analyze .withRange (source.select [2, 1, 3]) = .ok a ∧ analyze .withRange source = .ok a' ∧
      (∀ id ∈ (source.select [2, 1, 3]).ids, a'.entry id = a.entry id) ∧
      ∀ world, ∃ session, Session.start .withRange world = .ok session ∧ ∀ rounds,
        (session.execute rounds source).map (fun answer => (answer.1, answer.2.output)) =
          (session.execute rounds (source.select [2, 1, 3])).map
            (fun answer => (answer.1, answer.2.output)) := by
  -- Both analyses are computed; that they agree is the general result.
  have hcompute : (check .withRange unsorted).toOption.any fun p =>
      (analyze .withRange (p.source.select [2, 1, 3])).isOk &&
        decide (p.source.methods.map (·.name) = ["unused", "twice", "next", "main"] ∧
          (p.source.select [2, 1, 3]).methods.map (·.name) = ["next", "twice", "main"]) := by
    decide +kernel
  obtain ⟨p, hp, hcheck⟩ := exists_of_check hcompute
  rw [Bool.and_eq_true, decide_eq_true_eq] at hcheck
  obtain ⟨hok, hnames, hselected⟩ := hcheck
  obtain ⟨tokens, hparse, hanalyze⟩ := of_check_eq_ok hp
  cases hselect : analyze .withRange (p.source.select [2, 1, 3]) with
  | error e =>
    rw [hselect] at hok
    exact nomatch hok
  | ok a =>
    -- What is selected is one of the methods.
    have hmem : ∀ m ∈ (p.source.select [2, 1, 3]).methods, m ∈ p.source.methods := by
      intro m hm
      obtain ⟨i, _, hi⟩ := List.mem_filterMap.mp hm
      exact List.mem_of_getElem? hi
    obtain ⟨hentries, hruns⟩ :=
      methods_are_conservative hselect hanalyze rfl hmem (nodup_ids_parse hparse)
    refine ⟨p.source, a, p.analysis, hnames, hselected, hselect, hanalyze, hentries, fun world => ?_⟩
    obtain ⟨session, hstart, hends⟩ := hruns world
    exact ⟨session, hstart, fun rounds => (hends rounds).2⟩

end LetLang

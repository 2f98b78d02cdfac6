import LetLang.Native.Action
import LetLang.Proofs.KnownTypes
import LetLang.Proofs.TypeSoundness

/-! # Members of objects

An expression that has the type of an object may stand for `NIL`, and `NIL` has neither fields nor
methods.  That is all that can go wrong: a value that is not `NIL` has the members that its type
promises, as long as the natives keep to their signatures and leave every object of the type that
it was made with.

The argument is about the heap.  Every object has exactly the fields of its type, and each holds
`NIL` or a value of the type of the field (`Registry.HeapTyped`).  Objects are shared, so this has
to hold of the heap as a whole, at every step, and not of one value at a time.

* `Heap.Has`, `Registry.HeapTyped`   values and heaps that keep to their types
* `HeapTyped.read`, `HeapTyped.write`, `HeapTyped.allocate`   what keeps a heap typed
* `Registry.Honours`                 natives that keep to their signatures, up to `NIL`
* `Meaning.lawful_members`           the types of the analysis mean what is on the heap
* `members_missing_only_on_nil`      the result for whole runs
* `fields_missing_on_objects`        natives that change the type of an object, or mistake it for
  another one of the same name, and what comes of it
-/

namespace LetLang

open Scopes Exec

/-! ## Values -/

/-- Whether a value is of a type.  An object is of the type that it was made with, and of no other
    type of that name. -/
def Value.Is (v : Value) : Ty → Prop
  | .any => True
  | .comparable => v.kind.isComparable = true
  | ty => v.kind = ty

/-- A value has its own kind. -/
private theorem Value.is_kind (v : Value) : v.Is v.kind := by
  cases v <;> rfl

/-- Apart from the types of several kinds, a type fixes the kind. -/
theorem Value.Is.kind_eq {v : Value} {ty : Ty} (h : v.Is ty) (hany : ty ≠ .any)
    (hcomparable : ty ≠ .comparable) : v.kind = ty := by
  cases ty with
  | any => exact absurd rfl hany
  | comparable => exact absurd rfl hcomparable
  | _ => exact h

namespace Heap

/-- The value is no object, or it is one that is on the heap. -/
def Contains (h : Heap) : Value → Prop
  | .object address ref => ∃ cell, h.cells[address]? = some cell ∧ cell.ref = ref
  | _ => True

/-- The value is `NIL`, or it is of the type. -/
def Has (h : Heap) (v : Value) (ty : Ty) : Prop := v = .nil ∨ (v.Is ty ∧ h.Contains v)

/-- A place holds `NIL` or a value of the type, or neither type nor place is there. -/
def Holds (h : Heap) (ty : Option Ty) (v : Option Value) : Prop :=
  Option.Rel (fun ty v => h.Has v ty) ty v

/-- No object is lost or becomes one of another type. -/
def Keeps (h h' : Heap) : Prop := ∀ v, h.Contains v → h'.Contains v

/-- A heap keeps another if it has the cells of that one with the types they have. -/
private theorem keeps_of_cells {h h' : Heap}
    (hcells : ∀ (address : Nat) cell, h.cells[address]? = some cell →
      ∃ cell', h'.cells[address]? = some cell' ∧ cell'.ref = cell.ref) : h.Keeps h' := by
  intro v hv
  cases v with
  | object address ref =>
    obtain ⟨cell, hcell, rfl⟩ := hv
    exact hcells address cell hcell
  | _ => trivial

/-- Making an object leaves the others as they are. -/
private theorem keeps_allocate (h : Heap) (ref : ObjectRef) (fields : Table String Value) :
    h.Keeps (h.allocate ref fields).2 := by
  refine keeps_of_cells fun address cell hcell => ⟨cell, ?_, rfl⟩
  -- The address of the new object is not taken.
  have hlt := (Array.getElem?_eq_some_iff.mp hcell).1
  show (h.cells.push ⟨ref, fields⟩)[address]? = _
  rw [Array.getElem?_push, if_neg (Nat.ne_of_lt hlt), hcell]

/-- Values that are no objects need no cell. -/
private theorem contains_of_not_object {h : Heap} {v : Value} (hv : v.isObject = false) :
    h.Contains v := by
  cases v with
  | object address ref => exact nomatch hv
  | _ => trivial

/-- A value keeps its type as long as the heap keeps its objects. -/
theorem Has.keep {h h' : Heap} {v : Value} {ty : Ty} (hv : h.Has v ty) (hk : h.Keeps h') :
    h'.Has v ty :=
  hv.imp id fun hv => ⟨hv.1, hk v hv.2⟩

/-- A field holds what it may as long as the heap keeps its objects. -/
theorem Holds.keep {h h' : Heap} {ty : Option Ty} {v : Option Value} (hv : h.Holds ty v)
    (hk : h.Keeps h') : h'.Holds ty v := by
  cases hv with
  | some hv => exact .some (hv.keep hk)
  | none => exact .none

/-- What has the type of an object is `NIL` or an object of this type. -/
theorem Has.object {h : Heap} {v : Value} {ref : ObjectRef} (hv : h.Has v (.object ref))
    (hnil : v ≠ .nil) : ∃ address, v = .object address ref ∧ h.Contains (.object address ref) := by
  obtain rfl | ⟨hkind, hcontains⟩ := hv
  · exact absurd rfl hnil
  · cases v with
    | object address ref' =>
      cases hkind
      exact ⟨address, rfl, hcontains⟩
    | _ => exact nomatch hkind

/-- An integer or `NIL` is all that the type of integers admits. -/
theorem Has.integer {h : Heap} {v : Value} (hv : h.Has v .integer) :
    v = .nil ∨ ∃ n, v = .integer n := by
  refine hv.imp id fun hv => ?_
  obtain ⟨hkind, _⟩ := hv
  cases v with
  | integer n => exact ⟨n, rfl⟩
  | _ => exact nomatch hkind

end Heap

/-! ## Heaps -/

/-- A table with one value under all its keys. -/
private theorem Table.get?_ofList_map {κ α : Type} [DecidableEq κ] (keys : List κ) (v : α) (k : κ) :
    (Table.ofList (keys.map (·, v))).get? k = if k ∈ keys then some v else none := by
  have hfold : ∀ t : Table κ α,
      ((keys.map (·, v)).foldl (fun t e => t.insert e.1 e.2) t).get? k =
        if k ∈ keys then some v else t.get? k := by
    induction keys with
    | nil => exact fun t => rfl
    | cons key rest ih =>
      intro t
      rw [List.map_cons, List.foldl_cons, ih, get?_insert]
      by_cases hrest : k ∈ rest <;> by_cases hkey : k = key <;> simp [hrest, hkey]
  exact hfold empty

namespace Registry

/-- The fields that objects of a type have.  For a type that is not registered, `outside` says
    which. -/
def fieldsOf (r : Registry) (outside : ObjectRef → Table String Ty) (ref : ObjectRef) :
    Table String Ty :=
  match ref.declaration? r.objects with
  | some object => object.fields
  | none => outside ref

/-- Every object has exactly the fields of its type, and each holds `NIL` or a value of the type of
    the field. -/
def HeapTyped (r : Registry) (outside : ObjectRef → Table String Ty) (h : Heap) : Prop :=
  ∀ (address : Nat) cell, h.cells[address]? = some cell → ∀ name,
    h.Holds ((r.fieldsOf outside cell.ref).get? name) (cell.fields.get? name)

variable {r : Registry} {outside : ObjectRef → Table String Ty}

private theorem heapTyped_empty : r.HeapTyped outside .empty := fun _ _ h => nomatch h

/-- A registered type has the fields that its declaration gives. -/
private theorem fieldsOf_eq {ref : ObjectRef} {object : ObjectType}
    (h : ref.declaration? r.objects = some object) : r.fieldsOf outside ref = object.fields := by
  unfold fieldsOf
  rw [h]

/-- Fields that are known to the analysis are fields that objects of the type have. -/
private theorem fieldsOf_of_field? {ref : ObjectRef} {name : String} {ty : Ty}
    (h : Ty.field? r.objects (.object ref) name = some ty) :
    (r.fieldsOf outside ref).get? name = some ty := by
  obtain ⟨object, hobject, hget⟩ := Option.bind_eq_some_iff.mp h
  rw [fieldsOf_eq hobject, hget]

namespace HeapTyped

variable {h : Heap} {address : Nat} {ref : ObjectRef} {name : String} {ty : Ty}

/-- A field of the type of an object is a field of the object. -/
theorem field (ht : r.HeapTyped outside h) (hc : h.Contains (.object address ref))
    (hf : (r.fieldsOf outside ref).get? name = some ty) :
    ∃ v, h.field? address name = some v ∧ h.Has v ty := by
  obtain ⟨cell, hcell, rfl⟩ := hc
  have hrel := ht address cell hcell name
  rw [hf] at hrel
  unfold Heap.field?
  rw [hcell, Option.bind_some]
  -- The table of the type has the name, so the cell cannot lack it.
  cases hget : cell.fields.get? name with
  | none => rw [hget] at hrel; exact nomatch hrel
  | some v =>
    rw [hget] at hrel
    cases hrel with
    | some hv => exact ⟨v, rfl, hv⟩

/-- A field of the type can be read, and has the type of the field. -/
theorem read (ht : r.HeapTyped outside h) (hc : h.Contains (.object address ref))
    (hf : (r.fieldsOf outside ref).get? name = some ty) :
    ∃ v, h.read (.object address ref) name = .ok v ∧ h.Has v ty := by
  obtain ⟨v, hfield, hv⟩ := ht.field hc hf
  refine ⟨v, ?_, hv⟩
  simp only [Heap.read, hfield]

/-- Writing a value of the type of the field keeps the heap typed, whoever shares the object. -/
theorem write (ht : r.HeapTyped outside h) (hc : h.Contains (.object address ref))
    (hf : (r.fieldsOf outside ref).get? name = some ty) {u : Value} (hu : h.Has u ty) :
    ∃ h', h.write (.object address ref) name u = .ok h' ∧ r.HeapTyped outside h' ∧
      h.Keeps h' := by
  obtain ⟨v, hfield, _⟩ := ht.field hc hf
  obtain ⟨cell, hcell, rfl⟩ := hc
  let h' : Heap := ⟨h.cells.modify address fun cell =>
    { cell with fields := cell.fields.insert name u }⟩
  have hcells : ∀ i : Nat, h'.cells[i]? = if address = i then
      h.cells[i]?.map fun cell => { cell with fields := cell.fields.insert name u }
      else h.cells[i]? := fun i => Array.getElem?_modify
  have hkeeps : h.Keeps h' := by
    refine Heap.keeps_of_cells fun address' cell' hcell' => ?_
    rw [hcells, hcell']
    split
    · exact ⟨_, rfl, rfl⟩
    · exact ⟨_, rfl, rfl⟩
  refine ⟨h', ?_, ?_, hkeeps⟩
  · simp only [Heap.write, hfield, Option.isSome_some, if_true]
    rfl
  · intro address' cell' hcell' name'
    rw [hcells] at hcell'
    -- Only one field of one object has changed; what the others hold is still there.
    by_cases haddress : address = address'
    · subst haddress
      rw [if_pos rfl, hcell, Option.map_some] at hcell'
      cases hcell'
      show h'.Holds _ ((cell.fields.insert name u).get? name')
      rw [Table.get?_insert]
      by_cases hname : name' = name
      · subst hname
        rw [if_pos rfl, hf]
        exact .some (hu.keep hkeeps)
      · rw [if_neg hname]
        exact (ht address cell hcell name').keep hkeeps
    · rw [if_neg haddress] at hcell'
      exact (ht address' cell' hcell' name').keep hkeeps

/-- A new object with the fields of its type, which all hold `NIL`. -/
theorem allocate (ht : r.HeapTyped outside h) {fieldNames : List String}
    (hfields : ∀ name, name ∈ fieldNames ↔ ((r.fieldsOf outside ref).get? name).isSome) :
    let h' := (h.allocate ref (.ofList (fieldNames.map (·, .nil)))).2
    h'.Contains (.object h.cells.size ref) ∧ r.HeapTyped outside h' ∧ h.Keeps h' := by
  intro h'
  let cell : Instance := ⟨ref, .ofList (fieldNames.map (·, .nil))⟩
  have hcells : ∀ i : Nat, h'.cells[i]? = if i = h.cells.size then some cell else h.cells[i]? :=
    fun i => Array.getElem?_push
  have hkeeps : h.Keeps h' := h.keeps_allocate ref _
  refine ⟨⟨cell, by rw [hcells, if_pos rfl], rfl⟩, ?_, hkeeps⟩
  intro address cell' hcell' name
  -- A cell is the new one or one of those that were there.
  rw [hcells] at hcell'
  split at hcell'
  · cases hcell'
    show h'.Holds ((r.fieldsOf outside ref).get? name) (Table.get? (.ofList _) name)
    rw [Table.get?_ofList_map]
    -- The new object has the fields of its type, and all of them hold `NIL`.
    have hname := hfields name
    cases hget : (r.fieldsOf outside ref).get? name with
    | none =>
      rw [hget] at hname
      rw [if_neg (by simpa using hname)]
      exact .none
    | some ty =>
      rw [hget] at hname
      rw [if_pos (hname.mpr rfl)]
      exact .some (.inl rfl)
  · exact (ht address cell' hcell' name).keep hkeeps

end HeapTyped

/-! ## Natives -/

namespace HeapTyped

variable {w : World} {address : Nat} {ref : ObjectRef} {name : String} {ty : Ty}
  {E : RuntimeError → World → Prop}

/-- Reading a field in a native. -/
private theorem ends_readField {Q : Value → World → Prop} (ht : r.HeapTyped outside w.heap)
    (hc : w.heap.Contains (.object address ref))
    (hf : (r.fieldsOf outside ref).get? name = some ty) (hQ : ∀ v, w.heap.Has v ty → Q v w) :
    Ends (NativeM.readField (.object address ref) name) w Q E := by
  obtain ⟨v, hread, hv⟩ := ht.read hc hf
  unfold Ends NativeM.readField
  rw [hread]
  exact hQ v hv

/-- Writing one keeps the heap typed. -/
private theorem ends_writeField {Q : Unit → World → Prop} (ht : r.HeapTyped outside w.heap)
    (hc : w.heap.Contains (.object address ref))
    (hf : (r.fieldsOf outside ref).get? name = some ty) {u : Value} (hu : w.heap.Has u ty)
    (hQ : ∀ heap, r.HeapTyped outside heap → w.heap.Keeps heap → Q () { w with heap := heap }) :
    Ends (NativeM.writeField (.object address ref) name u) w Q E := by
  obtain ⟨heap, hwrite, htyped, hkeeps⟩ := ht.write hc hf hu
  unfold Ends NativeM.writeField
  rw [hwrite]
  exact hQ heap htyped hkeeps

/-- A new object has all the fields of its type. -/
private theorem ends_allocate {Q : Value → World → Prop} (ht : r.HeapTyped outside w.heap)
    {fieldNames : List String}
    (hfields : ∀ name, name ∈ fieldNames ↔ ((r.fieldsOf outside ref).get? name).isSome)
    (hQ : ∀ address heap, heap.Contains (.object address ref) → r.HeapTyped outside heap →
      w.heap.Keeps heap → Q (.object address ref) { w with heap := heap }) :
    Ends (NativeM.allocate ref fieldNames) w Q E := by
  obtain ⟨hcontains, htyped, hkeeps⟩ := ht.allocate hfields
  exact hQ _ _ hcontains htyped hkeeps

end HeapTyped

/-- Called with these values, the native keeps the heap typed and every object what it is, and
    gives `NIL` or a value of the type to return; or it fails. -/
def Delivers (r : Registry) (outside : ObjectRef → Table String Ty) (native : Native)
    (values : List Value) (w : World) : Prop :=
  Ends (native.call values) w
    (fun v w' => w'.heap.Has v native.signature.returns ∧ r.HeapTyped outside w'.heap ∧
      w.heap.Keeps w'.heap)
    (fun _ _ => True)

/-- All natives keep to their signatures, up to `NIL`.  Methods are called on objects of the type
    that has them. -/
structure Honours (r : Registry) (outside : ObjectRef → Table String Ty) : Prop where
  functions : ∀ native ∈ r.functions, ∀ values w, r.HeapTyped outside w.heap →
    List.Forall₂ w.heap.Has values native.signature.parameters → r.Delivers outside native values w
  methods : ∀ ref object key native, ref.declaration? r.objects = some object →
    object.name = ref.name → object.methods.get? key = some native →
    ∀ address values w, r.HeapTyped outside w.heap → w.heap.Contains (.object address ref) →
    List.Forall₂ w.heap.Has values native.signature.parameters.tail →
    r.Delivers outside native (.object address ref :: values) w

end Registry

/-! ## What types stand for -/

/-- A value has a type if it has the known type of that name. -/
def Meaning.members (r : Registry) (outside : ObjectRef → Table String Ty) : Meaning where
  has := fun w v ty => v = .nil ∨ ∃ known, r.Known known ∧ ty.same known ∧ v.Is known ∧
    w.heap.Contains v
  valid := fun w => r.HeapTyped outside w.heap
  later := fun w w' => w.heap.Keeps w'.heap
  allowed := fun _ => True

namespace Meaning

variable {r : Registry} {outside : ObjectRef → Table String Ty} {w w' : World} {v : Value}
  {ty : Ty}

/-- A value of a known type has it as the analysis sees it. -/
private theorem members_has_of_has (hty : r.Known ty) (hv : w.heap.Has v ty) :
    (members r outside).has w v ty :=
  hv.imp id fun hv => ⟨ty, hty, by simp [Ty.same], hv.1, hv.2⟩

/-- There is only one known type of a name, so a value that has a known type is of that type. -/
private theorem has_of_members_has (hr : r.WellFormed) (hty : r.Known ty)
    (hv : (members r outside).has w v ty) : w.heap.Has v ty := by
  refine hv.imp id fun hv => ?_
  obtain ⟨known, hknown, hsame, his, hcontains⟩ := hv
  obtain rfl := hr.eq_of_same hty hknown hsame
  exact ⟨his, hcontains⟩

/-- The arguments of a call have their types on the heap. -/
private theorem forall_has_of_members_has (hr : r.WellFormed) {values : List Value}
    {types : List Ty} (htypes : ∀ ty ∈ types, r.Known ty)
    (hvalues : List.Forall₂ ((members r outside).has w) values types) :
    List.Forall₂ w.heap.Has values types := by
  induction hvalues with
  | nil => exact .nil
  | cons hv _ ih =>
    refine .cons (has_of_members_has hr (htypes _ List.mem_cons_self) hv) (ih fun ty hty => ?_)
    exact htypes ty (List.mem_cons_of_mem _ hty)

/-- What is of a kind by itself has the type. -/
private theorem members_has_kind (hv : v.isObject = false) :
    (members r outside).has w v v.kind := by
  refine .inr ⟨v.kind, ?_, by simp [Ty.same], v.is_kind, Heap.contains_of_not_object hv⟩
  cases v with
  | object address ref => cases hv
  | _ => trivial

/-- Where the operators tell types apart, a value has the type if it fits it. -/
private theorem members_has_iff_fits (hr : r.WellFormed) (hty : ty ∈ Ty.operands) :
    (members r outside).has w v ty ↔ v.Fits True ty := by
  obtain ⟨hbuiltin, hany, hcomparable⟩ := Ty.of_mem_operands ty hty
  constructor
  · intro hv
    have hhas := has_of_members_has hr (Registry.known_of_mem_builtin hbuiltin) hv
    refine hhas.imp (fun hnil => ⟨trivial, hnil⟩) fun hv => ?_
    -- These types have no values but their own, and objects are not among them.
    obtain rfl := hv.1.kind_eq hany hcomparable
    refine ⟨?_, .own v⟩
    cases v with
    | object address ref => simp [Value.kind, Ty.builtin] at hbuiltin
    | _ => rfl
  · rintro (⟨_, rfl⟩ | ⟨hv, hhas⟩)
    · exact .inl rfl
    · obtain rfl := hhas.kind_eq hv hbuiltin hany hcomparable
      exact members_has_kind hv

/-- Values keep their types when they are passed on. -/
private theorem members_accepts (hr : r.WellFormed) {target actual : Ty}
    (ha : target.accepts actual)
    (hv : (members r outside).has w v actual) : (members r outside).has w v target := by
  refine hv.imp id fun hv => ?_
  obtain ⟨known, hknown, hsame, his, hcontains⟩ := hv
  unfold Ty.accepts at ha
  rw [Bool.or_eq_true] at ha
  obtain htarget | hrule := ha
  · simp only [Ty.same, beq_iff_eq] at htarget hsame
    exact ⟨known, hknown, by simp [Ty.same, htarget, hsame], his, hcontains⟩
  · cases target with
    | any => exact ⟨.any, trivial, by simp [Ty.same], trivial, hcontains⟩
    | comparable =>
      -- Only built-in types can be compared, and no known type but these has their names.
      have hactual : r.Known actual := by
        cases actual with
        | object ref => cases hrule
        | _ => trivial
      obtain rfl := hr.eq_of_same hactual hknown hsame
      have hkind : v.kind = actual :=
        his.kind_eq (by rintro rfl; cases hrule) (by rintro rfl; cases hrule)
      exact ⟨.comparable, trivial, by simp [Ty.same], by rw [Value.Is, hkind]; exact hrule,
        hcontains⟩
    | _ => cases hrule

/-- A native that delivers gives what its signature promises. -/
private theorem gives_of_delivers {native : Native} {values : List Value}
    (hknown : r.Known native.signature.returns) (h : r.Delivers outside native values w) :
    (members r outside).Gives (native.call values) w native.signature.returns := by
  refine Ends.imp h (fun v w' _ hend => ?_) (fun _ _ _ _ => trivial)
  obtain ⟨hv, htyped, hkeeps⟩ := hend
  exact ⟨members_has_of_has hknown hv, htyped, hkeeps⟩

/-- What has fields to the analysis is `NIL` or an object that has them. -/
private theorem members_field (hr : r.WellFormed) {name : String} {fieldType : Ty}
    (hty : r.Known ty)
    (hv : (members r outside).has w v ty) (hf : ty.field? r.objects name = some fieldType)
    (hnil : v ≠ .nil) :
    ∃ address ref, v = .object address ref ∧ w.heap.Contains (.object address ref) ∧
      (r.fieldsOf outside ref).get? name = some fieldType := by
  cases ty with
  | object ref =>
    obtain ⟨address, rfl, hcontains⟩ := (has_of_members_has hr hty hv).object hnil
    exact ⟨address, ref, rfl, hcontains, Registry.fieldsOf_of_field? hf⟩
  | _ => exact nomatch hf

/-- Reading a field gives a value of its type, or it is read from `NIL`. -/
private theorem members_readField (hr : r.WellFormed) {name : String} {fieldType : Ty}
    (hty : r.Known ty) (hv : (members r outside).has w v ty)
    (hf : ty.field? r.objects name = some fieldType) (hw : r.HeapTyped outside w.heap) :
    (members r outside).Gives (NativeM.readField v name) w fieldType := by
  by_cases hnil : v = .nil
  · subst hnil
    trivial
  · obtain ⟨address, ref, rfl, hcontains, hget⟩ := members_field hr hty hv hf hnil
    refine hw.ends_readField hcontains hget fun u hu => ?_
    exact ⟨members_has_of_has (hr.known_field hf) hu, hw, fun _ h => h⟩

/-- Writing a value of the type of the field keeps the heap typed, or it is written to `NIL`. -/
private theorem members_writeField (hr : r.WellFormed) {name : String} {fieldType : Ty} {u : Value}
    (hty : r.Known ty) (hv : (members r outside).has w v ty)
    (hf : ty.field? r.objects name = some fieldType) (hw : r.HeapTyped outside w.heap)
    (hu : (members r outside).has w u fieldType) :
    Ends (NativeM.writeField v name u) w
      (fun _ w' => r.HeapTyped outside w'.heap ∧ w.heap.Keeps w'.heap) (fun _ _ => True) := by
  by_cases hnil : v = .nil
  · subst hnil
    trivial
  · obtain ⟨address, ref, rfl, hcontains, hget⟩ := members_field hr hty hv hf hnil
    refine hw.ends_writeField hcontains hget (has_of_members_has hr (hr.known_field hf) hu) ?_
    exact fun heap htyped hkeeps => ⟨htyped, hkeeps⟩

/-- An object has the methods of its type. -/
private theorem members_method (hr : r.WellFormed) {name : String} {arity : Nat} {native : Native}
    (hty : r.Known ty) (hv : (members r outside).has w v ty)
    (hm : ty.method? r.objects name arity = some native) (hnil : v ≠ .nil) :
    v.method r.objects name arity = .ok native ∧ ∃ address ref object,
      v = .object address ref ∧ w.heap.Contains v ∧ ref.declaration? r.objects = some object ∧
      object.name = ref.name ∧ object.methods.get? (name, arity) = some native := by
  cases ty with
  | object ref =>
    obtain ⟨address, rfl, hcontains⟩ := (has_of_members_has hr hty hv).object hnil
    obtain ⟨object, hobject, hname⟩ := hty
    -- The analysis looks the method up in the same declaration that the object refers to.
    have hget : object.methods.get? (name, arity) = some native := by
      obtain ⟨object', hobject', hget⟩ := Option.bind_eq_some_iff.mp hm
      rw [hobject] at hobject'
      cases hobject'
      exact hget
    refine ⟨?_, address, ref, object, rfl, hcontains, hobject, hname, hget⟩
    simp only [Value.method, hm]
  | _ => exact nomatch hm

/-- Values keep to known types as far as `NIL` lets them, if the natives do. -/
theorem lawful_members (hr : r.WellFormed) (hn : r.Honours outside) :
    (members r outside).Lawful (Rules.known r) where
  later_refl := fun _ _ h => h
  later_trans := fun h h' v hv => h' v (h v hv)
  has_later := fun hlater hv => by
    refine hv.imp id fun hv => ?_
    obtain ⟨known, hknown, hsame, his, hcontains⟩ := hv
    exact ⟨known, hknown, hsame, his, hlater _ hcontains⟩
  accepts := fun ha hv => members_accepts hr ha hv
  literal := fun h => by
    obtain ⟨hobject, rfl⟩ := Literal.kind_toValue h
    exact members_has_kind hobject
  integer := fun {_ n} => members_has_kind (v := .integer n) rfl
  boolean := fun {_ b} => members_has_kind (v := .boolean b) rfl
  toBool := fun _ _ => trivial
  elements := fun _ _ => trivial
  binary := fun {w a b left right operator ty} ha hb htype hlevel => by
    -- On the types that have operators, having a type is a matter of the kind alone.
    have hfits : ∀ {v : Value} {ty : Ty}, (members r outside).has w v ty →
        ∀ kind ∈ Ty.operands, kind.accepts ty → v.Fits True kind :=
      fun hv _ hkind haccepts =>
        (members_has_iff_fits hr hkind).mp (members_accepts hr haccepts hv)
    have hcombines : Value.Combines True operator.symbol a b ty (Value.binary operator a b) :=
      Value.binary_operands (hfits ha) (hfits hb) htype hlevel
    cases h : Value.binary operator a b with
    | error e => trivial
    | ok v =>
      rw [h] at hcombines
      exact (members_has_iff_fits hr (Operator.type_mem_operands htype)).mpr hcombines
  native := fun {w native values} hmem hw hvalues => by
    have hknown := hr.functions native hmem
    exact gives_of_delivers hknown.returns (hn.functions native hmem values w hw
      (forall_has_of_members_has hr hknown.parameters hvalues))
  readField := fun hty hv hf hw => members_readField hr hty hv hf hw
  writeField := fun hty hv hf hw hu => members_writeField hr hty hv hf hw hu
  method := fun {w v id ty name arity native} hty hv hm => by
    -- A call on NIL fails, and that failure is allowed.
    by_cases hnil : v = .nil
    · subst hnil
      trivial
    · obtain ⟨hfound, address, ref, object, rfl, hcontains, hobject, hname, hget⟩ :=
        members_method hr hty hv hm hnil
      have hknows : (Rules.known r).registry.objects = r.objects := rfl
      rw [hknows, hfound]
      -- The receiver is still there when the arguments have been evaluated.
      intro w' values hlater hw' hvalues
      have hknown := hr.known_method hm
      have htail : ∀ ty ∈ native.signature.parameters.tail, r.Known ty :=
        fun ty hty => hknown.parameters ty (List.mem_of_mem_tail hty)
      exact gives_of_delivers hknown.returns (hn.methods ref object _ native hobject hname hget
        address values w' hw' (hlater _ hcontains) (forall_has_of_members_has hr htail hvalues))
  depth := trivial
  result := fun _ _ => trivial

end Meaning

/-! ## Runs -/

/-- Where the task reads or writes a field or looks up a method, it fails to find it only if the
    value of the receiver is `NIL`. -/
def Task.MissesOnNil (env : Env) (n : Nat) (m : Machine) : Task → Prop
  | .evaluate (.field _ receiver name) => ∀ v m' e,
    Exec.evaluate env (invokeWithin env n) receiver m = .ok v m' →
    m'.world.heap.read v name = .error e → v = .nil
  | .evaluate (.invoke _ receiver name items) => ∀ v m' e,
    Exec.evaluate env (invokeWithin env n) receiver m = .ok v m' →
    v.method env.objects name (items.length + 1) = .error e → v = .nil
  | .assign (.field _ receiver name) value => ∀ object v m₁ m₂ e,
    Exec.evaluate env (invokeWithin env n) receiver m = .ok object m₁ →
    Exec.evaluate env (invokeWithin env n) value m₁ = .ok v m₂ →
    m₂.world.heap.write object name v = .error e → object = .nil
  | _ => True

section Runs

variable {r : Registry} {outside : ObjectRef → Table String Ty} {env : Env} {source : Source}

/-- Runs keep every value of the type that the analysis gave it. -/
theorem Sound.members (hr : r.WellFormed) (hn : r.Honours outside) (henv : env.objects = r.objects)
    (source : Source) : Sound (Rules.known r) (.members r outside) env source :=
  ⟨Meaning.lawful_members hr hn, fun _ _ => .inl rfl, henv, fun _ _ _ _ => .inr fun _ => .inl rfl⟩

/-- The task of a well-typed activation misses a member of `NIL` only. -/
private theorem Activation.Typed.missesOnNil (hr : r.WellFormed)
    (hS : Sound (Rules.known r) (.members r outside) env source) {a : Activation}
    (h : a.Typed (Rules.known r) (.members r outside)) :
    a.task.MissesOnNil env a.level a.machine := by
  obtain ⟨n, task, m⟩ := a
  obtain ⟨hP, hm, ht⟩ := h
  have S := hS.setting hP n
  -- Three kinds of task ask for a member, and the type of the receiver promises it.
  unfold Task.MissesOnNil
  dsimp only at ht hm ⊢
  split
  · have ⟨_, .field hreceiver hfield _ _⟩ := ht
    intro v m' e hrun hread
    have hv := (evaluate_sound S _ hreceiver hm).of_ok hrun
    by_contra hnil
    obtain ⟨address, ref, rfl, hcontains, hget⟩ :=
      Meaning.members_field hr hreceiver.noted hv.has hfield hnil
    obtain ⟨u, hok, _⟩ := hv.agrees.globals.valid.read hcontains hget
    rw [hok] at hread
    exact nomatch hread
  · have ⟨_, .invoke hreceiver hmethod _ _ _⟩ := ht
    intro v m' e hrun hlookup
    have hv := (evaluate_sound S _ hreceiver hm).of_ok hrun
    by_contra hnil
    obtain ⟨hfound, _⟩ := Meaning.members_method hr hreceiver.noted hv.has hmethod hnil
    have henv : env.objects = r.objects := hS.objects_eq
    rw [henv, hfound] at hlookup
    exact nomatch hlookup
  · have ⟨_, _, _, .field hreceiver hfield _ _, hvalue, haccepts⟩ := ht
    intro object v m₁ m₂ e hrun hrun' hwrite
    have ho := (evaluate_sound S _ hreceiver hm).of_ok hrun
    have hv := (evaluate_sound S _ hvalue ho.agrees).of_ok hrun'
    by_contra hnil
    -- The object is still there when the value has been evaluated.
    obtain ⟨address, ref, rfl, hcontains, hget⟩ := Meaning.members_field hr hreceiver.noted
      (S.lawful.has_later hv.later ho.has) hfield hnil
    obtain ⟨heap, hok, _⟩ := hv.agrees.globals.valid.write hcontains hget
      (Meaning.has_of_members_has hr (hr.known_field hfield) (S.lawful.accepts haccepts hv.has))
    rw [hok] at hwrite
    exact nomatch hwrite
  · trivial

/-- In a registry that is well formed and whose natives keep to their signatures up to `NIL`, and
    make no object into one of another type, an accepted program finds its natives bound on a
    fresh machine, and then it keeps the heap typed: whatever the run comes to starts on a typed
    heap, and ends on one if it ends.  A field that is read or written and a method that is looked
    up are missing only if the value of the receiver is `NIL`. -/
theorem members_missing_only_on_nil (hr : r.WellFormed) (hn : r.Honours outside) {a : Analysis}
    (h : analyze r source = .ok a) {world : World} (hw : r.HeapTyped outside world.heap) :
    ∃ s, Session.start r world = .ok s ∧ ∀ rounds,
      (∀ n task m, Reached ⟨r.objects, rounds⟩ source s.machine ⟨n, task, m⟩ →
        r.HeapTyped outside m.world.heap ∧
        (∀ m', task.run ⟨r.objects, rounds⟩ n m = .ok () m' → r.HeapTyped outside m'.world.heap) ∧
        task.MissesOnNil ⟨r.objects, rounds⟩ n m) ∧
      ∀ k after, s.execute rounds source = some (.ok k, after) →
        r.HeapTyped outside after.machine.world.heap := by
  obtain ⟨s, hstart, hregistry, hlaunched⟩ :=
    (analyze_known hr h).session (M := .members r outside) rfl hw
  refine ⟨s, hstart, fun rounds => ?_⟩
  have hS : Sound (Rules.known r) (.members r outside) ⟨r.objects, rounds⟩ source :=
    .members hr hn rfl source
  -- At a state that is reached the globals carry the typed heap; at the end the whole run does.
  refine ⟨fun n task m hreached => ?_, fun k after hrun => ?_⟩
  · have htyped := hreached.typed hS hlaunched
    have hvalid : r.HeapTyped outside m.world.heap := by
      obtain ⟨_, hm, _⟩ := htyped
      exact hm.globals.valid
    exact ⟨hvalid, fun m' hrun => (htyped.run hS).of_ok hrun, htyped.missesOnNil hr hS⟩
  · obtain ⟨hend, _⟩ := Session.execute_eq_some_iff.mp hrun
    rw [hregistry] at hend
    exact (hlaunched.execute hS).of_ok hend

end Runs

/-! ## Points and segments -/

/-- The type of points. -/
def pointRef : ObjectRef := ⟨"Point", some 0⟩

/-- The type of segments. -/
def segmentRef : ObjectRef := ⟨"Segment", some 1⟩

/-- Points have a coordinate, which can be moved. -/
def pointType : ObjectType :=
  ((ObjectType.new "Point").withField "x" .integer).withMethod "move" [.integer] .integer
    ((Action.updateField "x" "+").run "move")

/-- Segments have two points. -/
def segmentType : ObjectType :=
  ((ObjectType.new "Segment").withField "start" (.object pointRef)).withField "stop"
    (.object pointRef)

/-- `point(Integer): Point` makes a point. -/
def point : Native :=
  (Action.create pointRef ["x"] [("x", 0)]).native "point" ⟨[.integer], .object pointRef⟩

/-- `segment(Point, Point): Segment` makes a segment. -/
def segment : Native :=
  (Action.create segmentRef ["start", "stop"] [("start", 0), ("stop", 1)]).native "segment"
    ⟨[.object pointRef, .object pointRef], .object segmentRef⟩

/-- A registry with points, segments and the natives that make them. -/
def geometry : Registry where
  functions := [point, segment]
  objects := [pointType, segmentType]

/-- The fields of the objects in a heap of `geometry`. -/
abbrev geometryFields (ref : ObjectRef) : Table String Ty := geometry.fieldsOf (fun _ => .empty) ref

/-- A point has one field. -/
private theorem pointType_field? (name : String) :
    pointType.fields.get? name = if name = "x" then some .integer else none := by
  show (Table.insert .empty "x" Ty.integer).get? name = _
  rw [Table.get?_insert, Table.get?_empty]

/-- A segment has two. -/
private theorem segmentType_field? (name : String) :
    segmentType.fields.get? name =
      if name = "stop" then some (.object pointRef) else
        if name = "start" then some (.object pointRef) else none := by
  show (Table.insert (Table.insert .empty "start" _) "stop" _).get? name = _
  rw [Table.get?_insert, Table.get?_insert, Table.get?_empty]

/-- The only method moves a point. -/
private theorem geometry_method? {object : ObjectType} (hobject : object ∈ geometry.objects)
    {key : FunctionKey} {native : Native} (h : object.methods.get? key = some native) :
    object = pointType ∧
      native = (Action.updateField "x" "+").native "move" ⟨[.any, .integer], .integer⟩ := by
  obtain rfl | rfl : object = pointType ∨ object = segmentType := by
    simpa [geometry] using hobject
  -- Points have one method, segments none.
  · change (Table.insert .empty ("move", 2) _).get? key = some native at h
    rw [Table.get?_insert] at h
    split at h
    · cases h
      exact ⟨rfl, rfl⟩
    · exact nomatch h
  · exact nomatch h

private theorem geometry_known_point : geometry.Known (.object pointRef) := ⟨pointType, rfl, rfl⟩

private theorem geometry_known_segment :
    geometry.Known (.object segmentRef) := ⟨segmentType, rfl, rfl⟩

/-- The signatures and the fields name types of the registry. -/
private theorem geometry_wellFormed : geometry.WellFormed where
  nodup := by decide
  builtin := by decide
  functions := by
    intro native hnative
    obtain rfl | rfl : native = point ∨ native = segment := by simpa [geometry] using hnative
    · refine ⟨fun ty hty => ?_, geometry_known_point⟩
      obtain rfl := List.mem_singleton.mp hty
      trivial
    · refine ⟨fun ty hty => ?_, geometry_known_segment⟩
      obtain rfl | rfl : ty = .object pointRef ∨ ty = .object pointRef := by
        simpa [segment, Action.native] using hty
      all_goals exact geometry_known_point
  -- The ends of a segment are points, and points are registered.
  fields := by
    intro object hobject name ty hget
    obtain rfl | rfl : object = pointType ∨ object = segmentType := by
      simpa [geometry] using hobject
    · rw [pointType_field?] at hget
      split at hget
      · cases hget
        trivial
      · exact nomatch hget
    · rw [segmentType_field?] at hget
      split at hget
      · cases hget
        exact geometry_known_point
      · split at hget
        · cases hget
          exact geometry_known_point
        · exact nomatch hget
  methods := by
    intro object hobject key native hget
    obtain ⟨_, rfl⟩ := geometry_method? hobject hget
    refine ⟨fun ty hty => ?_, trivial⟩
    obtain rfl | rfl : ty = .any ∨ ty = .integer := by simpa [Action.native] using hty
    · trivial
    · trivial

section Geometry

variable {v : Value} {w : World}

private theorem geometry_x :
    (geometryFields pointRef).get? "x" = some .integer := pointType_field? "x"

/-- `point` gives a point, which keeps its type when its coordinate is set. -/
private theorem point_delivers (hw : geometry.HeapTyped (fun _ => .empty) w.heap)
    (hv : w.heap.Has v .integer) : geometry.Delivers (fun _ => .empty) point [v] w := by
  have hfields : ∀ name, name ∈ ["x"] ↔ ((geometryFields pointRef).get? name).isSome := by
    intro name
    show _ ↔ (pointType.fields.get? name).isSome
    rw [pointType_field?]
    by_cases hx : name = "x" <;> simp [hx]
  unfold Registry.Delivers point
  simp only [Action.native, Action.run, Action.applySettings, List.getElem?_cons_zero, ends_bind]
  refine hw.ends_allocate hfields fun address heap hcontains htyped hkeeps => ?_
  refine htyped.ends_writeField hcontains geometry_x (hv.keep hkeeps) fun heap' htyped' hkeeps' => ?_
  exact ⟨.inr ⟨rfl, hkeeps' _ hcontains⟩, htyped', fun u hu => hkeeps' u (hkeeps u hu)⟩

/-- `segment` gives a segment with the points that it gets. -/
private theorem segment_delivers {u : Value} (hw : geometry.HeapTyped (fun _ => .empty) w.heap)
    (hv : w.heap.Has v (.object pointRef)) (hu : w.heap.Has u (.object pointRef)) :
    geometry.Delivers (fun _ => .empty) segment [v, u] w := by
  have hfields : ∀ name, name ∈ ["start", "stop"] ↔
      ((geometryFields segmentRef).get? name).isSome := by
    intro name
    show _ ↔ (segmentType.fields.get? name).isSome
    rw [segmentType_field?]
    by_cases hstop : name = "stop" <;> by_cases hstart : name = "start" <;> simp [hstop, hstart]
  have hstart : (geometryFields segmentRef).get? "start" = some (.object pointRef) :=
    segmentType_field? "start"
  have hstop : (geometryFields segmentRef).get? "stop" = some (.object pointRef) :=
    segmentType_field? "stop"
  unfold Registry.Delivers segment
  simp only [Action.native, Action.run, Action.applySettings, List.getElem?_cons_zero,
    List.getElem?_cons_succ, ends_bind]
  -- The object is made with empty fields, and then each end is written.
  refine hw.ends_allocate hfields fun address heap₁ hcontains htyped₁ hkeeps₁ => ?_
  refine htyped₁.ends_writeField hcontains hstart (hv.keep hkeeps₁) fun heap₂ htyped₂ hkeeps₂ => ?_
  refine htyped₂.ends_writeField (hkeeps₂ _ hcontains) hstop ((hu.keep hkeeps₁).keep hkeeps₂)
    fun heap₃ htyped₃ hkeeps₃ => ?_
  exact ⟨.inr ⟨rfl, hkeeps₃ _ (hkeeps₂ _ hcontains)⟩, htyped₃,
    fun z hz => hkeeps₃ z (hkeeps₂ z (hkeeps₁ z hz))⟩

/-- `move` gives the new coordinate, or fails because there is none yet. -/
private theorem move_delivers (hw : geometry.HeapTyped (fun _ => .empty) w.heap)
    {address : Nat} (hc : w.heap.Contains (.object address pointRef)) (hv : w.heap.Has v .integer) :
    geometry.Delivers (fun _ => .empty)
      ((Action.updateField "x" "+").native "move" ⟨[.any, .integer], .integer⟩)
      [.object address pointRef, v] w := by
  unfold Registry.Delivers
  simp only [Action.native, Action.run, ends_bind]
  refine hw.ends_readField hc geometry_x fun old hold => ?_
  -- Adding to `NIL` is an error, and integers add up to one.
  obtain rfl | ⟨b, rfl⟩ := hv.integer
  · obtain rfl | ⟨a, rfl⟩ := hold.integer <;> trivial
  · obtain rfl | ⟨a, rfl⟩ := hold.integer
    · trivial
    · have hsum : w.heap.Has (.integer (a + b)) .integer := .inr ⟨rfl, trivial⟩
      exact hw.ends_writeField hc geometry_x hsum fun heap htyped hkeeps =>
        ⟨hsum.keep hkeeps, htyped, hkeeps⟩

end Geometry

/-- The natives of the registry keep to their signatures. -/
private theorem geometry_honours : geometry.Honours fun _ => .empty where
  functions := by
    intro native hnative values w hw hvalues
    obtain rfl | rfl : native = point ∨ native = segment := by simpa [geometry] using hnative
    -- The values come in the number of the parameters.
    · cases hvalues with
      | cons hv hrest =>
        cases hrest
        exact point_delivers hw hv
    · cases hvalues with
      | cons hv hrest =>
        cases hrest with
        | cons hu hrest =>
          cases hrest
          exact segment_delivers hw hv hu
  methods := by
    intro ref object key native hobject hname hget address values w hw hcontains hvalues
    obtain ⟨rfl, rfl⟩ := geometry_method? (Registry.mem_of_declaration? hobject) hget
    -- The receiver is a point, since only points have the method.
    obtain rfl : ref = pointRef :=
      geometry_wellFormed.ref_eq ⟨pointType, hobject, hname⟩ geometry_known_point hname.symm
    cases hvalues with
    | cons hv hrest =>
      cases hrest
      exact move_delivers hw hcontains hv

/-- A program with two names for one point, which is both ends of a segment. -/
def aliasing : String :=
  "LET p = point(3); LET q = p; LET s = segment(p, q);
   DEF main(): Integer DO
     s.start.x = 5; q.move(2); s.stop = point(p.x); s.stop.move(10);
     RETURN s.start.x + s.stop.x;
   END"

/-- Whatever is read, written and called through the names and through the segment, points stay
    points. -/
theorem aliasing_keeps_points :
    geometry.WellFormed ∧ geometry.Honours (fun _ => .empty) ∧
    geometry.HeapTyped (fun _ => .empty) (default : World).heap ∧
    ∃ source a, analyze geometry source = .ok a ∧ ∃ s, Session.start geometry default = .ok s ∧
      (∃ after, s.execute 0 source = some (.ok 24, after)) ∧ ∀ rounds,
      (∀ n task m, Reached ⟨geometry.objects, rounds⟩ source s.machine ⟨n, task, m⟩ →
        geometry.HeapTyped (fun _ => .empty) m.world.heap ∧
        (∀ m', task.run ⟨geometry.objects, rounds⟩ n m = .ok () m' →
          geometry.HeapTyped (fun _ => .empty) m'.world.heap) ∧
        task.MissesOnNil ⟨geometry.objects, rounds⟩ n m) ∧
      ∀ k after, s.execute rounds source = some (.ok k, after) →
        geometry.HeapTyped (fun _ => .empty) after.machine.world.heap := by
  have hcompute : (check geometry aliasing).toOption.any fun p =>
      (Session.start geometry default).toOption.any fun s =>
        (s.execute 0 p.source).any fun answer => answer.1 == .ok 24 := by
    decide +kernel
  -- The program is analyzed and run, and its answer is compared.
  obtain ⟨p, s, hp, hs, hruns⟩ := exists_of_check_start hcompute
  obtain ⟨⟨_, after⟩, hrun, hresult⟩ := (Option.any_eq_true _ _).mp hruns
  obtain rfl := eq_of_beq hresult
  obtain ⟨_, _, hanalyze⟩ := of_check_eq_ok hp
  have hempty : geometry.HeapTyped (fun _ => .empty) (default : World).heap :=
    Registry.heapTyped_empty
  obtain ⟨s', hs', hsafe⟩ :=
    members_missing_only_on_nil geometry_wellFormed geometry_honours hanalyze hempty
  obtain rfl : s' = s := Except.ok.inj (hs'.symm.trans hs)
  exact ⟨geometry_wellFormed, geometry_honours, hempty, p.source, p.analysis, hanalyze, s', hs,
    ⟨after, hrun⟩, hsafe⟩

/-! ## Types by name, and types that change

`Honours` asks two things that one could leave out when one says that a native keeps to its
signature: an object that it gives is of the type itself, and not of another type of that name; and
it makes no object that is there into one of another type.  `Promises` asks for one of them at a
time, and either way a program that the analysis accepts can miss a field of an object. -/

/-- Types of objects that have the same name. -/
def ObjectRef.Namesakes (a b : ObjectRef) : Prop := a.name = b.name

/-- The value is `NIL`, or of the type by what is on the heap.  An object is of the type if the type
    that it has there is `alike`. -/
def Heap.Shows (alike : ObjectRef → ObjectRef → Prop) (h : Heap) (v : Value) (ty : Ty) : Prop :=
  v = .nil ∨
    match v, ty with
    | .object address _, .object ref => ∃ cell, h.cells[address]? = some cell ∧ alike cell.ref ref
    | _, _ => v.Is ty

namespace Registry

/-- Every object has exactly the fields that its type declares, and each shows `NIL` or a value of
    the type of the field. -/
def HeapShows (r : Registry) (alike : ObjectRef → ObjectRef → Prop) (h : Heap) : Prop :=
  ∀ (address : Nat) cell, h.cells[address]? = some cell → ∀ name,
    Option.Rel (fun ty v => h.Shows alike v ty)
      ((r.fieldsOf (fun _ => .empty) cell.ref).get? name) (cell.fields.get? name)

/-- Natives that keep to their signatures, up to `NIL`, as far as a look at the heap before and
    after a call shows.  What else is asked of the two heaps is `later`. -/
def Promises (r : Registry) (alike : ObjectRef → ObjectRef → Prop) (later : Heap → Heap → Prop) :
    Prop :=
  ∀ native, (native ∈ r.functions ∨
      ∃ object ∈ r.objects, ∃ key, object.methods.get? key = some native) →
    ∀ values w, r.HeapShows alike w.heap →
    List.Forall₂ (w.heap.Shows alike) values native.signature.parameters →
    Ends (native.call values) w
      (fun v w' => w'.heap.Shows alike v native.signature.returns ∧ r.HeapShows alike w'.heap ∧
        later w.heap w'.heap)
      (fun _ _ => True)

/-- On a fresh machine a program that the analysis accepts misses a member of something that is not
    `NIL`, and fails. -/
def MissesMember (r : Registry) (text : String) : Prop :=
  ∃ p, check r text = .ok p ∧ ∃ s, Session.start r default = .ok s ∧
    (∃ n task m, Reached ⟨r.objects, 0⟩ p.source s.machine ⟨n, task, m⟩ ∧
      ¬ task.MissesOnNil ⟨r.objects, 0⟩ n m) ∧
    ∃ ty name after, s.execute 0 p.source = some (.error (.undefinedField ty name), after)

end Registry

/-- Whether the initial value of the global at that index is a field that its receiver, which is
    not `NIL`, does not have. -/
def Analyzed.missesField (p : Analyzed) (env : Env) (s : Session) (i : Nat) : Bool :=
  match p.source.fields[i]? with
  | some ⟨_, _, _, some (.field _ receiver name)⟩ =>
    match (p.source.fields.take i).forM (declare env (invoke env)) s.machine with
    | .ok () m =>
      match Exec.evaluate env (invoke env) receiver m with
      | .ok v m' => v != .nil && (m'.world.heap.read v name).toOption.isNone
      | .error .. => false
    | .error .. => false
  | _ => false

/-- Whether the run ends without a field that it needs. -/
def Analyzed.failsOnField (p : Analyzed) (s : Session) : Bool :=
  match s.execute 0 p.source with
  | some (.error (.undefinedField ..), _) => true
  | _ => false

/-- A run that misses a field reaches a task that does. -/
private theorem Analyzed.reached_of_missesField {p : Analyzed} {env : Env} {s : Session} {i : Nat}
    (h : p.missesField env s i) :
    ∃ n task m, Reached env p.source s.machine ⟨n, task, m⟩ ∧ ¬ task.MissesOnNil env n m := by
  unfold missesField at h
  split at h
  · rename_i id name ty fieldId receiver field hfield
    split at h
    · rename_i m hbefore
      split at h
      · rename_i v m' hrun
        rw [Bool.and_eq_true] at h
        obtain ⟨hnil, hread⟩ := h
        -- The fields before this one have been defined, and its initializer is what fails.
        have hsplit := List.take_append_drop i p.source.fields
        rw [List.drop_eq_getElem?_toList_append, hfield] at hsplit
        refine ⟨_, .evaluate (.field fieldId receiver field), m,
          .step (.field hsplit.symm hbefore) .initializer, fun hmisses => ?_⟩
        cases hget : m'.world.heap.read v field with
        | ok u => rw [hget] at hread; exact nomatch hread
        | error e => exact absurd (hmisses v m' e hrun hget) (by simpa using hnil)
      · exact nomatch h
    · exact nomatch h
  · exact nomatch h

/-- Missing a member can be decided by running the program. -/
private theorem Registry.missesMember_of_missesField {r : Registry} {text : String} (i : Nat)
    (h : (check r text).toOption.any fun p => (Session.start r default).toOption.any fun s =>
      p.missesField ⟨r.objects, 0⟩ s i && p.failsOnField s) : r.MissesMember text := by
  obtain ⟨p, s, hp, hs, hruns⟩ := exists_of_check_start h
  rw [Bool.and_eq_true] at hruns
  obtain ⟨hmisses, hfails⟩ := hruns
  refine ⟨p, hp, s, hs, Analyzed.reached_of_missesField hmisses, ?_⟩
  unfold Analyzed.failsOnField at hfails
  split at hfails
  · rename_i ty name after hrun
    exact ⟨ty, name, after, hrun⟩
  · exact nomatch hfails

/-- Boxes hold an integer. -/
def boxRef : ObjectRef := ⟨"Box", some 0⟩

/-- The types of boxes and of blanks, which hold nothing. -/
def boxesAndBlanks : List ObjectType := [(ObjectType.new "Box").withField "x" .integer, .new "Blank"]

/-- `turn` makes a box that is there into a blank. -/
def turn : Native where
  name := "turn"
  signature := ⟨[.object boxRef], .nil⟩
  call
    | [.object address _] => do
      modify fun w =>
        { w with heap := ⟨w.heap.cells.modify address fun _ => ⟨⟨"Blank", some 1⟩, .empty⟩⟩ }
      return .nil
    | arguments => throw (Native.invalidArguments "turn" arguments)

/-- A registry with a native that makes boxes, and one that turns them into something else. -/
def turning : Registry where
  functions := [(Action.create boxRef ["x"] []).native "box" ⟨[], .object boxRef⟩, turn]
  objects := boxesAndBlanks

/-- A registry with a native whose boxes are not those of the registry: they have their name. -/
def mistaking : Registry where
  functions := [(Action.create ⟨"Box", none⟩ [] []).native "box" ⟨[], .object boxRef⟩]
  objects := boxesAndBlanks

section Boxes

variable {r : Registry} {alike : ObjectRef → ObjectRef → Prop} {h h' : Heap}

/-- The fields of boxes and blanks are integers. -/
private theorem boxes_field? (hr : r.objects = boxesAndBlanks) {ref : ObjectRef} {name : String}
    {ty : Ty} (hty : (r.fieldsOf (fun _ => .empty) ref).get? name = some ty) : ty = .integer := by
  obtain ⟨_, position⟩ := ref
  unfold Registry.fieldsOf ObjectRef.declaration? at hty
  rw [hr] at hty
  -- The reference counts the declarations: a box, a blank, and nothing more.
  match position with
  | none => exact nomatch hty
  | some 0 =>
    change (Table.insert .empty "x" Ty.integer).get? name = some ty at hty
    rw [Table.get?_insert] at hty
    split at hty
    · cases hty
      rfl
    · exact nomatch hty
  | some 1 => exact nomatch hty
  | some (_ + 2) => exact nomatch hty

/-- A registry of boxes and blanks only lacks its functions. -/
private theorem boxes_wellFormed (hr : r.objects = boxesAndBlanks)
    (hfunctions : ∀ native ∈ r.functions, r.KnownSignature native.signature) : r.WellFormed where
  nodup := by rw [hr]; decide
  builtin := by rw [hr]; decide
  functions := hfunctions
  fields := by
    intro object hobject name ty hty
    -- A declared type is one that a reference can name.
    obtain ⟨i, hi⟩ := List.mem_iff_getElem?.mp hobject
    have hobject : ObjectRef.declaration? r.objects ⟨object.name, some i⟩ = some object := hi
    rw [← Registry.fieldsOf_eq hobject] at hty
    rw [boxes_field? hr hty]
    trivial
  methods := by
    intro object hobject key native hget
    rw [hr] at hobject
    obtain rfl | rfl : object = _ ∨ object = _ := by simpa [boxesAndBlanks] using hobject
    · exact nomatch hget
    · exact nomatch hget

/-- Whether an integer is where one is due can be seen without the heap. -/
private theorem Heap.shows_integer {v : Value} :
    h.Shows alike v .integer ↔ v = .nil ∨ v.kind = .integer := by
  cases v <;> rfl

/-- Boxes and blanks hold no objects, so whether their fields are typed can be seen on each alone. -/
private theorem boxes_rel_iff (hr : r.objects = boxesAndBlanks) {ref : ObjectRef} {name : String}
    {v : Option Value} :
    Option.Rel (fun ty v => h.Shows alike v ty)
        ((r.fieldsOf (fun _ => .empty) ref).get? name) v ↔
      Option.Rel (fun _ v => v = .nil ∨ v.kind = .integer)
        ((r.fieldsOf (fun _ => .empty) ref).get? name) v := by
  cases hty : (r.fieldsOf (fun _ => .empty) ref).get? name with
  | none => exact ⟨fun | .none => .none, fun | .none => .none⟩
  | some ty =>
    obtain rfl := boxes_field? hr hty
    exact ⟨fun | .some hv => .some (Heap.shows_integer.mp hv),
      fun | .some hv => .some (Heap.shows_integer.mpr hv)⟩

/-- A heap stays typed when objects are added or replaced, if the new ones are typed. -/
private theorem boxes_heapShows (hr : r.objects = boxesAndBlanks) (hh : r.HeapShows alike h)
    (hcells : ∀ (address : Nat) cell, h'.cells[address]? = some cell →
      h.cells[address]? = some cell ∨ ∀ name, Option.Rel (fun _ v => v = .nil ∨ v.kind = .integer)
        ((r.fieldsOf (fun _ => .empty) cell.ref).get? name) (cell.fields.get? name)) :
    r.HeapShows alike h' := by
  intro address cell hcell name
  rw [boxes_rel_iff hr]
  obtain hold | hnew := hcells address cell hcell
  · exact (boxes_rel_iff hr).mp (hh address cell hold name)
  · exact hnew name

/-- The cells of a heap on which an object has been made. -/
private theorem Heap.cells_allocate {ref : ObjectRef} {fields : Table String Value} {address : Nat}
    {cell : Instance} (hcell : (h.allocate ref fields).2.cells[address]? = some cell) :
    h.cells[address]? = some cell ∨ cell = ⟨ref, fields⟩ := by
  change (h.cells.push ⟨ref, fields⟩)[address]? = some cell at hcell
  rw [Array.getElem?_push] at hcell
  split at hcell
  · exact .inr (Option.some.inj hcell.symm)
  · exact .inl hcell

/-- The types in the registry have no methods, so only the functions have something to keep. -/
private theorem boxes_promises (hr : r.objects = boxesAndBlanks) {later : Heap → Heap → Prop}
    (hfunctions : ∀ native ∈ r.functions, ∀ values w, r.HeapShows alike w.heap →
      Ends (native.call values) w
        (fun v w' => w'.heap.Shows alike v native.signature.returns ∧ r.HeapShows alike w'.heap ∧
          later w.heap w'.heap)
        (fun _ _ => True)) : r.Promises alike later := by
  rintro native (hnative | ⟨object, hobject, key, hget⟩) values w hw -
  · exact hfunctions native hnative values w hw
  · rw [hr] at hobject
    obtain rfl | rfl : object = _ ∨ object = _ := by simpa [boxesAndBlanks] using hobject
    · exact nomatch hget
    · exact nomatch hget

private theorem boxes_known (hr : r.objects = boxesAndBlanks) : r.Known (.object boxRef) := by
  refine ⟨(ObjectType.new "Box").withField "x" .integer, ?_, rfl⟩
  rw [hr]
  rfl

/-- A native that makes boxes, or what passes for boxes, gives what it promises. -/
private theorem box_promises (hr : r.objects = boxesAndBlanks) {ref : ObjectRef}
    {fieldNames : List String} (halike : alike ref boxRef)
    (hfields : ∀ name, Option.Rel (fun _ v => v = .nil ∨ v.kind = .integer)
      ((r.fieldsOf (fun _ => .empty) ref).get? name)
      ((Table.ofList (fieldNames.map (·, Value.nil))).get? name))
    {values : List Value} {w : World} (hw : r.HeapShows alike w.heap) :
    Ends (((Action.create ref fieldNames []).native "box" ⟨[], .object boxRef⟩).call values) w
      (fun v w' => w'.heap.Shows alike v (.object boxRef) ∧ r.HeapShows alike w'.heap ∧
        w.heap.Keeps w'.heap)
      (fun _ _ => True) := by
  refine ⟨.inr ⟨⟨ref, _⟩, Array.getElem?_push_size, halike⟩, boxes_heapShows hr hw ?_,
    w.heap.keeps_allocate ref _⟩
  intro address cell hcell
  -- Only the new cell needs a reason.
  obtain hold | rfl := Heap.cells_allocate hcell
  · exact .inl hold
  · exact .inr hfields

/-- `turn` leaves a typed heap typed: it only forgets what a box holds. -/
private theorem turn_promises (hr : r.objects = boxesAndBlanks) {values : List Value} {w : World}
    (hw : r.HeapShows alike w.heap) :
    Ends (turn.call values) w
      (fun v w' => w'.heap.Shows alike v .nil ∧ r.HeapShows alike w'.heap) (fun _ _ => True) := by
  unfold turn
  dsimp only
  split
  · refine ⟨.inl rfl, boxes_heapShows hr hw fun i cell hcell => ?_⟩
    change (w.heap.cells.modify _ _)[i]? = some cell at hcell
    rw [Array.getElem?_modify] at hcell
    -- The cell that was turned has lost its fields, and its new type asks for none.
    split at hcell
    · obtain ⟨_, _, rfl⟩ := Option.map_eq_some_iff.mp hcell
      refine .inr fun name => ?_
      unfold Registry.fieldsOf
      rw [hr]
      exact .none
    · exact .inl hcell
  · trivial

/-- An empty heap shows nothing. -/
private theorem Registry.heapShows_empty : r.HeapShows alike .empty := fun _ _ h => nomatch h

end Boxes

private theorem turning_wellFormed : turning.WellFormed := by
  refine boxes_wellFormed rfl fun native hnative => ?_
  obtain rfl | rfl : native = _ ∨ native = _ := by simpa [turning] using hnative
  · exact ⟨fun ty hty => (nomatch hty), boxes_known rfl⟩
  · refine ⟨fun ty hty => ?_, trivial⟩
    obtain rfl := List.mem_singleton.mp hty
    exact boxes_known rfl

private theorem turning_promises : turning.Promises Eq fun _ _ => True := by
  refine boxes_promises rfl fun native hnative values w hw => ?_
  obtain rfl | rfl : native = _ ∨ native = _ := by simpa [turning] using hnative
  · refine (box_promises rfl rfl (fun name => ?_) hw).mono fun _ _ _ h => ⟨h.1, h.2.1, trivial⟩
    change Option.Rel _ ((Table.insert .empty "x" Ty.integer).get? name)
      ((Table.insert .empty "x" Value.nil).get? name)
    rw [Table.get?_insert, Table.get?_insert]
    split
    · exact .some (.inl rfl)
    · exact .none
  · exact (turn_promises rfl hw).mono fun _ _ _ h => ⟨h.1, h.2, trivial⟩

private theorem mistaking_wellFormed : mistaking.WellFormed := by
  refine boxes_wellFormed rfl fun native hnative => ?_
  obtain rfl := List.mem_singleton.mp hnative
  exact ⟨fun ty hty => (nomatch hty), boxes_known rfl⟩

private theorem mistaking_promises : mistaking.Promises ObjectRef.Namesakes Heap.Keeps := by
  refine boxes_promises rfl fun native hnative values w hw => ?_
  obtain rfl := List.mem_singleton.mp hnative
  have hnamesakes : ObjectRef.Namesakes ⟨"Box", none⟩ boxRef := rfl
  exact box_promises rfl hnamesakes (fun _ => .none) hw

/-- Natives that keep to their signatures are not enough, as long as nobody asks for the types
    themselves, and for good.  A program misses a field of an object when a native has turned the
    object into one of another type, and when a native gives an object of another type of the
    same name. -/
theorem fields_missing_on_objects :
    (turning.WellFormed ∧ turning.Promises Eq (fun _ _ => True) ∧
      turning.HeapShows Eq (default : World).heap ∧
      turning.MissesMember
        "LET a = box(); LET b = turn(a); LET x = a.x; DEF main() DO RETURN 0; END") ∧
    mistaking.WellFormed ∧ mistaking.Promises ObjectRef.Namesakes Heap.Keeps ∧
      mistaking.HeapShows ObjectRef.Namesakes (default : World).heap ∧
      mistaking.MissesMember "LET a = box(); LET x = a.x; DEF main() DO RETURN 0; END" := by
  refine ⟨⟨turning_wellFormed, turning_promises, Registry.heapShows_empty, ?_⟩,
    mistaking_wellFormed, mistaking_promises, Registry.heapShows_empty, ?_⟩
  · exact Registry.missesMember_of_missesField 2 (by decide +kernel)
  · exact Registry.missesMember_of_missesField 1 (by decide +kernel)

end LetLang

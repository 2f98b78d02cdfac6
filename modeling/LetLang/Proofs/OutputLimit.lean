import LetLang.Native.Action
import LetLang.Proofs.FailedWrites
import LetLang.Proofs.StackFunctions

/-! # A writer that runs full

A program that writes more than its writer takes stops at the write that does not fit.  What
was written until then is the beginning of what it would have written to a writer without
limit, up to the last byte that the limited one takes; a program that writes no more than that
cannot tell the two apart.

This holds if natives do not look at the output and pass on the error of a write that failed.
`Script` says so for one call: it lists the writes, and the heap at each of them.  Where a write
has failed, nothing else runs: the native that wrote is the last one that was called, and the end
of the run is as it has left it (`LeftByNative`).

* `NativeM.WritesThrough`    the computation follows a script, whatever the output is
* `Output.cut`               what a limited writer has kept of an output
* `Exec.Metered`             a computation on the two writers side by side
* `run_limited`              the result for whole runs
-/

namespace LetLang

open Scopes Exec

/-! ## Natives that write and do nothing else with the output -/

/-- What a native does for given arguments and a given heap: bytes that it writes one after the
    other, each with the heap at that moment, and how it ends if all of them are written. -/
inductive Script (α : Type) where
  | done (result : Except RuntimeError α) (heap : Heap)
  | write (bytes : ByteArray) (heap : Heap) (rest : Script α)

namespace Script

variable {α β : Type}

/-- Follow a script up to its end or to the first write that fails. -/
def run : Script α → Output → EStateM.Result RuntimeError World α
  | done (.ok a) heap, output => .ok a ⟨heap, output⟩
  | done (.error e) heap, output => .error e ⟨heap, output⟩
  | write bytes heap rest, output =>
    if output.fits bytes then rest.run (output.write bytes)
    else .error (.output "output full") ⟨heap, output.write bytes⟩

/-- One script after another, which depends on the result and the heap of the first. -/
def andThen : Script α → (α → Heap → Script β) → Script β
  | done (.ok a) heap, next => next a heap
  | done (.error e) heap, _ => .done (.error e) heap
  | write bytes heap rest, next => .write bytes heap (rest.andThen next)

/-- Scripts in sequence are run in sequence. -/
private theorem run_andThen (script : Script α) (next : α → Heap → Script β) (output : Output) :
    (script.andThen next).run output =
      match script.run output with
      | .ok a w => (next a w.heap).run w.output
      | .error e w => .error e w := by
  induction script generalizing output with
  | done result heap => cases result <;> rfl
  | write bytes heap rest ih =>
    simp only [andThen, run]
    split
    · exact ih _
    · rfl

end Script

namespace NativeM

variable {α β : Type}

/-- The computation writes only through the writer that it is given, does not depend on what was
    written before, and passes on the error of a write that failed. -/
def WritesThrough (x : NativeM α) : Prop :=
  ∀ heap, ∃ script : Script α, ∀ output, x ⟨heap, output⟩ = script.run output

private theorem writesThrough_pure (a : α) : WritesThrough (pure a : NativeM α) :=
  fun heap => ⟨.done (.ok a) heap, fun _ => rfl⟩

private theorem writesThrough_throw (e : RuntimeError) : WritesThrough (throw e : NativeM α) :=
  fun heap => ⟨.done (.error e) heap, fun _ => rfl⟩

/-- Natives in sequence write through if their parts do. -/
theorem WritesThrough.bind {x : NativeM α} {f : α → NativeM β} (hx : WritesThrough x)
    (hf : ∀ a, WritesThrough (f a)) : WritesThrough (x >>= f) := by
  intro heap
  obtain ⟨script, hscript⟩ := hx heap
  refine ⟨script.andThen fun a heap => (hf a heap).choose, fun output => ?_⟩
  simp only [Bind.bind, EStateM.bind, hscript, Script.run_andThen]
  cases script.run output with
  | ok a w => exact (hf a w.heap).choose_spec w.output
  | error e w => rfl

/-- Writing is what a script is made of. -/
private theorem writesThrough_write (s : String) : WritesThrough (write s) := by
  intro heap
  refine ⟨.write s.toUTF8 heap (.done (.ok ()) heap), fun output => ?_⟩
  simp only [write, Script.run]

private theorem writesThrough_ofExcept (x : Except RuntimeError α) :
    WritesThrough (ofExcept x) := by
  cases x with
  | ok a => exact writesThrough_pure a
  | error e => exact writesThrough_throw e

/-- Reading a field does not look at the output. -/
private theorem writesThrough_readField (receiver : Value) (name : String) :
    WritesThrough (readField receiver name) := by
  intro heap
  refine ⟨.done (heap.read receiver name) heap, fun output => ?_⟩
  simp only [readField]
  cases heap.read receiver name <;> rfl

/-- Writing a field does not look at the output. -/
private theorem writesThrough_writeField (receiver : Value) (name : String) (value : Value) :
    WritesThrough (writeField receiver name value) := by
  intro heap
  cases h : heap.write receiver name value with
  | ok heap' => exact ⟨.done (.ok ()) heap', fun output => by simp only [writeField, h, Script.run]⟩
  | error e => exact ⟨.done (.error e) heap, fun output => by simp only [writeField, h, Script.run]⟩

/-- Making an object does not look at the output. -/
private theorem writesThrough_allocate (ref : ObjectRef) (fieldNames : List String) :
    WritesThrough (allocate ref fieldNames) := fun heap =>
  let made := heap.allocate ref (.ofList (fieldNames.map (·, .nil)))
  ⟨.done (.ok made.1) made.2, fun _ => rfl⟩

end NativeM

/-- Every call of the native writes only through the writer that it is given. -/
def Native.WritesThrough (native : Native) : Prop :=
  ∀ values, (native.call values).WritesThrough

open NativeM in
/-- `print` writes the text of its arguments. -/
private theorem Native.writesThrough_print : Native.print.WritesThrough := by
  intro values
  have hall : ∀ values, (printAll values).WritesThrough := by
    intro values
    induction values with
    | nil => exact writesThrough_pure ()
    | cons v rest ih => exact (writesThrough_write _).bind fun _ => ih
  exact (hall values).bind fun _ => writesThrough_pure _

/-- `range` writes nothing. -/
private theorem Native.writesThrough_range : Native.range.WritesThrough := by
  intro values
  simp only [Native.range]
  split
  · exact NativeM.writesThrough_pure _
  · exact NativeM.writesThrough_throw _

open NativeM in
/-- A native that is described by data writes only through the writer that it is given. -/
private theorem Action.writesThrough_native (action : Action) (name : String)
    (signature : Signature) :
    (action.native name signature).WritesThrough := by
  intro values
  show (action.run name values).WritesThrough
  -- Every action is a sequence of steps that write through.
  cases action with
  | constant value => exact writesThrough_pure value
  | argument index =>
    simp only [run]
    split
    · exact writesThrough_pure _
    · exact writesThrough_throw _
  | bracket =>
    have hall : ∀ values, (bracketAll values).WritesThrough := by
      intro values
      induction values with
      | nil => exact writesThrough_pure ()
      | cons v rest ih => exact (writesThrough_write _).bind fun _ => ih
    exact (hall values).bind fun _ => writesThrough_pure _
  | operate symbol =>
    simp only [run]
    split
    · exact writesThrough_ofExcept _
    · exact writesThrough_throw _
  | create ref fieldNames settings =>
    -- The fields of the new object are written one by one.
    have hall : ∀ invalid object settings,
        (applySettings invalid object values settings).WritesThrough := by
      intro invalid object settings
      induction settings with
      | nil => exact writesThrough_pure ()
      | cons setting rest ih =>
        rw [applySettings]
        split
        · exact writesThrough_throw _
        · exact (writesThrough_writeField _ _ _).bind fun _ => ih
    refine (writesThrough_allocate ref fieldNames).bind fun object => ?_
    exact (hall _ object settings).bind fun _ => writesThrough_pure _
  | readField field =>
    simp only [run]
    split
    · exact writesThrough_readField _ _
    · exact writesThrough_throw _
  | writeField field =>
    simp only [run]
    split
    · exact (writesThrough_writeField _ _ _).bind fun _ => writesThrough_pure _
    · exact writesThrough_throw _
  | updateField field symbol =>
    simp only [run]
    split
    · refine (writesThrough_readField _ _).bind fun old => ?_
      refine (writesThrough_ofExcept _).bind fun new => ?_
      exact (writesThrough_writeField _ _ _).bind fun _ => writesThrough_pure _
    · exact writesThrough_throw _
  | reject => exact writesThrough_throw _

/-- All functions and methods of the registry write only through the writer that they are
    given. -/
structure Registry.WritesThrough (r : Registry) : Prop where
  functions : ∀ native ∈ r.functions, native.WritesThrough
  methods : ∀ o ∈ r.objects, ∀ key native, o.methods.get? key = some native → native.WritesThrough

/-- Methods are natives of the registry as well. -/
theorem Registry.WritesThrough.method {r : Registry} (hr : r.WritesThrough) {receiver : Value}
    {name : String} {arity : Nat} {native : Native}
    (h : receiver.method r.objects name arity = .ok native) : native.WritesThrough := by
  obtain ⟨_, _, _, object, hobject, _, hget⟩ := Value.exists_of_method_eq_ok h
  exact hr.methods object hobject _ _ hget

/-! ## What a limited writer keeps -/

namespace Output

/-- What a writer that takes `n` bytes has kept of an output. -/
def cut (n : Nat) (o : Output) : Output := ⟨o.written.extract 0 n, some n, o.flushable⟩

/-- The second output is the first one with more written to it. -/
def Extends (o o' : Output) : Prop := ∃ bytes, o' = { o with written := o.written ++ bytes }

theorem Extends.refl (o : Output) : o.Extends o := ⟨.empty, by rw [ByteArray.append_empty]⟩

theorem Extends.trans {o o' o'' : Output} (h : o.Extends o') (h' : o'.Extends o'') :
    o.Extends o'' := by
  obtain ⟨bytes, rfl⟩ := h
  obtain ⟨bytes', rfl⟩ := h'
  exact ⟨bytes ++ bytes', by rw [ByteArray.append_assoc]⟩

private theorem Extends.size_le {o o' : Output} (h : o.Extends o') :
    o.written.size ≤ o'.written.size := by
  obtain ⟨bytes, rfl⟩ := h
  rw [ByteArray.size_append]
  omega

/-- What is written after a writer is full makes no difference to it. -/
private theorem Extends.cut_eq {o o' : Output} (h : o.Extends o') {n : Nat}
    (hn : n ≤ o.written.size) :
    o'.cut n = o.cut n := by
  obtain ⟨bytes, rfl⟩ := h
  have hnone : bytes.extract (0 - o.written.size) (n - o.written.size) = .empty := by
    rw [← ByteArray.size_eq_zero_iff, ByteArray.size_extract]
    omega
  simp only [cut, ByteArray.extract_append, hnone, ByteArray.append_empty]

/-- A writer that is not full has kept everything. -/
private theorem cut_of_size_le {o : Output} {n : Nat} (hn : o.written.size ≤ n) :
    o.cut n = ⟨o.written, some n, o.flushable⟩ := by
  have hnone : o.written.extract o.written.size n = .empty := by
    rw [← ByteArray.size_eq_zero_iff, ByteArray.size_extract]
    omega
  rw [cut, ByteArray.extract_eq_extract_append_extract o.written.size (Nat.zero_le _) hn,
    ByteArray.extract_zero_size, hnone, ByteArray.append_empty]

/-- Without a limit all bytes are written behind what is there. -/
private theorem extends_write {o : Output} (ho : o.limit = none) (bytes : ByteArray) :
    o.Extends (o.write bytes) := ⟨bytes, by simp only [write, accepted, ho]⟩

/-- Without a limit all bytes count. -/
private theorem write_size {o : Output} (ho : o.limit = none) (bytes : ByteArray) :
    (o.write bytes).written.size = o.written.size + bytes.size := by
  simp only [write, accepted, ho, ByteArray.size_append]

/-- The limited writer has room exactly if what the other one has then is not too much. -/
private theorem fits_cut {o : Output} (ho : o.limit = none) {n : Nat} (hn : o.written.size ≤ n)
    (bytes : ByteArray) : (o.cut n).fits bytes = true ↔ (o.write bytes).written.size ≤ n := by
  rw [write_size ho, cut_of_size_le hn]
  simp only [fits, decide_eq_true_eq]
  omega

/-- Writing to the limited writer keeps what it would have kept of the other one. -/
private theorem cut_write {o : Output} (ho : o.limit = none) {n : Nat} (hn : o.written.size ≤ n)
    (bytes : ByteArray) : (o.cut n).write bytes = (o.write bytes).cut n := by
  have hkept : o.written.extract 0 n = o.written := congrArg written (cut_of_size_le hn)
  simp only [write, accepted, cut, ho, hkept, ByteArray.extract_append, Nat.zero_sub]

end Output

/-- The world with a writer that takes `n` bytes and has kept what it could. -/
def World.cut (n : Nat) (w : World) : World := { w with output := w.output.cut n }

/-- The machine with such a writer. -/
def Machine.cut (n : Nat) (m : Machine) : Machine := { m with world := m.world.cut n }

/-- How a run ends with the limited writer, if `r` is how it ends with one that takes everything:
    in the same way if all that was written has room, and else with the failed write. -/
def CutsAt {α : Type} (n : Nat) (r r' : EStateM.Result Halt Machine α) : Prop :=
  let output := (endState r).world.output
  (output.written.size ≤ n ∧ r' = mapState (Machine.cut n) r) ∨
  (n < output.written.size ∧ ∃ m, r' = .error (.error (.output "output full")) m ∧
    m.world.output = output.cut n)

/-! ## Following a script on both writers -/

namespace Script

variable {α : Type}

/-- A script only adds to an output without a limit. -/
private theorem extends_run (script : Script α) (output : Output) (ho : output.limit = none) :
    output.Extends (endState (script.run output)).output := by
  induction script generalizing output with
  | done result heap => cases result <;> exact .refl output
  | write bytes heap rest ih =>
    have hfits : output.fits bytes = true := by simp only [Output.fits, ho]
    rw [run, if_pos hfits]
    exact (Output.extends_write ho bytes).trans (ih _ ho)

/-- All writes of the script have room, or the first that has none ends it. -/
private theorem run_cut (script : Script α) (output : Output) (ho : output.limit = none) {n : Nat}
    (hn : output.written.size ≤ n) :
    let after := (endState (script.run output)).output
    (after.written.size ≤ n ∧
      script.run (output.cut n) = mapState (World.cut n) (script.run output)) ∨
    (n < after.written.size ∧
      ∃ heap, script.run (output.cut n) = .error (.output "output full") ⟨heap, after.cut n⟩) := by
  -- Write by write: as long as there is room the two outputs agree up to the limit.
  induction script generalizing output with
  | done result heap =>
    cases result with
    | ok a => exact .inl ⟨hn, rfl⟩
    | error e => exact .inl ⟨hn, rfl⟩
  | write bytes heap rest ih =>
    have hfits : output.fits bytes = true := by simp only [Output.fits, ho]
    have hlater := rest.extends_run (output.write bytes) ho
    by_cases hroom : (output.write bytes).written.size ≤ n
    · -- There is room for this write, and the rest decides.
      have hsame := ih (output.write bytes) ho hroom
      rw [← Output.cut_write ho hn] at hsame
      simp only [run, hfits, (Output.fits_cut ho hn bytes).mpr hroom, if_true]
      exact hsame
    -- There is no room, so this write fails, and what comes later is beyond the limit.
    · have hfull : (output.cut n).fits bytes = false := by
        rw [Bool.eq_false_iff]
        exact fun h => hroom ((Output.fits_cut ho hn bytes).mp h)
      have hsize := hlater.size_le
      simp only [run, hfits, hfull, if_true, Bool.false_eq_true, if_false]
      refine .inr ⟨by omega, heap, ?_⟩
      rw [hlater.cut_eq (by omega), Output.cut_write ho hn]

end Script

/-! ## Both writers side by side -/

/-- The function writes only through the writer that it is given, if it is a native. -/
def Callable.WritesThrough : Callable → Prop
  | native n => n.WritesThrough
  | method _ => True

/-- The writer takes everything, and all natives in scope write only through it. -/
structure Machine.Unlimited (m : Machine) : Prop where
  limit_eq : m.world.output.limit = none
  functions : m.scopes.AllFunctions Callable.WritesThrough

/-- The second machine may be what the first one becomes: the same holds of it, and more was
    written. -/
structure Machine.Writes (m m' : Machine) : Prop where
  unlimited : m'.Unlimited
  output : m.world.output.Extends m'.world.output

namespace Machine

variable {m m' m'' : Machine}

/-- An output without a limit has been written by nothing so far. -/
theorem Unlimited.writes (h : m.Unlimited) : m.Writes m := ⟨h, .refl _⟩

theorem Writes.trans (h : m.Writes m') (h' : m'.Writes m'') : m.Writes m'' :=
  ⟨h'.unlimited, h.output.trans h'.output⟩

/-- Only scopes and calls have changed. -/
private theorem Unlimited.withScopes (h : m.Unlimited) {scopes : Scopes Value Callable}
    {calls : Nat}
    (hf : scopes.AllFunctions Callable.WritesThrough) : m.Writes ⟨scopes, m.world, calls⟩ :=
  ⟨⟨h.limit_eq, hf⟩, .refl _⟩

end Machine

namespace Exec

variable {α β : Type} {n : Nat}

/-- The first computation, on a writer that takes everything, writes more and nothing else; the
    second one, on a writer that takes `n` bytes, does the same as long as there is room. -/
def Metered (n : Nat) (x y : Exec α) : Prop :=
  ∀ m : Machine, m.Unlimited → m.Writes (endState (x m)) ∧
    (m.world.output.written.size ≤ n → CutsAt n (x m) (y (m.cut n)))

/-- A computation that does not look at the output and leaves it as it is. -/
private theorem metered_of_silent {x : Exec α} (hx : ∀ m : Machine, m.Unlimited →
    m.Writes (endState (x m)) ∧ (endState (x m)).world.output = m.world.output ∧
      x (m.cut n) = mapState (Machine.cut n) (x m)) : Metered n x x := by
  intro m hm
  obtain ⟨hwrites, houtput, hsame⟩ := hx m hm
  exact ⟨hwrites, fun hn => .inl ⟨by rw [houtput]; exact hn, hsame⟩⟩

/-- A value at once writes nothing. -/
private theorem metered_pure (a : α) : Metered n (pure a : Exec α) (pure a) :=
  metered_of_silent fun _ hm => ⟨hm.writes, rfl, rfl⟩

/-- An error at once writes nothing either. -/
private theorem metered_throw (e : Halt) : Metered n (throw e : Exec α) (throw e) :=
  metered_of_silent fun _ hm => ⟨hm.writes, rfl, rfl⟩

/-- A sequence is metered step by step: the limit is met in the first or in the second part. -/
theorem Metered.bind {x y : Exec α} {f g : α → Exec β} (hx : Metered n x y)
    (hf : ∀ a, Metered n (f a) (g a)) : Metered n (x >>= f) (y >>= g) := by
  intro m hm
  obtain ⟨hwrites, hcut⟩ := hx m hm
  simp only [Bind.bind, EStateM.bind]
  -- An error of the first part is the end of both.
  cases hrun : x m with
  | error e m' =>
    rw [hrun] at hwrites hcut
    refine ⟨hwrites, fun hn => ?_⟩
    obtain ⟨hroom, hend⟩ | ⟨hfull, m'', hend, houtput⟩ := hcut hn
    · exact .inl ⟨hroom, by rw [hend]; rfl⟩
    · exact .inr ⟨hfull, m'', by rw [hend], houtput⟩
  | ok a m' =>
    rw [hrun] at hwrites hcut
    obtain ⟨hwrites', hcut'⟩ := hf a m' hwrites.unlimited
    refine ⟨hwrites.trans hwrites', fun hn => ?_⟩
    obtain ⟨hroom, hend⟩ | ⟨hfull, m'', hend, houtput⟩ := hcut hn
    · -- All that the first part wrote had room, and the second part decides.
      rw [hend]
      exact hcut' hroom
    · -- The first part was stopped, and what the second part would write goes nowhere.
      have hfull' : n < m'.world.output.written.size := hfull
      refine .inr ⟨Nat.lt_of_lt_of_le hfull' hwrites'.output.size_le, m'', by rw [hend], ?_⟩
      exact houtput.trans (hwrites'.output.cut_eq (by omega)).symm

/-- A native that writes through is cut where its script is. -/
private theorem metered_ofNative {x : NativeM α} (hx : x.WritesThrough) :
    Metered n (ofNative x) (ofNative x) := by
  intro m hm
  obtain ⟨script, hscript⟩ := hx m.world.heap
  have hends := script.extends_run m.world.output hm.limit_eq
  have hcut := fun hn => script.run_cut m.world.output hm.limit_eq (n := n) hn
  have hlimited : x (m.cut n).world = script.run (m.world.output.cut n) := hscript _
  rw [← hscript] at hends
  rw [← hscript, ← hlimited] at hcut
  -- What holds of the world that the native leaves behind holds of the machine around it.
  have hkeep : ∀ w : World, m.world.output.Extends w.output → m.Writes { m with world := w } := by
    rintro w ⟨bytes, hbytes⟩
    refine ⟨⟨?_, hm.functions⟩, bytes, hbytes⟩
    show w.output.limit = none
    rw [hbytes]
    exact hm.limit_eq
  unfold ofNative
  cases hrun : x m.world with
  | ok a w =>
    rw [hrun] at hends hcut
    refine ⟨hkeep w hends, fun hn => ?_⟩
    obtain ⟨hroom, hend⟩ | ⟨hfull, heap, hend⟩ := hcut hn
    · exact .inl ⟨hroom, by rw [hend]; rfl⟩
    · exact .inr ⟨hfull, _, by rw [hend], rfl⟩
  | error e w =>
    rw [hrun] at hends hcut
    refine ⟨hkeep w hends, fun hn => ?_⟩
    obtain ⟨hroom, hend⟩ | ⟨hfull, heap, hend⟩ := hcut hn
    · exact .inl ⟨hroom, by rw [hend]; rfl⟩
    · exact .inr ⟨hfull, _, by rw [hend], rfl⟩

/-! ## Steps of the machine -/

/-- Variables are not part of the output. -/
private theorem metered_readVariable (name : String) :
    Metered n (readVariable name) (readVariable name) := by
  refine metered_of_silent fun m hm => ?_
  have hscopes : (m.cut n).scopes = m.scopes := rfl
  simp only [readVariable, hscopes]
  cases m.scopes.lookup? name <;> exact ⟨hm.writes, rfl, rfl⟩

private theorem metered_writeVariable (name : String) (value : Value) :
    Metered n (writeVariable name value) (writeVariable name value) := by
  refine metered_of_silent fun m hm => ?_
  have hscopes : (m.cut n).scopes = m.scopes := rfl
  simp only [writeVariable, assign?_eq, hscopes]
  cases m.scopes.search fun frame => frame.vars.get? name with
  | none => exact ⟨hm.writes, rfl, rfl⟩
  | some found =>
    exact ⟨hm.withScopes (hm.functions.sameShape (sameShape_store _ _ _ _)), rfl, rfl⟩

/-- A definition that keeps the natives in scope. -/
private theorem metered_changeScopes
    {f : Scopes Value Callable → Except ScopeError (Scopes Value Callable)}
    (hf : ∀ s s', s.AllFunctions Callable.WritesThrough → f s = .ok s' →
      s'.AllFunctions Callable.WritesThrough) : Metered n (changeScopes f) (changeScopes f) := by
  refine metered_of_silent fun m hm => ?_
  have hscopes : (m.cut n).scopes = m.scopes := rfl
  simp only [changeScopes, hscopes]
  cases hd : f m.scopes with
  | error e => exact ⟨hm.writes, rfl, rfl⟩
  | ok scopes => exact ⟨hm.withScopes (hf _ _ hm.functions hd), rfl, rfl⟩

private theorem metered_defineVariable (name : String) (value : Value) :
    Metered n (defineVariable name value) (defineVariable name value) := by
  refine metered_changeScopes fun s s' hs hd => ?_
  obtain ⟨_, rfl⟩ := defineVariable_eq_ok_iff.mp hd
  exact hs.sameShape (sameShape_store _ _ _ _)

private theorem metered_defineMethod (method : Method) :
    Metered n (defineMethod method) (defineMethod method) := by
  unfold defineMethod defineFunction
  refine metered_changeScopes fun s s' hs hd => ?_
  obtain ⟨_, rfl⟩ := defineFunction_eq_ok_iff.mp hd
  exact hs.redefineFunction _ _ trivial

/-- A computation between two changes of scopes and calls. -/
theorem Metered.between {x y : Exec α} (h : Metered n x y)
    (enter leave : Scopes Value Callable → Scopes Value Callable) (up down : Nat → Nat)
    (henter : ∀ s, s.AllFunctions Callable.WritesThrough →
      (enter s).AllFunctions Callable.WritesThrough)
    (hleave : ∀ s, s.AllFunctions Callable.WritesThrough →
      (leave s).AllFunctions Callable.WritesThrough) :
    Metered n
      (fun m => mapState (fun m' => ⟨leave m'.scopes, m'.world, down m'.calls⟩)
        (x ⟨enter m.scopes, m.world, up m.calls⟩))
      (fun m => mapState (fun m' => ⟨leave m'.scopes, m'.world, down m'.calls⟩)
        (y ⟨enter m.scopes, m.world, up m.calls⟩)) := by
  intro m hm
  obtain ⟨hwrites, hcut⟩ := h ⟨enter m.scopes, m.world, up m.calls⟩
    ⟨hm.limit_eq, henter _ hm.functions⟩
  constructor
  · rw [endState_mapState]
    exact ⟨⟨hwrites.unlimited.limit_eq, hleave _ hwrites.unlimited.functions⟩, hwrites.output⟩
  · intro hn
    -- Entering and leaving do not touch the output, so the body decides where the limit is met.
    obtain ⟨hroom, hend⟩ | ⟨hfull, m'', hend, houtput⟩ := hcut hn
    · refine .inl ⟨by rw [endState_mapState]; exact hroom, ?_⟩
      show mapState _ (y (Machine.cut n ⟨enter m.scopes, m.world, up m.calls⟩)) = _
      rw [hend, mapState_mapState, mapState_mapState]
      rfl
    · refine .inr ⟨by rw [endState_mapState]; exact hfull, ?_⟩
      refine ⟨⟨leave m''.scopes, m''.world, down m''.calls⟩, ?_, ?_⟩
      · show mapState _ (y (Machine.cut n ⟨enter m.scopes, m.world, up m.calls⟩)) = _
        rw [hend]
        rfl
      · rw [endState_mapState]
        exact houtput

/-- A scope is left whether the limit was met in it or not. -/
theorem Metered.inScope {x y : Exec α} (h : Metered n x y) (parent : FrameId) :
    Metered n (inScope parent x) (inScope parent y) := by
  have hbody := h.between (·.pushChildOf parent) (·.pop) id id
    (fun _ hs => hs.pushChildOf parent) (fun _ hs => hs.pop)
  intro m hm
  rw [inScope_eq_mapState, inScope_eq_mapState]
  exact hbody m hm

/-- A block is left whether the limit was met in it or not. -/
theorem Metered.inBlock {x y : Exec α} (h : Metered n x y) :
    Metered n (inBlock x) (inBlock y) :=
  fun m hm => h.inScope m.scopes.current m hm

/-- Calls are counted in both runs. -/
theorem Metered.counted {x y : Exec α} (h : Metered n x y) :
    Metered n (counted x) (counted y) := by
  have hbody := h.between id id (· + 1) (· - 1) (fun _ hs => hs) (fun _ hs => hs)
  intro m hm
  rw [counted_eq_mapState, counted_eq_mapState]
  exact hbody m hm

/-! ## Calls and programs -/

/-- A call writes what the method or the native writes. -/
private theorem metered_call {inv : Invoke} (hinv : ∀ method values, Metered n (inv method values)
    (inv method values)) (name : String) (values : List Value) :
    Metered n (call inv name values) (call inv name values) := by
  intro m hm
  have hscopes : (m.cut n).scopes = m.scopes := rfl
  simp only [call, Bind.bind, EStateM.bind, findFunction, hscopes]
  cases hf : m.scopes.function? name values.length with
  | none => exact metered_throw (.error (.undefinedFunction name values.length)) m hm
  | some callable =>
    have hwrites := hm.functions.function? hf
    cases callable with
    | native native => exact metered_ofNative (hwrites values) m hm
    | method method => exact hinv method values m hm

/-- The steps of the machine are metered if calls are. -/
private theorem lockstep_metered {r : Registry} (hr : r.WritesThrough) (rounds : Nat) {inv : Invoke}
    (hinv : ∀ method values, Metered n (inv method values) (inv method values)) :
    Lockstep ⟨r.objects, rounds⟩ ⟨r.objects, rounds⟩ inv inv True (Metered n) where
  objects_eq := rfl
  pure := metered_pure
  fail := fun e => metered_throw (.error e)
  -- Only the cases that reach a native have something to show.
  bind := Metered.bind
  readVariable := metered_readVariable
  writeVariable := metered_writeVariable
  defineVariable := metered_defineVariable
  inBlock := Metered.inBlock
  readField := fun _ _ => metered_ofNative (NativeM.writesThrough_readField _ _)
  writeField := fun _ _ _ => metered_ofNative (NativeM.writesThrough_writeField _ _ _)
  call := metered_call hinv
  method := fun hm values => metered_ofNative (hr.method hm values)
  exhausted := fun _ => ⟨rfl, metered_throw .exhausted⟩

/-- Methods are invoked alike at every level, by the lockstep of the two runs. -/
private theorem metered_invokeWithin {r : Registry} (hr : r.WritesThrough) (rounds levels : Nat)
    (method : Method) (values : List Value) :
    Metered n (invokeWithin ⟨r.objects, rounds⟩ levels method values)
      (invokeWithin ⟨r.objects, rounds⟩ levels method values) := by
  induction levels generalizing method values with
  | zero => exact metered_throw _
  | succ levels ih =>
    have L := lockstep_metered hr rounds ih
    have hbody := L.methodBody method values (.inl trivial)
    intro m hm
    -- The limit on the output takes no part in how deep the calls are.
    by_cases hfull : maxCalls ≤ m.calls
    · rw [invokeWithin_of_maxCalls_le _ _ method values hfull]
      have hfull' : maxCalls ≤ (m.cut n).calls := hfull
      rw [invokeWithin_of_maxCalls_le _ _ method values hfull']
      exact metered_throw _ m hm
    · have hlt : m.calls < maxCalls := Nat.not_le.mp hfull
      have hlt' : (m.cut n).calls < maxCalls := hlt
      rw [invokeWithin_of_lt_maxCalls _ _ method values hlt,
        invokeWithin_of_lt_maxCalls _ _ method values hlt']
      exact ((hbody.inScope global).counted.bind fun completion =>
        metered_pure completion.value) m hm

/-- Whole programs write what their fields and `main` write. -/
private theorem metered_execute {r : Registry} (hr : r.WritesThrough) (rounds : Nat)
    (source : Source) :
    Metered n (execute ⟨r.objects, rounds⟩ source) (execute ⟨r.objects, rounds⟩ source) := by
  rw [execute_eq_executeVia]
  exact (lockstep_metered hr rounds (metered_invokeWithin hr rounds _)).executeVia source
    fun method _ => metered_defineMethod method

end Exec

/-! ## Whole runs -/

/-- A writer that takes `n` bytes, to which nothing was written. -/
def Output.limited (n : Nat) : Output := ⟨.empty, some n, true⟩

/-- An output without a limit is cut to one with it. -/
private theorem Output.cut_unlimited (n : Nat) : Output.unlimited.cut n = .limited n :=
  cut_of_size_le (Nat.zero_le n)

/-- A program that is run in a session, with a writer that takes everything and with one that
    takes `n` bytes.  When a session that is at rest runs out of room, nothing runs after the write
    that failed. -/
private theorem Session.execute_cut {s after : Session} (hr : s.registry.WritesThrough)
    (hs : s.machine.Unlimited) {n rounds : Nat} (hn : s.output.written.size ≤ n) {source : Source}
    {result : Except RuntimeError Int} (h : s.execute rounds source = some (result, after)) :
    s.output.Extends after.output ∧
    ∃ after', Session.execute { s with machine := s.machine.cut n } rounds source =
        some (if after.output.written.size ≤ n then result else .error (.output "output full"),
          after') ∧
      after'.output = after.output.cut n ∧
      (s.machine.Resting → n < after.output.written.size →
        LeftByNative ⟨s.registry.objects, rounds⟩ source (s.machine.cut n) (.output "output full")
          after'.machine) := by
  obtain ⟨hwrites, hcut⟩ := metered_execute (n := n) hr rounds source s.machine hs
  obtain ⟨hrun, hregistry⟩ := Session.execute_eq_some_iff.mp h
  have hend : endState (answered result after.machine) = after.machine := by
    cases result <;> rfl
  rw [hrun] at hwrites hcut
  rw [hend] at hwrites
  refine ⟨hwrites.output, ?_⟩
  -- Either all output has room, or the run stops at the first write without.
  obtain ⟨hroom, hlimited⟩ | ⟨hfull, m, hlimited, houtput⟩ := hcut hn <;>
  simp only [hend] at *
  · refine ⟨⟨s.registry, after.machine.cut n⟩, Session.execute_eq_some_iff.mpr ⟨?_, rfl⟩, rfl,
      fun _ hlt => absurd hroom (Nat.not_le.mpr hlt)⟩
    rw [hlimited, Session.output, if_pos hroom]
    cases result <;> rfl
  · refine ⟨⟨s.registry, m⟩, Session.execute_eq_some_iff.mpr ⟨?_, rfl⟩, houtput, fun hrest _ => ?_⟩
    · rw [hlimited, Session.output, if_neg (Nat.not_le.mpr hfull)]
      rfl
    · -- The limit takes no part in where a run stops, so the limited machine is at rest as well.
      have hrest' : (s.machine.cut n).Resting := ⟨hrest.located, hrest.calls_eq⟩
      exact (execute_stopsAtWrite hrest').of_error hlimited _ rfl

/-- A program that is run with a writer of `n` bytes.  If what it writes to a writer without limit
    has room, nothing changes.  Otherwise exactly the first `n` bytes of it are written, and the
    run ends with the error of the write that did not fit: the native that wrote is the last thing
    that runs, so the heap, the output and the globals at the end are those that it left. -/
theorem run_limited {r : Registry} (hr : r.WritesThrough) {rounds : Nat} {heap : Heap}
    {text : String} {result : Except Error Int} {output : Output}
    (h : run r rounds ⟨heap, .unlimited⟩ text = some (result, output)) (n : Nat) :
    run r rounds ⟨heap, .limited n⟩ text =
      (if output.written.size ≤ n then some (result, ⟨output.written, some n, true⟩)
      else some (.error (.runtime (.output "output full")),
        ⟨output.written.extract 0 n, some n, true⟩)) ∧
    (n < output.written.size → ∃ p s after, check r text = .ok p ∧
      Session.start r ⟨heap, .limited n⟩ = .ok s ∧
      s.execute rounds p.source = some (.error (.output "output full"), after) ∧
      LeftByNative ⟨r.objects, rounds⟩ p.source s.machine (.output "output full")
        after.machine) := by
  have hempty : Output.unlimited.written.size ≤ n := Nat.zero_le n
  unfold run at h ⊢
  cases hcheck : check r text with
  | error e =>
    rw [hcheck] at h
    cases h
    exact ⟨(if_pos hempty).symm, fun hlt => absurd hempty (Nat.not_le.mpr hlt)⟩
  | ok program =>
    rw [hcheck] at h
    simp only [Session.start_eq] at h ⊢
    cases hscopes : nativeScopes r.functions with
    | error e =>
      rw [hscopes] at h
      cases h
      exact ⟨(if_pos hempty).symm, fun hlt => absurd hempty (Nat.not_le.mpr hlt)⟩
    | ok scopes =>
      rw [hscopes] at h
      simp only at h ⊢
      cases hrun : Session.execute ⟨r, ⟨scopes, ⟨heap, .unlimited⟩, 0⟩⟩ rounds program.source with
      | none => rw [hrun] at h; exact nomatch h
      | some answer =>
        obtain ⟨ended, after⟩ := answer
        -- The two sessions start in the same state but for the limit.
        have hunlimited : Machine.Unlimited ⟨scopes, ⟨heap, .unlimited⟩, 0⟩ :=
          ⟨rfl, allFunctions_nativeScopes hr.functions hscopes⟩
        obtain ⟨⟨bytes, hbytes⟩, after', hlimited, houtput, hleft⟩ :=
          Session.execute_cut hr hunlimited hempty hrun
        -- Writing does not change whether the writer can be flushed.
        have hflush : after.output.flushable = true := by rw [hbytes]; rfl
        have hflush' : after'.output.flushable = true := by rw [houtput]; exact hflush
        rw [Machine.cut, World.cut, Output.cut_unlimited] at hlimited hleft
        rw [hlimited]
        -- The answer of the unlimited run is the whole result, since its writer can be flushed.
        have houtcome : result = ended.mapError .runtime ∧ output = after.output := by
          rw [hrun] at h
          cases ended with
          | error e =>
            cases h
            exact ⟨rfl, rfl⟩
          | ok k =>
            simp only [hflush, if_true] at h
            cases h
            exact ⟨rfl, rfl⟩
        obtain ⟨rfl, rfl⟩ := houtcome
        -- Either everything fits, or the run stops at the byte where the room ends.
        by_cases hroom : after.output.written.size ≤ n
        · refine ⟨?_, fun hlt => absurd hroom (Nat.not_le.mpr hlt)⟩
          rw [Output.cut_of_size_le hroom, hflush] at houtput
          rw [if_pos hroom, if_pos hroom, ← houtput]
          cases ended with
          | error e => rfl
          | ok k => exact if_pos hflush'
        · rw [Output.cut, hflush] at houtput
          rw [if_neg hroom] at hlimited ⊢
          rw [if_neg hroom, ← houtput]
          -- What is left at the failed write is known of runs from a session at rest.
          have hrest : Machine.Resting ⟨scopes, ⟨heap, .unlimited⟩, 0⟩ :=
            ⟨of_nativeScopes located_new (fun _ _ _ h => h.redefineFunction _ _ _) hscopes, rfl⟩
          exact ⟨rfl, fun hlt => ⟨program, _, after', rfl, rfl, hlimited, hleft hrest hlt⟩⟩

/-- `print`, `range`, and a native that writes its arguments between brackets. -/
def Registry.bracketing : Registry :=
  withRange.register (Action.bracket.native "show" ⟨[.any], .nil⟩)

/-- The natives of the registry write their text and nothing else. -/
private theorem Registry.writesThrough_bracketing : Registry.bracketing.WritesThrough where
  functions := by
    intro native hnative
    simp only [bracketing, withRange, standard, register, empty, List.nil_append, List.cons_append,
      List.mem_cons, List.not_mem_nil, or_false] at hnative
    obtain rfl | rfl | rfl := hnative
    · exact Native.writesThrough_print
    · exact Native.writesThrough_range
    · exact Action.writesThrough_native _ _ _
  methods := fun _ ho => nomatch ho

/-- A program that writes three lines and a text between brackets. -/
def chatty : String :=
  "DEF main() DO FOR i IN range(8, 11) DO print(i); END show(\"end\"); RETURN 7; END"

/-- Twelve bytes are enough for the program, and six end it in the middle of its third line, where
    `print` is the last thing that runs. -/
theorem chatty_is_cut : ∃ output,
    run .bracketing 0 ⟨.empty, .unlimited⟩ chatty = some (.ok 7, output) ∧
    output.written = "8\n9\n10\n[end]".toUTF8 ∧
    run .bracketing 0 ⟨.empty, .limited 12⟩ chatty =
      some (.ok 7, ⟨output.written, some 12, true⟩) ∧
    run .bracketing 0 ⟨.empty, .limited 6⟩ chatty =
      some (.error (.runtime (.output "output full")), ⟨"8\n9\n10".toUTF8, some 6, true⟩) ∧
    ∃ p s after, check .bracketing chatty = .ok p ∧
      Session.start .bracketing ⟨.empty, .limited 6⟩ = .ok s ∧
      s.execute 0 p.source = some (.error (.output "output full"), after) ∧
      LeftByNative ⟨[], 0⟩ p.source s.machine (.output "output full") after.machine := by
  have hcompute : (run .bracketing 0 ⟨.empty, .unlimited⟩ chatty).any fun answer =>
      decide (answer.1.toOption = some 7 ∧ answer.2.written = "8\n9\n10\n[end]".toUTF8) := by
    decide +kernel
  obtain ⟨⟨result, output⟩, hrun, hanswer⟩ := (Option.any_eq_true _ _).mp hcompute
  obtain ⟨hseven, hwritten⟩ := of_decide_eq_true hanswer
  cases result with
  | error e => exact nomatch hseven
  | ok k =>
    cases hseven
    -- One run without a limit gives the result for every limit.
    have hlimited := run_limited Registry.writesThrough_bracketing hrun
    have hsize : output.written.size = 12 := by rw [hwritten]; decide +kernel
    have hsix : output.written.extract 0 6 = "8\n9\n10".toUTF8 := by rw [hwritten]; decide +kernel
    obtain ⟨h12, _⟩ := hlimited 12
    obtain ⟨h6, hleft⟩ := hlimited 6
    rw [if_pos (by omega)] at h12
    rw [if_neg (by omega), hsix] at h6
    exact ⟨output, hrun, hwritten, h12, h6, hleft (by omega)⟩

end LetLang

import MiniLisp.Proofs.Completion
import MiniLisp.Proofs.Kinds.Application

/-!
# Runs keep to a kind

The machine takes calls from the text that it reads, from the bodies of functions, and from deferred
calls, which build one when they run. A `CallKind` is a kind of values that says which calls belong
to it: those whose parts belong to it and which have a property of their own. If calls have this
property from the beginning and it is not lost while they are run, then everything that a run meets
is of the kind. `step_keeps` says so for a step and `drive_runBlocks_keeps` for a whole run.
-/

namespace MiniLisp

/-- A property of calls that runs keep. Every call has it when it begins. The machine does not take
it away: not when the call is begun again, nor when it is finished, and not when one of the
arguments of a call that has been built is marked as finished. -/
structure CallProperty (A : Call → Prop) : Prop where
  begun : ∀ {fn : Function} {args c}, fn.begin args = .ok c → A c
  again : ∀ {c : Call}, A c → A (.begin c.fn c.args)
  finished : ∀ {f : Frame}, A (.begin f.call.fn f.call.args) → f.call.resolved = true →
    f.isReady (-1) = false → A f.call
  marked : ∀ {c d : Call} {i}, A c → A { c with args := c.args.set i (.call d) }

/-- A kind to which those functions and calls belong whose parts belong to it. Calls must also have
the property `A`. -/
structure CallKind (P C : Value → Prop) (A : Call → Prop) : Prop
    extends Kind P C, CallProperty A where
  builtin : ∀ {b}, P (.function (.builtin b))
  parts : ∀ {d}, P (.function (.user d)) → C d.body ∧ ∀ e ∈ d.captures, P e.2
  call : ∀ {c : Call}, C (.call c) ↔
    (P (.function c.fn) ∧ (∀ v ∈ c.args, C v) ∧ C c.body) ∧ A c

/-! ## Values all of whose calls have a property -/

mutual

/-- All calls in a value have a property; only as an argument, `arg`, it may itself be a call. -/
def Value.Holds (A : Call → Prop) (arg : Bool) : Value → Prop
  | .tuple items => Value.AllHold A false items
  | .list items => Value.AllHold A false items
  | .function f => f.Holds A
  | .call c => arg = true ∧ c.Holds A
  | _ => True

/-- All calls in the values of a list have a property. -/
def Value.AllHold (A : Call → Prop) (arg : Bool) : List Value → Prop
  | [] => True
  | v :: vs => v.Holds A arg ∧ Value.AllHold A arg vs

/-- All calls in the body of a function and in what it captured have a property. -/
def Function.Holds (A : Call → Prop) : Function → Prop
  | .builtin _ => True
  | .user d => d.Holds A

/-- All calls in the body of a definition and in what it captured have a property. -/
def Definition.Holds (A : Call → Prop) : Definition → Prop
  | ⟨_, _, _, _, body, captures⟩ => body.Holds A true ∧ Scope.Hold A captures

/-- All calls in the values of a scope have a property. -/
def Scope.Hold (A : Call → Prop) : List (Value × Value) → Prop
  | [] => True
  | (_, v) :: rest => v.Holds A false ∧ Scope.Hold A rest

/-- A call and all calls in its parts have a property. -/
def Call.Holds (A : Call → Prop) : Call → Prop
  | ⟨fn, args, resolved, prepared, body⟩ =>
    (fn.Holds A ∧ Value.AllHold A true args ∧ body.Holds A true) ∧
      A ⟨fn, args, resolved, prepared, body⟩

end

section Holds

variable {A : Call → Prop} {arg : Bool}

theorem allHold_iff {vs : List Value} : Value.AllHold A arg vs ↔ ∀ v ∈ vs, v.Holds A arg := by
  induction vs with
  | nil => simp [Value.AllHold]
  | cons v vs ih => rw [Value.AllHold, ih, List.forall_mem_cons]

theorem Scope.hold_iff {s : Scope} : Scope.Hold A s ↔ s.All fun v => v.Holds A false := by
  induction s with
  | nil => simp [Scope.Hold, Scope.all_nil]
  | cons e s ih =>
    obtain ⟨k, v⟩ := e
    rw [Scope.Hold, Scope.all_cons, ih]

theorem holds_user_iff {d : Definition} :
    (Value.function (.user d)).Holds A false ↔
      d.body.Holds A true ∧ ∀ e ∈ d.captures, e.2.Holds A false := by
  obtain ⟨id, name, params, variadic, body, captures⟩ := d
  rw [Value.Holds, Function.Holds, Definition.Holds, Scope.hold_iff]
  rfl

theorem Call.holds_iff {c : Call} :
    c.Holds A ↔ (c.fn.Holds A ∧ (∀ v ∈ c.args, v.Holds A true) ∧ c.body.Holds A true) ∧ A c := by
  obtain ⟨fn, args, resolved, prepared, body⟩ := c
  simp only [Call.Holds, allHold_iff]

/-- The values all of whose calls have a property that runs keep are a kind. -/
theorem CallProperty.kind (hA : CallProperty A) :
    CallKind (fun v => v.Holds A false) (fun v => v.Holds A true) A where
  toCallProperty := hA
  atom {v} h := by
    cases v with
    | tuple _ | list _ | function _ | call _ => cases h
    | _ => trivial
  tuple {items} := by rw [Value.Holds, allHold_iff]
  list {items} := by rw [Value.Holds, allHold_iff]
  made hbody hcaptures := holds_user_iff.mpr ⟨hbody, hcaptures⟩
  value {v} h := by
    cases v with
    | call c => exact absurd h.1 Bool.false_ne_true
    | _ => rfl
  arg {v} h := by
    cases v with
    | call c => cases h
    | _ => exact Iff.rfl
  builtin := trivial
  parts := holds_user_iff.mp
  call {c} := by
    have hcall : (Value.call c).Holds A true ↔ c.Holds A := by simp [Value.Holds]
    rw [hcall, Call.holds_iff]
    rfl

end Holds

/-! ## Reading -/

section Reading

variable {P C : Value → Prop} {A : Call → Prop} (hK : CallKind P C A) {globals : Scope}
  {vs : List Value} {c : Call}
include hK

theorem CallKind.begin {fn : Function} (hf : P (.function fn)) (ha : ∀ v ∈ vs, C v)
    (h : fn.begin vs = .ok c) : C (.call c) := by
  have hA := hK.begun h
  rw [Function.eq_of_begin h] at hA ⊢
  exact hK.call.mpr ⟨⟨hf, ha, hK.ofValue (hK.atom rfl)⟩, hA⟩

theorem CallKind.makeCall {head : Value} (hg : globals.All P) (ha : ∀ v ∈ head :: vs, C v)
    (h : makeCall globals head vs = .ok c) : C (.call c) := by
  unfold MiniLisp.makeCall at h
  split at h
  · cases h
  · cases h
    have hbegin : (Function.builtin .deferred).begin (head :: vs) = .ok (.defer head vs) := rfl
    exact hK.begin hK.builtin ha hbegin
  · rename_i fn hf
    exact hK.begin (hg.find? hf) (fun v hv => ha v (List.mem_cons_of_mem head hv)) h
  · cases h

/-- What is read is of the kind. -/
theorem CallKind.readCall {cs rest : List Char} (hg : globals.All P)
    (h : readCall globals cs = .ok (c, rest)) : C (.call c) := by
  refine prop_of_readCall (C := C) (fun cs => hK.ofValue (hK.atom ?_))
    (fun head args c => hK.makeCall hg) h
  unfold Token.read
  split <;> rfl

end Reading

/-! ## States -/

/-- All parts of a frame are of a kind, and the arguments that have been passed over are values. -/
structure Frame.Keeps (P C : Value → Prop) (A : Call → Prop) (f : Frame) : Prop where
  fn : P (.function f.call.fn)
  written : ∀ v ∈ f.call.args, C v
  body : C f.call.body
  own : A (.begin f.call.fn f.call.args)
  scope : f.scope.All P
  args : ∀ v ∈ f.args, C v
  done : ∀ v ∈ f.args.take f.index, v.isCall = false

/-- The frame of a call that has begun: its arguments are not looked up again, and going on with
it does not start the work of its function. -/
structure Frame.Begun (P C : Value → Prop) (A : Call → Prop) (f : Frame) : Prop
    extends f.Keeps P C A where
  resolved : f.call.resolved = true
  quiet : f.isReady (-1) = false

/-- A state whose frames are of a kind. Only the innermost call can be one that has not begun. -/
def State.Keeps (P C : Value → Prop) (A : Call → Prop) : State → Prop
  | .enter f stack =>
    (f.Keeps P C A ∧ f.index = 0 ∨ f.Begun P C A) ∧ ∀ g ∈ stack, g.Begun P C A
  | .scan f stack => f.Begun P C A ∧ ∀ g ∈ stack, g.Begun P C A

/-- What a step leads to is of a kind. -/
def Step.Keeps (P C : Value → Prop) (A : Call → Prop) : Step → Prop
  | .next w s => w.globals.All P ∧ s.Keeps P C A
  | .load w _ s => w.globals.All P ∧ s.Keeps P C A
  | .halt w r => w.globals.All P ∧ ∀ v, r = .ok v → P v

/-- The world of an outcome is of a kind, and so is its value. -/
def Outcome.Keeps (P : Value → Prop) (o : Outcome) : Prop :=
  o.world.globals.All P ∧ ∀ v, o.result = .value v → P v

section Frames

variable {P C : Value → Prop} {A : Call → Prop} {files : Files} {w : World} {f : Frame}
  {stack : List Frame}

/-- Arguments that stand next to each other are all values if the first ones and the last one
are. -/
theorem isCall_of_take_succ {args : List Value} {i : Nat} {v : Value} (hv : args[i]? = some v)
    (hcall : v.isCall = false) (hdone : ∀ u ∈ args.take i, u.isCall = false) :
    ∀ u ∈ args.take (i + 1), u.isCall = false := by
  intro u hu
  rw [List.take_add_one, hv] at hu
  rcases List.mem_append.mp hu with hu | hu
  · exact hdone u hu
  · rw [List.mem_singleton.mp hu]
    exact hcall

variable (hK : CallKind P C A)
include hK

/-- The arguments of a call that has not begun are looked up to some of the kind. -/
theorem CallKind.resolve (h : f.Keeps P C A) (hi : f.index = 0) {globals : Scope}
    (hg : globals.All P) {g : Frame} (hr : f.resolve globals = .ok g) :
    g.Keeps P C A ∧ g.index = 0 ∧ g.call.resolved = true := by
  unfold Frame.resolve at hr
  split at hr
  · rename_i hres
    cases hr
    exact ⟨h, hi, hres⟩
  · cases hl : f.call.lookupArgs f.scope globals with
    | error e => rw [hl] at hr; cases hr
    | ok args =>
      rw [hl] at hr
      dsimp only at hr
      have hargs : ∀ v ∈ f.call.sortArgs args, C v := by
        intro v hv
        rcases hK.lookupAll h.scope hg h.written hl v (Call.mem_of_mem_sortArgs hv) with
          hv | ⟨hv, -⟩
        · exact hK.ofValue hv
        · exact h.written v hv
      have hbegun : Frame.Keeps P C A { f with
          args := f.call.sortArgs args, call := { f.call with resolved := true } } := by
        refine ⟨h.fn, h.written, h.body, h.own, h.scope, hargs, ?_⟩
        dsimp only
        rw [hi]
        simp
      split at hr
      · obtain ⟨-, -, rfl⟩ := map_eq_ok_iff.mp hr
        exact ⟨hbegun, hi, rfl⟩
      · cases hr
        exact ⟨hbegun, hi, rfl⟩

/-- The frame after the work of the function, when the first `k` arguments have been evaluated. -/
theorem CallKind.continueWith (h : f.Keeps P C A) (hw : w.globals.All P)
    (hres : f.call.resolved = true) {k : Nat} (hi : f.index = k - 1) (hk : k ≤ f.args.length)
    (hdone : ∀ v ∈ f.args.take k, v.isCall = false)
    (hready : f.call.canPrepare f.args ((k : Int) - 1) = true) {p : Prepared}
    (hp : f.call.prepare f.scope w.globals f.args = .ok p) : (f.continueWith p).Begun P C A := by
  have hkeeps : p.Keeps P C f.call k := by
    refine hK.prepare (fun d hd => hK.parts (hd ▸ h.fn)) h.scope hw h.args hk hdone hready ?_ hp
    intro _ head us fn real hargs hfun hbegin
    refine hK.begin hfun (fun v hv => h.args v ?_) hbegin
    rw [hargs]
    exact List.mem_cons_of_mem head hv
  have hfn : (f.continueWith p).call.fn = f.call.fn := hkeeps.fn
  have hwritten : (f.continueWith p).call.args = f.call.args := hkeeps.written
  have hbody : C p.call.body := by
    rcases hkeeps.body with hb | ⟨-, hb⟩
    · exact hb
    · rw [hb]
      exact h.body
  have hfront : ∀ v ∈ (f.continueWith p).args.take (f.continueWith p).index,
      v.isCall = false := by
    have hindex : (f.continueWith p).index = k - 1 := hi
    rw [hindex]
    exact hkeeps.front
  refine ⟨⟨?_, ?_, hbody, ?_, hkeeps.scope, hkeeps.args, hfront⟩,
    (Frame.tracked_continueWith hres hp).resolved, Bool.and_false _⟩
  · rw [hfn]
    exact h.fn
  · rw [hwritten]
    exact h.written
  · rw [hfn, hwritten]
    exact h.own

/-- The work of a function when the first `k` arguments have been evaluated. -/
theorem CallKind.prepareFrame (h : f.Keeps P C A) (hw : w.globals.All P)
    (hres : f.call.resolved = true) {k : Nat} (hi : f.index = k - 1) (hk : k ≤ f.args.length)
    (hdone : ∀ v ∈ f.args.take k, v.isCall = false)
    (hready : f.call.canPrepare f.args ((k : Int) - 1) = true)
    (hstack : ∀ g ∈ stack, g.Begun P C A) : (f.prepare files w stack).Keeps P C A := by
  rcases Frame.prepare_cases files w f stack with ⟨e, -, hf⟩ | ⟨p, hp, hcases⟩
  · rw [hf]
    exact ⟨hw, by simp⟩
  · have hnext := hK.continueWith h hw hres hi hk hdone hready hp
    rcases hcases with ⟨-, hf⟩ | ⟨path, -, -, hf⟩ | ⟨path, text, -, -, hf⟩
    · rw [hf]
      exact ⟨hw, hnext, hstack⟩
    · rw [hf]
      exact ⟨hw, by simp⟩
    · rw [hf]
      exact ⟨hw, hnext, hstack⟩

/-- Marking a finished call in the call that has been built leaves all arguments but the last as
they are. -/
theorem CallKind.markDone {args : List Value} {i : Nat} {finished : Call}
    (hargs : ∀ v ∈ args, C v) (hf : C (.call finished)) :
    (∀ v ∈ Frame.markDone args i finished, C v) ∧
      (Frame.markDone args i finished).length = args.length ∧
        (Frame.markDone args i finished).take i = args.take i := by
  unfold Frame.markDone
  split
  · rename_i built hlast
    split
    · rename_i hi
      obtain ⟨⟨hfn, hwritten, hbody⟩, hA⟩ := hK.call.mp (hargs _ (List.mem_of_getLast? hlast))
      refine ⟨fun v hv => ?_, ?_, ?_⟩
      · rcases List.mem_append.mp hv with hv | hv
        · exact hargs v (List.dropLast_subset args hv)
        · rw [List.mem_singleton.mp hv]
          refine hK.call.mpr ⟨⟨hfn, fun u hu => ?_, hbody⟩, hK.marked hA⟩
          rcases List.mem_or_eq_of_mem_set hu with hu | rfl
          · exact hwritten u hu
          · exact hf
      · rw [List.length_append, List.length_dropLast, List.length_singleton]
        omega
      · rw [List.take_append_of_le_length (by rw [List.length_dropLast]; omega),
          List.dropLast_eq_take, List.take_take, Nat.min_eq_left (by omega)]
    · exact ⟨hargs, rfl, rfl⟩
  · exact ⟨hargs, rfl, rfl⟩

/-- A finished call hands its value to the frame around it. -/
theorem CallKind.resume (h : f.Begun P C A) {finished : Call} {v : Value}
    (hf : C (.call finished)) (hv : P v) : (f.resume finished v).Begun P C A := by
  have hset : ∀ u ∈ f.args.set f.index v, C u := by
    intro u hu
    rcases List.mem_or_eq_of_mem_set hu with hu | rfl
    · exact h.args u hu
    · exact hK.ofValue hv
  have htake : (f.args.set f.index v).take f.index = f.args.take f.index :=
    List.take_set_of_le (Nat.le_refl _)
  -- other arguments of the same number, with those before the index unchanged
  have hother : ∀ args : List Value, (∀ u ∈ args, C u) →
      args.length = f.args.length → args.take f.index = f.args.take f.index →
        Frame.Begun P C A { f with args := args } := by
    intro args hargs hlen hfront
    refine ⟨⟨h.fn, h.written, h.body, h.own, h.scope, hargs, ?_⟩, h.resolved, ?_⟩
    · dsimp only
      rw [hfront]
      exact h.done
    · have hquiet := h.quiet
      unfold Frame.isReady at hquiet ⊢
      dsimp only
      rw [Call.canPrepare_congr hlen]
      exact hquiet
  unfold Frame.resume
  dsimp only
  split
  · obtain ⟨hargs, hlen, hfront⟩ := hK.markDone (i := f.index) hset hf
    exact hother _ hargs (hlen.trans List.length_set) (hfront.trans htake)
  · exact hother _ hset List.length_set htake

/-- A call whose arguments have all been evaluated is applied. -/
theorem CallKind.finish (h : f.Begun P C A) (hw : w.globals.All P)
    (hdone : f.args[f.index]? = none) (hstack : ∀ g ∈ stack, g.Begun P C A) :
    (f.finish w stack).Keeps P C A := by
  have hvalues : ∀ v ∈ f.args, P v := by
    intro v hv
    have hmem : v ∈ f.args.take f.index := by
      rw [List.take_of_length_le (List.getElem?_eq_none_iff.mp hdone)]
      exact hv
    exact (hK.arg (h.done v hmem)).mp (h.args v hv)
  have hcall : C (.call f.call) :=
    hK.call.mpr ⟨⟨h.fn, h.written, h.body⟩, hK.finished h.own h.resolved h.quiet⟩
  unfold Frame.finish
  split
  · exact ⟨hw, by simp⟩
  · rcases ha : f.call.apply w f.scope f.args with ⟨w1, r⟩
    obtain ⟨hw1, hr⟩ := hK.apply h.scope hw (fun _ => h.body) hvalues ha
    cases r with
    | error e => exact ⟨hw1, by simp⟩
    | ok v =>
      cases stack with
      | nil => exact ⟨hw1, hr⟩
      | cons outer stack =>
        have houter := hstack outer List.mem_cons_self
        exact ⟨hw1, Or.inr (hK.resume houter hcall (hr v rfl)),
          fun g hg => hstack g (List.mem_cons_of_mem outer hg)⟩

/-- A call among the arguments begins. -/
theorem CallKind.enter (h : f.Begun P C A) {c : Call}
    (harg : f.args[f.index]? = some (.call c)) :
    (Frame.enter c f.args f.scope).Keeps P C A := by
  obtain ⟨⟨hfn, hwritten, hbody⟩, hA⟩ := hK.call.mp (h.args _ (List.mem_of_getElem? harg))
  exact ⟨hfn, hwritten, hbody, hK.again hA, h.scope, h.args, by simp [Frame.enter]⟩

end Frames

/-! ## Runs -/

section Runs

variable {P C : Value → Prop} {A : Call → Prop} {files : Files} {w : World}

theorem Outcome.Keeps.andThen {o : Outcome} {k : World → Value → Outcome} (ho : o.Keeps P)
    (hk : ∀ w v, w.globals.All P → P v → (k w v).Keeps P) : (o.andThen k).Keeps P := by
  obtain ⟨w, r⟩ := o
  cases r with
  | value v => exact hk w v ho.1 (ho.2 v rfl)
  | failed e => exact ho
  | outOfFuel => exact ho

variable (hK : CallKind P C A)
include hK

/-- **One step** leads from a state of the kind to one of the kind, and it halts with values of the
kind only. -/
theorem step_keeps {s : State} (hw : w.globals.All P) (hs : s.Keeps P C A) :
    (step files w s).Keeps P C A := by
  cases s with
  | enter f stack =>
    obtain ⟨hf, hstack⟩ := hs
    rcases hf with ⟨hf, hi⟩ | hf
    · cases hr : f.resolve w.globals with
      | error e =>
        rw [step_enter_error hr]
        exact ⟨hw, by simp⟩
      | ok g =>
        obtain ⟨hg, hi, hres⟩ := hK.resolve hf hi hw hr
        cases hready : g.isReady (-1) with
        | true =>
          rw [step_enter_ready hr hready]
          exact hK.prepareFrame hg hw hres (k := 0) hi (Nat.zero_le _) (by simp)
            (Bool.and_eq_true_iff.mp hready).1 hstack
        | false =>
          rw [step_enter_scan hr hready]
          exact ⟨hw, ⟨hg, hres, hready⟩, hstack⟩
    · rw [step_enter_resolved hf.resolved hf.quiet]
      exact ⟨hw, hf, hstack⟩
  | scan f stack =>
    obtain ⟨hf, hstack⟩ := hs
    cases harg : f.args[f.index]? with
    | none =>
      rw [step_scan_finish harg]
      exact hK.finish hf hw harg hstack
    | some v =>
      cases hcall : v.isCall with
      | true =>
        obtain ⟨c, rfl⟩ := Value.eq_call_of_isCall hcall
        rw [step_scan_call harg]
        exact ⟨hw, Or.inl ⟨hK.enter hf harg, rfl⟩, List.forall_mem_cons.mpr ⟨hf, hstack⟩⟩
      | false =>
        have hlt : f.index < f.args.length := (List.getElem?_eq_some_iff.mp harg).1
        have hdone := isCall_of_take_succ harg hcall hf.done
        cases hready : f.isReady f.index with
        | true =>
          rw [step_scan_ready harg hcall hready]
          refine hK.prepareFrame hf.toKeeps hw hf.resolved (k := f.index + 1) rfl hlt hdone ?_
            hstack
          rw [Int.natCast_succ, Int.add_sub_cancel]
          exact (Bool.and_eq_true_iff.mp hready).1
        | false =>
          rw [step_scan_pass harg hcall hready]
          exact ⟨hw, ⟨⟨hf.fn, hf.written, hf.body, hf.own, hf.scope, hf.args, hdone⟩,
            hf.resolved, hf.quiet⟩, hstack⟩

/-- A call of the kind begins. -/
theorem CallKind.start {c : Call} {scope : Scope} (hc : C (.call c)) (hs : scope.All P) :
    (State.start c scope).Keeps P C A := by
  obtain ⟨⟨hfn, hwritten, hbody⟩, hA⟩ := hK.call.mp hc
  exact ⟨Or.inl ⟨⟨hfn, hwritten, hbody, hK.again hA, hs, by simp [Frame.enter],
    by simp [Frame.enter]⟩, rfl⟩, by simp⟩

/-- **A whole run** keeps to the kind, and so do the blocks of a text. -/
theorem drive_runBlocks_keeps (files : Files) (n : Nat) :
    (∀ w s, w.globals.All P → s.Keeps P C A → (drive files n w s).Keeps P) ∧
      ∀ w last cs, w.globals.All P → P last → (runBlocks files n w last cs).Keeps P := by
  -- both loops at once, since each starts the other with less fuel
  induction n with
  | zero =>
    refine ⟨fun w s hw _ => ?_, fun w last cs hw _ => ?_⟩
    · rw [drive_zero]
      exact ⟨hw, by simp⟩
    · rw [runBlocks_zero]
      exact ⟨hw, by simp⟩
  | succ n ih =>
    obtain ⟨ihd, ihb⟩ := ih
    refine ⟨fun w s hw hs => ?_, fun w last cs hw hl => ?_⟩
    · have hstep : (step files w s).Keeps P C A := step_keeps hK hw hs
      cases h : step files w s with
      | next w' s' =>
        rw [h] at hstep
        rw [drive_succ_next h]
        exact ihd w' s' hstep.1 hstep.2
      | load w' text s' =>
        rw [h] at hstep
        rw [drive_succ_load h]
        exact (ihb w' .none _ hstep.1 (hK.atom rfl)).andThen
          fun w1 _ hw1 _ => ihd w1 s' hw1 hstep.2
      | halt w' r =>
        rw [h] at hstep
        rw [drive_succ_halt h]
        cases r with
        | error e => exact ⟨hstep.1, by simp [Outcome.ofExcept]⟩
        | ok v => exact ⟨hstep.1, fun u hu => by cases hu; exact hstep.2 v rfl⟩
    · cases cs with
      | nil =>
        rw [runBlocks_succ_nil]
        exact ⟨hw, fun u hu => by cases hu; exact hl⟩
      | cons c cs =>
        cases hr : readCall w.globals (c :: cs) with
        | error e =>
          rw [runBlocks_succ_error (by simp) hr]
          exact ⟨hw, by simp⟩
        | ok r =>
          obtain ⟨call, rest⟩ := r
          rw [runBlocks_succ_ok (by simp) hr]
          have hstart : (State.start call []).Keeps P C A :=
            hK.start (hK.readCall hw hr) Scope.all_nil
          exact (ihd w.startBlock _ hw hstart).andThen fun w1 v hw1 hv => ihb w1 v rest hw1 hv

theorem Ends.keeps {s : State} {o : Outcome} (h : Ends files w s o) (hw : w.globals.All P)
    (hs : s.Keeps P C A) : o.Keeps P := by
  obtain ⟨-, n, hn⟩ := h
  rw [← hn]
  exact (drive_runBlocks_keeps hK files n).1 w s hw hs

end Runs

end MiniLisp

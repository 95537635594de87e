import MiniLisp.Proofs.ArgumentEvaluation
import MiniLisp.Proofs.Kinds.Machine

/-!
# Values are never calls

A call is an argument that still has to be run. A value is *proper* if no call stands in it, nor in
what the functions in it have captured; an argument may also be a call whose parts are proper.
Proper values are a kind that runs keep to, and so a run never ends with a call (`Ends.proper`).
Unlike for clean values nothing is asked of the order of the arguments here, nor of how far a call
has got.
-/

namespace MiniLisp

/-! ## Proper values -/

mutual

/-- Whether a value is proper; as an argument, `arg`, it may be a call. -/
def Value.isProper (arg : Bool) : Value → Bool
  | .tuple items => Value.allProper false items
  | .list items => Value.allProper false items
  | .function f => f.isProper
  | .call c => arg && c.isProper
  | _ => true

/-- Whether all values of a list are proper. -/
def Value.allProper (arg : Bool) : List Value → Bool
  | [] => true
  | v :: vs => v.isProper arg && Value.allProper arg vs

/-- Whether the body of a function and what it captured are proper. -/
def Function.isProper : Function → Bool
  | .builtin _ => true
  | .user d => d.isProper

/-- Whether the body of a definition and what it captured are proper. -/
def Definition.isProper : Definition → Bool
  | ⟨_, _, _, _, body, captures⟩ => body.isProper true && Scope.isProper captures

/-- Whether the values of a scope are proper. -/
def Scope.isProper : List (Value × Value) → Bool
  | [] => true
  | (_, v) :: rest => v.isProper false && Scope.isProper rest

/-- Whether all parts of a call are proper. -/
def Call.isProper : Call → Bool
  | ⟨fn, args, _, _, body⟩ => fn.isProper && Value.allProper true args && body.isProper true

end

section Basic

variable {v : Value} {vs : List Value} {s : Scope} {arg : Bool}

theorem allProper_iff : Value.allProper arg vs = true ↔ ∀ v ∈ vs, v.isProper arg = true := by
  induction vs with
  | nil => simp [Value.allProper]
  | cons v vs ih => simp [Value.allProper, ih]

theorem Scope.isProper_iff :
    Scope.isProper s = true ↔ s.All fun v => v.isProper false = true := by
  induction s with
  | nil => simp [Scope.isProper, Scope.all_nil]
  | cons e s ih =>
    obtain ⟨k, v⟩ := e
    rw [Scope.isProper, Bool.and_eq_true, Scope.all_cons, ih]

theorem Call.isProper_iff (c : Call) :
    c.isProper = true ↔
      c.fn.isProper = true ∧ (∀ v ∈ c.args, v.isProper true = true) ∧
        c.body.isProper true = true := by
  obtain ⟨fn, args, resolved, prepared, body⟩ := c
  rw [Call.isProper, ← allProper_iff, Bool.and_eq_true, Bool.and_eq_true, and_assoc]

@[simp] theorem Value.isProper_call (c : Call) : (Value.call c).isProper true = c.isProper := by
  simp [Value.isProper]

/-- What a proper function is made of. -/
theorem isProper_user_iff {d : Definition} :
    (Value.function (.user d)).isProper false = true ↔
      d.body.isProper true = true ∧ ∀ e ∈ d.captures, e.2.isProper false = true := by
  obtain ⟨id, name, params, variadic, body, captures⟩ := d
  rw [Value.isProper, Function.isProper, Definition.isProper, Bool.and_eq_true,
    Scope.isProper_iff]
  rfl

/-- Proper values are a kind of values. -/
theorem isProper_kind :
    Kind (fun v => v.isProper false = true) (fun v => v.isProper true = true) where
  atom {v} h := by
    cases v with
    | tuple _ | list _ | function _ | call _ => cases h
    | _ => rfl
  tuple {items} := by rw [Value.isProper, allProper_iff]
  list {items} := by rw [Value.isProper, allProper_iff]
  made hbody hcaptures := isProper_user_iff.mpr ⟨hbody, hcaptures⟩
  value {v} h := by
    cases v with
    | call c => simp [Value.isProper] at h
    | _ => rfl
  arg {v} h := by
    cases v with
    | call c => cases h
    | _ => exact Iff.rfl

theorem Call.begin_proper {fn : Function} (hf : fn.isProper = true)
    (ha : ∀ v ∈ vs, v.isProper true = true) : (Call.begin fn vs).isProper = true :=
  (Call.isProper_iff _).mpr ⟨hf, ha, rfl⟩

/-- Proper values are a kind to which calls belong if their parts do. -/
theorem isProper_callKind :
    CallKind (fun v => v.isProper false = true) (fun v => v.isProper true = true)
      fun _ => True where
  toKind := isProper_kind
  builtin := rfl
  parts := isProper_user_iff.mp
  call {c} := by
    rw [Value.isProper_call, Call.isProper_iff, and_true]
    rfl
  begun _ := trivial
  again _ := trivial
  finished _ _ _ := trivial
  marked _ := trivial

end Basic

/-! ## Proper runs -/

/-- All that a world holds is proper. -/
def World.IsProper (w : World) : Prop :=
  Scope.isProper w.globals = true

/-- A state whose frames are proper. -/
def State.IsProper (s : State) : Prop :=
  s.Keeps (fun v => v.isProper false = true) (fun v => v.isProper true = true) fun _ => True

/-- The world of an outcome is proper, and so is its value. -/
def Outcome.IsProper (o : Outcome) : Prop :=
  o.world.IsProper ∧ ∀ v, o.result = .value v → v.isProper false = true

section Runs

variable {files : Files} {w : World}

theorem State.start_proper {c : Call} {scope : Scope} (hc : c.isProper = true)
    (hs : Scope.isProper scope = true) : (State.start c scope).IsProper :=
  isProper_callKind.start (by rw [Value.isProper_call]; exact hc) (Scope.isProper_iff.mp hs)

/-- A run keeps to proper things. -/
theorem Ends.proper {s : State} {o : Outcome} (h : Ends files w s o) (hw : w.IsProper)
    (hs : s.IsProper) : o.IsProper := by
  obtain ⟨hworld, hvalue⟩ := h.keeps isProper_callKind (Scope.isProper_iff.mp hw) hs
  exact ⟨Scope.isProper_iff.mpr hworld, hvalue⟩

/-- Proper arguments whose calls have not begun have proper values, and leave a proper world. -/
theorem eachYields_of_proper {scope : Scope} {vs : List Value} (hw : w.IsProper)
    (hs : Scope.isProper scope = true) (hvs : ∀ v ∈ vs, v.isProper true = true)
    (hfresh : ∀ c, .call c ∈ vs → c.resolved = false) :
    EachYields files scope (fun w v => w.IsProper ∧ v.isProper false = true) w vs := by
  induction vs generalizing w with
  | nil => trivial
  | cons v vs ih =>
    have hrest : ∀ u ∈ vs, u.isProper true = true := fun u hu => hvs u (List.mem_cons_of_mem v hu)
    have hfresh' : ∀ c, .call c ∈ vs → c.resolved = false :=
      fun c hc => hfresh c (List.mem_cons_of_mem v hc)
    have hv := hvs v List.mem_cons_self
    cases hcall : v.isCall with
    | false =>
      rw [eachYields_value hcall]
      exact ⟨⟨hw, (isProper_kind.arg hcall).mp hv⟩, ih hw hrest hfresh'⟩
    | true =>
      obtain ⟨d, rfl⟩ := Value.eq_call_of_isCall hcall
      rw [Value.isProper_call] at hv
      rw [eachYields_call]
      refine ⟨hfresh d List.mem_cons_self, fun w' u hu => ?_⟩
      obtain ⟨hw', hu'⟩ := hu.proper hw (State.start_proper hv hs)
      exact ⟨⟨hw', hu' u rfl⟩, ih hw' hrest hfresh'⟩

end Runs

/-! ## Places of calls -/

/-- A place of a program where a call with the arguments `args` can stand, starred or not: what is
there is proper and the calls among the arguments have not begun. -/
structure Place (scope : Scope) (w : World) (args : List Value) : Prop where
  globals : w.IsProper
  locals : Scope.isProper scope = true
  proper : ∀ a ∈ args, a.isProper true = true
  fresh : ∀ c, .call c ∈ args → c.resolved = false

section Places

variable {files : Files} {scope : Scope} {c : Call} {w : World} {args vs : List Value}

/-- What arguments stand for can be evaluated where they stand. -/
theorem Place.looked (h : Place scope w args) (hvs : lookupAll scope w.globals c args = .ok vs) :
    Place scope w vs := by
  have hlooked : ∀ v ∈ vs, v.isProper false = true ∨ v ∈ args ∧ v.isCall = true :=
    isProper_kind.lookupAll (Scope.isProper_iff.mp h.locals) (Scope.isProper_iff.mp h.globals)
      h.proper hvs
  refine ⟨h.globals, h.locals, fun v hv => ?_, fun c hc => ?_⟩
  · rcases hlooked v hv with hv | ⟨hv, -⟩
    · exact isProper_kind.ofValue hv
    · exact h.proper v hv
  · rcases hlooked _ hc with hv | ⟨hv, -⟩
    · exact absurd (isProper_kind.value hv) (by simp [Value.isCall])
    · exact h.fresh c hv

/-- Arguments have proper values where they stand. -/
theorem Place.eachYields (h : Place scope w vs) :
    EachYields files scope (fun w v => w.IsProper ∧ v.isProper false = true) w vs :=
  eachYields_of_proper h.globals h.locals h.proper h.fresh

theorem Place.mono (h : Place scope w args) (hsub : ∀ v ∈ vs, v ∈ args) : Place scope w vs :=
  ⟨h.globals, h.locals, fun v hv => h.proper v (hsub v hv), fun c hc => h.fresh c (hsub _ hc)⟩

end Places

end MiniLisp

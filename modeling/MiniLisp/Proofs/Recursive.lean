import MiniLisp.Proofs.Runs

/-!
# The recursive evaluator

Evaluates a call by recursion, without a stack and without marks on calls. The arguments of a call
are looked up; each one that is itself a call is replaced by its value, from left to right, until
the function can do its work on them; the arguments it leaves are evaluated in the scope it leaves;
the function is then applied. A file that is imported is evaluated block by block.

More fuel never changes an answer (`evalCall_steady`), and there is one rule for each part of the
evaluation (`evaluates_until_iff`, `evaluatesUntil_call_iff` and so on).
-/

namespace MiniLisp

/-! ## Definition -/

namespace Call

/-- The arguments of a call once their symbols are looked up: in the order of evaluation, and their
number checked if that is to be done early. -/
def resolveArgs (c : Call) (scope globals : Scope) : Except Error (List Value) :=
  match c.lookupArgs scope globals with
  | .error e => .error e
  | .ok args =>
    if c.fn.checksEarly then (c.validate (c.sortArgs args)).map fun _ => c.sortArgs args
    else .ok (c.sortArgs args)

/-- Checks the number of evaluated arguments, unless that was done early, and applies the
function. -/
def conclude (c : Call) (w : World) (scope : Scope) (args : List Value) : Outcome :=
  match (if c.fn.checksEarly then .ok () else c.validate args : Except Error Unit) with
  | .error e => ⟨w, .failed e⟩
  | .ok () => Outcome.ofExcept (c.apply w scope args).1 (c.apply w scope args).2

end Call

/-- Evaluates an argument: a call has a value, everything else is one. -/
def evalArg (eval : Call → Outcome) (w : World) : Value → Outcome
  | .call c => eval c
  | v => ⟨w, .value v⟩

mutual

/-- Evaluates a call in a scope. -/
def evalCall (files : Files) : (fuel : Nat) → World → Scope → Call → Outcome
  | 0, w, _, _ => ⟨w, .outOfFuel⟩
  | fuel + 1, w, scope, c =>
    match c.resolveArgs scope w.globals with
    | .error e => ⟨w, .failed e⟩
    | .ok args =>
      if c.canPrepare args (-1) then evalPrepared files fuel w scope c args
      else evalUntil files fuel w scope c [] args

/-- Evaluates the arguments `todo` behind the evaluated ones `done`, until the function can do its
work. -/
def evalUntil (files : Files) :
    (fuel : Nat) → World → Scope → Call → (done todo : List Value) → Outcome
  | 0, w, _, _, _, _ => ⟨w, .outOfFuel⟩
  | _ + 1, w, scope, c, done, [] => c.conclude w scope done
  | fuel + 1, w, scope, c, done, arg :: todo =>
    (evalArg (fun d => evalCall files fuel w scope d) w arg).andThen fun w v =>
      if c.canPrepare (done ++ v :: todo) done.length then
        evalPrepared files fuel w scope c (done ++ v :: todo)
      else evalUntil files fuel w scope c (done ++ [v]) todo

/-- Lets the function do its work and goes on with the arguments and the scope that it leaves. -/
def evalPrepared (files : Files) :
    (fuel : Nat) → World → Scope → Call → (args : List Value) → Outcome
  | 0, w, _, _, _ => ⟨w, .outOfFuel⟩
  | fuel + 1, w, scope, c, args =>
    match c.prepare scope w.globals args with
    | .error e => ⟨w, .failed e⟩
    | .ok p =>
      match p.load with
      | none => evalRest files fuel w p.scope p.call [] p.args
      | some path =>
        match files.read? path with
        | none => ⟨w, .failed (.fileNotFound path)⟩
        | some text =>
          (evalBlocks files fuel w .none (Source.normalise text)).andThen fun w _ =>
            evalRest files fuel w p.scope p.call [] p.args

/-- Evaluates the arguments `todo` behind the evaluated ones `done` and applies the function, whose
work on the arguments is done. -/
def evalRest (files : Files) :
    (fuel : Nat) → World → Scope → Call → (done todo : List Value) → Outcome
  | 0, w, _, _, _, _ => ⟨w, .outOfFuel⟩
  | _ + 1, w, scope, c, done, [] => c.conclude w scope done
  | fuel + 1, w, scope, c, done, arg :: todo =>
    (evalArg (fun d => evalCall files fuel w scope d) w arg).andThen fun w v =>
      evalRest files fuel w scope c (done ++ [v]) todo

/-- Evaluates the blocks of a normalised text one after the other. -/
def evalBlocks (files : Files) :
    (fuel : Nat) → World → (last : Value) → List Char → Outcome
  | 0, w, _, _ => ⟨w, .outOfFuel⟩
  | _ + 1, w, last, [] => ⟨w, .value last⟩
  | fuel + 1, w, _, c :: cs =>
    match readCall w.globals (c :: cs) with
    | .error e => ⟨w, .failed e⟩
    | .ok (call, rest) =>
      (evalCall files fuel w.startBlock [] call).andThen fun w v => evalBlocks files fuel w v rest

end

/-! ## One unit of fuel -/

section Equations

variable {files : Files} {w : World} {scope : Scope} {c : Call} {n : Nat}

/-- Without fuel no call is evaluated. -/
theorem evalCall_zero : evalCall files 0 w scope c = ⟨w, .outOfFuel⟩ := by
  rw [evalCall]

/-- A call whose arguments cannot be looked up fails. -/
theorem evalCall_succ_error {e : Error} (h : c.resolveArgs scope w.globals = .error e) :
    evalCall files (n + 1) w scope c = ⟨w, .failed e⟩ := by
  rw [evalCall, h]

/-- The function of a call may do its work before any argument is evaluated. -/
theorem evalCall_succ_ready {args : List Value} (h : c.resolveArgs scope w.globals = .ok args)
    (hp : c.canPrepare args (-1) = true) :
    evalCall files (n + 1) w scope c = evalPrepared files n w scope c args := by
  rw [evalCall, h]
  exact if_pos hp

/-- Otherwise the arguments are evaluated from the first one on. -/
theorem evalCall_succ_until {args : List Value} (h : c.resolveArgs scope w.globals = .ok args)
    (hp : c.canPrepare args (-1) = false) :
    evalCall files (n + 1) w scope c = evalUntil files n w scope c [] args := by
  rw [evalCall, h]
  exact if_neg (by simp [hp])

theorem evalUntil_zero {done todo : List Value} :
    evalUntil files 0 w scope c done todo = ⟨w, .outOfFuel⟩ := by
  rw [evalUntil]

/-- A call can run out of arguments before its function has done its work. -/
theorem evalUntil_succ_nil {done : List Value} :
    evalUntil files (n + 1) w scope c done [] = c.conclude w scope done := by
  rw [evalUntil]

/-- An argument is evaluated, and if it is the one that the function waits for, the function does
its work. -/
theorem evalUntil_succ_cons {done todo : List Value} {arg : Value} :
    evalUntil files (n + 1) w scope c done (arg :: todo) =
      (evalArg (fun d => evalCall files n w scope d) w arg).andThen fun w v =>
        if c.canPrepare (done ++ v :: todo) done.length then
          evalPrepared files n w scope c (done ++ v :: todo)
        else evalUntil files n w scope c (done ++ [v]) todo := by
  rw [evalUntil]

theorem evalRest_zero {done todo : List Value} :
    evalRest files 0 w scope c done todo = ⟨w, .outOfFuel⟩ := by
  rw [evalRest]

/-- When all arguments have been evaluated the call is applied. -/
theorem evalRest_succ_nil {done : List Value} :
    evalRest files (n + 1) w scope c done [] = c.conclude w scope done := by
  rw [evalRest]

/-- Behind the work of the function the arguments that are left are evaluated in turn. -/
theorem evalRest_succ_cons {done todo : List Value} {arg : Value} :
    evalRest files (n + 1) w scope c done (arg :: todo) =
      (evalArg (fun d => evalCall files n w scope d) w arg).andThen fun w v =>
        evalRest files n w scope c (done ++ [v]) todo := by
  rw [evalRest]

theorem evalPrepared_zero {args : List Value} :
    evalPrepared files 0 w scope c args = ⟨w, .outOfFuel⟩ := by
  rw [evalPrepared]

/-- The work of the function can fail. -/
theorem evalPrepared_succ_error {args : List Value} {e : Error}
    (h : c.prepare scope w.globals args = .error e) :
    evalPrepared files (n + 1) w scope c args = ⟨w, .failed e⟩ := by
  rw [evalPrepared, h]

/-- After its work the arguments that it leaves are evaluated in the scope that it leaves. -/
theorem evalPrepared_succ_ok {args : List Value} {p : Prepared}
    (h : c.prepare scope w.globals args = .ok p) (hl : p.load = none) :
    evalPrepared files (n + 1) w scope c args = evalRest files n w p.scope p.call [] p.args := by
  rw [evalPrepared, h]
  simp only [hl]

/-- A file that is to be run must be there. -/
theorem evalPrepared_succ_missing {args : List Value} {p : Prepared} {path : String}
    (h : c.prepare scope w.globals args = .ok p) (hl : p.load = some path)
    (hr : files.read? path = none) :
    evalPrepared files (n + 1) w scope c args = ⟨w, .failed (.fileNotFound path)⟩ := by
  rw [evalPrepared, h]
  simp only [hl, hr]

/-- A file is run before the arguments that are left. -/
theorem evalPrepared_succ_load {args : List Value} {p : Prepared} {path : String}
    {text : List Char} (h : c.prepare scope w.globals args = .ok p) (hl : p.load = some path)
    (hr : files.read? path = some text) :
    evalPrepared files (n + 1) w scope c args =
      (evalBlocks files n w .none (Source.normalise text)).andThen fun w _ =>
        evalRest files n w p.scope p.call [] p.args := by
  rw [evalPrepared, h]
  simp only [hl, hr]

theorem evalBlocks_zero {last : Value} {cs : List Char} :
    evalBlocks files 0 w last cs = ⟨w, .outOfFuel⟩ := by
  rw [evalBlocks]

/-- The value of a text is that of its last block. -/
theorem evalBlocks_succ_nil {last : Value} :
    evalBlocks files (n + 1) w last [] = ⟨w, .value last⟩ := by
  rw [evalBlocks]

/-- A text fails where its next block cannot be read. -/
theorem evalBlocks_succ_error {last : Value} {cs : List Char} {e : Error} (hne : cs ≠ [])
    (h : readCall w.globals cs = .error e) :
    evalBlocks files (n + 1) w last cs = ⟨w, .failed e⟩ := by
  obtain ⟨c, cs, rfl⟩ := List.exists_cons_of_ne_nil hne
  rw [evalBlocks, h]

/-- A block is evaluated, and the other blocks are read in the world that it leaves. -/
theorem evalBlocks_succ_ok {last : Value} {cs rest : List Char} {d : Call} (hne : cs ≠ [])
    (h : readCall w.globals cs = .ok (d, rest)) :
    evalBlocks files (n + 1) w last cs =
      (evalCall files n w.startBlock [] d).andThen fun w v => evalBlocks files n w v rest := by
  obtain ⟨c, cs, rfl⟩ := List.exists_cons_of_ne_nil hne
  rw [evalBlocks, h]

end Equations

/-- More fuel changes no answer of the evaluator. -/
theorem eval_steady (files : Files) (n : Nat) :
    (∀ w scope c, (evalCall files n w scope c).isFinal = true →
        evalCall files (n + 1) w scope c = evalCall files n w scope c) ∧
      (∀ w scope c done todo, (evalUntil files n w scope c done todo).isFinal = true →
        evalUntil files (n + 1) w scope c done todo = evalUntil files n w scope c done todo) ∧
      (∀ w scope c args, (evalPrepared files n w scope c args).isFinal = true →
        evalPrepared files (n + 1) w scope c args = evalPrepared files n w scope c args) ∧
      (∀ w scope c done todo, (evalRest files n w scope c done todo).isFinal = true →
        evalRest files (n + 1) w scope c done todo = evalRest files n w scope c done todo) ∧
      (∀ w last cs, (evalBlocks files n w last cs).isFinal = true →
        evalBlocks files (n + 1) w last cs = evalBlocks files n w last cs) := by
  induction n with
  | zero =>
    refine ⟨?_, ?_, ?_, ?_, ?_⟩
    · intro w scope c h; rw [evalCall_zero] at h; cases h
    · intro w scope c done todo h; rw [evalUntil_zero] at h; cases h
    · intro w scope c args h; rw [evalPrepared_zero] at h; cases h
    · intro w scope c done todo h; rw [evalRest_zero] at h; cases h
    · intro w last cs h; rw [evalBlocks_zero] at h; cases h
  | succ n ih =>
    obtain ⟨ihc, ihu, ihp, ihr, ihb⟩ := ih
    have iharg : ∀ w scope arg,
        (evalArg (fun d => evalCall files n w scope d) w arg).isFinal = true →
          evalArg (fun d => evalCall files (n + 1) w scope d) w arg =
            evalArg (fun d => evalCall files n w scope d) w arg := by
      intro w scope arg h
      cases arg with
      | call d => exact ihc w scope d h
      | _ => rfl
    refine ⟨?_, ?_, ?_, ?_, ?_⟩
    · intro w scope c h
      cases hr : c.resolveArgs scope w.globals with
      | error e => rw [evalCall_succ_error hr, evalCall_succ_error hr]
      | ok args =>
        cases hp : c.canPrepare args (-1) with
        | true =>
          rw [evalCall_succ_ready hr hp] at h ⊢
          rw [evalCall_succ_ready hr hp]
          exact ihp w scope c args h
        | false =>
          rw [evalCall_succ_until hr hp] at h ⊢
          rw [evalCall_succ_until hr hp]
          exact ihu w scope c [] args h
    · intro w scope c done todo h
      cases todo with
      | nil => rw [evalUntil_succ_nil, evalUntil_succ_nil]
      | cons arg todo =>
        rw [evalUntil_succ_cons] at h ⊢
        rw [evalUntil_succ_cons]
        refine Outcome.andThen_stay (iharg w scope arg) (fun w1 v hv => ?_) h
        by_cases hp : c.canPrepare (done ++ v :: todo) done.length = true
        · rw [if_pos hp] at hv ⊢
          rw [if_pos hp]
          exact ihp w1 scope c _ hv
        · rw [if_neg hp] at hv ⊢
          rw [if_neg hp]
          exact ihu w1 scope c _ _ hv
    · intro w scope c args h
      cases hp : c.prepare scope w.globals args with
      | error e => rw [evalPrepared_succ_error hp, evalPrepared_succ_error hp]
      | ok p =>
        cases hl : p.load with
        | none =>
          rw [evalPrepared_succ_ok hp hl] at h ⊢
          rw [evalPrepared_succ_ok hp hl]
          exact ihr w p.scope p.call [] p.args h
        | some path =>
          cases ht : files.read? path with
          | none => rw [evalPrepared_succ_missing hp hl ht, evalPrepared_succ_missing hp hl ht]
          | some text =>
            rw [evalPrepared_succ_load hp hl ht] at h ⊢
            rw [evalPrepared_succ_load hp hl ht]
            exact Outcome.andThen_stay (ihb w .none _)
              (fun w1 _ => ihr w1 p.scope p.call [] p.args) h
    · intro w scope c done todo h
      cases todo with
      | nil => rw [evalRest_succ_nil, evalRest_succ_nil]
      | cons arg todo =>
        rw [evalRest_succ_cons] at h ⊢
        rw [evalRest_succ_cons]
        exact Outcome.andThen_stay (iharg w scope arg)
          (fun w1 v => ihr w1 scope c (done ++ [v]) todo) h
    · intro w last cs h
      cases cs with
      | nil => rw [evalBlocks_succ_nil, evalBlocks_succ_nil]
      | cons c cs =>
        cases hc : readCall w.globals (c :: cs) with
        | error e =>
          rw [evalBlocks_succ_error (by simp) hc, evalBlocks_succ_error (by simp) hc]
        | ok r =>
          obtain ⟨d, rest⟩ := r
          rw [evalBlocks_succ_ok (by simp) hc] at h ⊢
          rw [evalBlocks_succ_ok (by simp) hc]
          exact Outcome.andThen_stay (ihc _ _ _) (fun w1 v => ihb w1 v rest) h

/-- More fuel does not change what a call comes to. -/
theorem evalCall_steady (files : Files) (w : World) (scope : Scope) (c : Call) :
    Steady fun n => evalCall files n w scope c :=
  fun n => (eval_steady files n).1 w scope c

theorem evalUntil_steady (files : Files) (w : World) (scope : Scope) (c : Call)
    (done todo : List Value) : Steady fun n => evalUntil files n w scope c done todo :=
  fun n => (eval_steady files n).2.1 w scope c done todo

theorem evalPrepared_steady (files : Files) (w : World) (scope : Scope) (c : Call)
    (args : List Value) : Steady fun n => evalPrepared files n w scope c args :=
  fun n => (eval_steady files n).2.2.1 w scope c args

theorem evalRest_steady (files : Files) (w : World) (scope : Scope) (c : Call)
    (done todo : List Value) : Steady fun n => evalRest files n w scope c done todo :=
  fun n => (eval_steady files n).2.2.2.1 w scope c done todo

/-- More fuel does not change what a text comes to. -/
theorem evalBlocks_steady (files : Files) (w : World) (last : Value) (cs : List Char) :
    Steady fun n => evalBlocks files n w last cs :=
  fun n => (eval_steady files n).2.2.2.2 w last cs

/-! ## Rules -/

/-- The evaluator gives a call an outcome. -/
def Evaluates (files : Files) (w : World) (scope : Scope) (c : Call) (o : Outcome) : Prop :=
  EndsWith (fun n => evalCall files n w scope c) o

/-- Evaluating on, until the function can do its work, leads to an outcome. -/
def EvaluatesUntil (files : Files) (w : World) (scope : Scope) (c : Call)
    (done todo : List Value) (o : Outcome) : Prop :=
  EndsWith (fun n => evalUntil files n w scope c done todo) o

/-- The work of the function, and what comes after it, lead to an outcome. -/
def EvaluatesPrepared (files : Files) (w : World) (scope : Scope) (c : Call)
    (args : List Value) (o : Outcome) : Prop :=
  EndsWith (fun n => evalPrepared files n w scope c args) o

/-- Evaluating on, after the work of the function, leads to an outcome. -/
def EvaluatesRest (files : Files) (w : World) (scope : Scope) (c : Call)
    (done todo : List Value) (o : Outcome) : Prop :=
  EndsWith (fun n => evalRest files n w scope c done todo) o

/-- The evaluator gives the blocks of a text an outcome. -/
def BlocksEvaluate (files : Files) (w : World) (last : Value) (cs : List Char) (o : Outcome) :
    Prop :=
  EndsWith (fun n => evalBlocks files n w last cs) o

/-- Applying a function needs no fuel. -/
theorem Call.isFinal_conclude (c : Call) (w : World) (scope : Scope) (args : List Value) :
    (c.conclude w scope args).isFinal = true := by
  unfold Call.conclude
  split
  · rfl
  · exact Outcome.isFinal_ofExcept _ _

section Rules

variable {files : Files} {w : World} {scope : Scope} {c : Call} {o : Outcome}

/-- A call whose arguments cannot be looked up comes to their error. -/
theorem evaluates_error_iff {e : Error} (h : c.resolveArgs scope w.globals = .error e) :
    Evaluates files w scope c o ↔ o = ⟨w, .failed e⟩ := by
  refine (endsWith_succ_iff ?_ fun n => evalCall_succ_error h).trans (endsWith_const_iff rfl)
  rw [evalCall_zero]
  rfl

/-- A call whose function works at once comes to what its work leads to. -/
theorem evaluates_ready_iff {args : List Value} (h : c.resolveArgs scope w.globals = .ok args)
    (hp : c.canPrepare args (-1) = true) :
    Evaluates files w scope c o ↔ EvaluatesPrepared files w scope c args o := by
  refine endsWith_succ_iff ?_ fun n => evalCall_succ_ready h hp
  rw [evalCall_zero]
  rfl

/-- Every other call comes to what its arguments lead to. -/
theorem evaluates_until_iff {args : List Value} (h : c.resolveArgs scope w.globals = .ok args)
    (hp : c.canPrepare args (-1) = false) :
    Evaluates files w scope c o ↔ EvaluatesUntil files w scope c [] args o := by
  refine endsWith_succ_iff ?_ fun n => evalCall_succ_until h hp
  rw [evalCall_zero]
  rfl

/-- Without arguments left the call is applied, though its function has not done its work. -/
theorem evaluatesUntil_nil_iff {done : List Value} :
    EvaluatesUntil files w scope c done [] o ↔ o = c.conclude w scope done := by
  refine (endsWith_succ_iff ?_ fun n => evalUntil_succ_nil).trans
    (endsWith_const_iff (c.isFinal_conclude w scope done))
  rw [evalUntil_zero]
  rfl

/-- The first argument that is left is a value: the function does its work, or the value counts as
evaluated. -/
theorem evaluatesUntil_value_iff {done todo : List Value} {v : Value} (hv : v.isCall = false) :
    EvaluatesUntil files w scope c done (v :: todo) o ↔
      if c.canPrepare (done ++ v :: todo) done.length then
        EvaluatesPrepared files w scope c (done ++ v :: todo) o
      else EvaluatesUntil files w scope c (done ++ [v]) todo o := by
  have harg : ∀ n, evalArg (fun d => evalCall files n w scope d) w v = ⟨w, .value v⟩ := by
    intro n
    cases v with
    | call d => cases hv
    | _ => rfl
  by_cases hp : c.canPrepare (done ++ v :: todo) done.length = true
  · rw [if_pos hp]
    refine endsWith_succ_iff (by rw [evalUntil_zero]; rfl) fun n => ?_
    rw [evalUntil_succ_cons, harg, Outcome.andThen_value, if_pos hp]
  · rw [if_neg hp]
    refine endsWith_succ_iff (by rw [evalUntil_zero]; rfl) fun n => ?_
    rw [evalUntil_succ_cons, harg, Outcome.andThen_value, if_neg hp]

/-- The first argument that is left is a call, whose value takes its place. -/
theorem evaluatesUntil_call_iff {done todo : List Value} {d : Call}
    (hd : ∀ w' v, Evaluates files w scope d ⟨w', .value v⟩ → v.isCall = false) :
    EvaluatesUntil files w scope c done (.call d :: todo) o ↔
      (∃ w' e, o = ⟨w', .failed e⟩ ∧ Evaluates files w scope d o) ∨
        (∃ w' v, Evaluates files w scope d ⟨w', .value v⟩ ∧
          EvaluatesUntil files w' scope c done (v :: todo) o) := by
  have hsplit := endsWith_andThen_iff (o := o) (evalCall_steady files w scope d)
    (k := fun w v n =>
      if c.canPrepare (done ++ v :: todo) done.length then
        evalPrepared files n w scope c (done ++ v :: todo)
      else evalUntil files n w scope c (done ++ [v]) todo)
    (by
      intro w v
      by_cases hp : c.canPrepare (done ++ v :: todo) done.length = true
      · simp only [if_pos hp]
        exact evalPrepared_steady files w scope c _
      · simp only [if_neg hp]
        exact evalUntil_steady files w scope c _ _)
  refine ((endsWith_succ_iff (by rw [evalUntil_zero]; rfl) fun n => ?_).trans hsplit).trans
    (or_congr Iff.rfl (exists_congr fun w' => exists_congr fun v => and_congr_right fun hv => ?_))
  · rw [evalUntil_succ_cons]
    rfl
  · rw [evaluatesUntil_value_iff (hd w' v hv)]
    by_cases hp : c.canPrepare (done ++ v :: todo) done.length = true
    · simp only [if_pos hp]
      exact Iff.rfl
    · simp only [if_neg hp]
      exact Iff.rfl

/-- Without arguments left the call is applied. -/
theorem evaluatesRest_nil_iff {done : List Value} :
    EvaluatesRest files w scope c done [] o ↔ o = c.conclude w scope done := by
  refine (endsWith_succ_iff ?_ fun n => evalRest_succ_nil).trans
    (endsWith_const_iff (c.isFinal_conclude w scope done))
  rw [evalRest_zero]
  rfl

/-- Behind the work of the function a value is passed over. -/
theorem evaluatesRest_value_iff {done todo : List Value} {v : Value} (hv : v.isCall = false) :
    EvaluatesRest files w scope c done (v :: todo) o ↔
      EvaluatesRest files w scope c (done ++ [v]) todo o := by
  refine endsWith_succ_iff (by rw [evalRest_zero]; rfl) fun n => ?_
  rw [evalRest_succ_cons]
  cases v with
  | call d => cases hv
  | _ => rfl

/-- Behind the work of the function a call fails, or its value takes its place. -/
theorem evaluatesRest_call_iff {done todo : List Value} {d : Call}
    (hd : ∀ w' v, Evaluates files w scope d ⟨w', .value v⟩ → v.isCall = false) :
    EvaluatesRest files w scope c done (.call d :: todo) o ↔
      (∃ w' e, o = ⟨w', .failed e⟩ ∧ Evaluates files w scope d o) ∨
        (∃ w' v, Evaluates files w scope d ⟨w', .value v⟩ ∧
          EvaluatesRest files w' scope c done (v :: todo) o) := by
  have hsplit := endsWith_andThen_iff (o := o) (evalCall_steady files w scope d)
    (k := fun w v n => evalRest files n w scope c (done ++ [v]) todo)
    (fun w v => evalRest_steady files w scope c _ _)
  refine ((endsWith_succ_iff (by rw [evalRest_zero]; rfl) fun n => ?_).trans hsplit).trans
    (or_congr Iff.rfl (exists_congr fun w' => exists_congr fun v => and_congr_right fun hv => ?_))
  · rw [evalRest_succ_cons]
    rfl
  · exact (evaluatesRest_value_iff (hd w' v hv)).symm

/-- Values that stand first are passed over. -/
theorem evaluatesRest_values_iff {vs todo : List Value} (hvs : ∀ v ∈ vs, v.isCall = false) :
    ∀ done, EvaluatesRest files w scope c done (vs ++ todo) o ↔
      EvaluatesRest files w scope c (done ++ vs) todo o := by
  induction vs with
  | nil =>
    intro done
    rw [List.nil_append, List.append_nil]
  | cons v vs ih =>
    intro done
    rw [List.cons_append, evaluatesRest_value_iff (hvs v List.mem_cons_self),
      ih (fun u hu => hvs u (List.mem_cons_of_mem v hu)), List.append_assoc,
      List.singleton_append]

/-- An error of the work is the outcome. -/
theorem evaluatesPrepared_error_iff {args : List Value} {e : Error}
    (h : c.prepare scope w.globals args = .error e) :
    EvaluatesPrepared files w scope c args o ↔ o = ⟨w, .failed e⟩ := by
  refine (endsWith_succ_iff ?_ fun n => evalPrepared_succ_error h).trans (endsWith_const_iff rfl)
  rw [evalPrepared_zero]
  rfl

/-- After its work the function is left with arguments, a call and a scope to go on with. -/
theorem evaluatesPrepared_ok_iff {args : List Value} {p : Prepared}
    (h : c.prepare scope w.globals args = .ok p) (hl : p.load = none) :
    EvaluatesPrepared files w scope c args o ↔
      EvaluatesRest files w p.scope p.call [] p.args o := by
  refine endsWith_succ_iff ?_ fun n => evalPrepared_succ_ok h hl
  rw [evalPrepared_zero]
  rfl

/-- A file that is not there is an error. -/
theorem evaluatesPrepared_missing_iff {args : List Value} {p : Prepared} {path : String}
    (h : c.prepare scope w.globals args = .ok p) (hl : p.load = some path)
    (hr : files.read? path = none) :
    EvaluatesPrepared files w scope c args o ↔ o = ⟨w, .failed (.fileNotFound path)⟩ := by
  refine (endsWith_succ_iff ?_ fun n => evalPrepared_succ_missing h hl hr).trans
    (endsWith_const_iff rfl)
  rw [evalPrepared_zero]
  rfl

/-- A file fails, or the call goes on in the world that it leaves. -/
theorem evaluatesPrepared_load_iff {args : List Value} {p : Prepared} {path : String}
    {text : List Char} (h : c.prepare scope w.globals args = .ok p) (hl : p.load = some path)
    (hr : files.read? path = some text) :
    EvaluatesPrepared files w scope c args o ↔
      (∃ w' e, o = ⟨w', .failed e⟩ ∧ BlocksEvaluate files w .none (Source.normalise text) o) ∨
        (∃ w' v, BlocksEvaluate files w .none (Source.normalise text) ⟨w', .value v⟩ ∧
          EvaluatesRest files w' p.scope p.call [] p.args o) := by
  refine (endsWith_succ_iff ?_ fun n => evalPrepared_succ_load h hl hr).trans
    (endsWith_andThen_iff (evalBlocks_steady files _ _ _) fun w' _ =>
      evalRest_steady files w' p.scope p.call [] p.args)
  rw [evalPrepared_zero]
  rfl

/-- A text without blocks comes to the last value. -/
theorem blocksEvaluate_nil_iff {last : Value} :
    BlocksEvaluate files w last [] o ↔ o = ⟨w, .value last⟩ := by
  refine (endsWith_succ_iff ?_ fun n => evalBlocks_succ_nil).trans (endsWith_const_iff rfl)
  rw [evalBlocks_zero]
  rfl

/-- A text whose next block cannot be read comes to the error. -/
theorem blocksEvaluate_error_iff {last : Value} {cs : List Char} {e : Error} (hne : cs ≠ [])
    (h : readCall w.globals cs = .error e) :
    BlocksEvaluate files w last cs o ↔ o = ⟨w, .failed e⟩ := by
  refine (endsWith_succ_iff ?_ fun n => evalBlocks_succ_error hne h).trans (endsWith_const_iff rfl)
  rw [evalBlocks_zero]
  rfl

/-- A text fails with its first block, or it comes to what the other blocks come to. -/
theorem blocksEvaluate_cons_iff {last : Value} {cs rest : List Char} {d : Call} (hne : cs ≠ [])
    (h : readCall w.globals cs = .ok (d, rest)) :
    BlocksEvaluate files w last cs o ↔
      (∃ w' e, o = ⟨w', .failed e⟩ ∧ Evaluates files w.startBlock [] d o) ∨
        (∃ w' v, Evaluates files w.startBlock [] d ⟨w', .value v⟩ ∧
          BlocksEvaluate files w' v rest o) := by
  refine (endsWith_succ_iff ?_ fun n => evalBlocks_succ_ok hne h).trans
    (endsWith_andThen_iff (evalCall_steady files _ _ _) fun w' v =>
      evalBlocks_steady files w' v rest)
  rw [evalBlocks_zero]
  rfl

end Rules

end MiniLisp

import MiniLisp.Proofs.Recursive

/-!
# Calls

What looking up, checking, preparing and applying depend on. A call that has begun carries marks:
that its arguments have been looked up, and that its function has done its work. The marks steer the
machine and matter to nothing else (`Call.prepare_mark`, `Call.apply_mark`). A deferred call has
the value of its last argument (`Call.conclude_deferred`), and all calls of a defined function
treat the same values alike (`Call.prepareUser_congr`, `Call.conclude_user`).
-/

namespace MiniLisp

/-- A wrapped answer is a value if the answer is. -/
theorem map_eq_ok_iff {α β : Type} {r : Except Error α} {g : α → β} {b : β} :
    r.map g = .ok b ↔ ∃ a, r = .ok a ∧ b = g a := by
  cases r with
  | error e => simp [Except.map]
  | ok a => simp [Except.map, eq_comm]

/-! ## Marks -/

/-- The call with other marks. -/
def Call.mark (c : Call) (resolved prepared : Bool) : Call :=
  { c with resolved := resolved, prepared := prepared }

section Mark

variable (c : Call) (r p : Bool)

@[simp] theorem Call.mark_fn : (c.mark r p).fn = c.fn := rfl

@[simp] theorem Call.mark_args : (c.mark r p).args = c.args := rfl

@[simp] theorem Call.mark_body : (c.mark r p).body = c.body := rfl

@[simp] theorem Call.mark_resolved : (c.mark r p).resolved = r := rfl

@[simp] theorem Call.mark_prepared : (c.mark r p).prepared = p := rfl

/-- Marks do not change what kind of call it is. -/
@[simp] theorem Call.isDeferred_mark : (c.mark r p).isDeferred = c.isDeferred := rfl

/-- Marks are not written. -/
@[simp] theorem Call.write_mark : (c.mark r p).write = c.write := by
  obtain ⟨fn, args, resolved, prepared, body⟩ := c
  unfold Call.mark
  cases fn with
  | user d => simp only [Call.write]
  | builtin b => cases b <;> simp only [Call.write]

end Mark

/-! ## Looking up and checking -/

section Congruence

variable {c c' : Call} {scope globals : Scope}

/-- Errors tell a call as it is written. -/
theorem Call.fail_congr (h : c.write = c'.write) : c.fail = c'.fail := by
  funext cause
  rw [Call.fail, Call.fail, h]

/-- Looking up depends on the call only through its text, which an error quotes. -/
theorem lookup_congr (h : c.write = c'.write) (arg : Value) :
    lookup scope globals c arg = lookup scope globals c' arg := by
  unfold lookup findVariable
  rw [Call.fail_congr h]

/-- So looking up depends on the call only by how it is written. -/
theorem lookupAll_congr (h : c.write = c'.write) (args : List Value) :
    lookupAll scope globals c args = lookupAll scope globals c' args := by
  induction args with
  | nil => rfl
  | cons arg args ih => rw [lookupAll, lookupAll, lookup_congr h, ih]

end Congruence

section Functions

variable (c : Call) (r p : Bool) (scope globals : Scope) (args : List Value)

@[simp] theorem Call.fail_mark : (c.mark r p).fail = c.fail :=
  Call.fail_congr (c.write_mark r p)

/-- Marks do not change when a function does its work. -/
@[simp] theorem Call.canPrepare_mark (i : Int) :
    (c.mark r p).canPrepare args i = c.canPrepare args i := rfl

/-- Marks do not change how many arguments are right. -/
@[simp] theorem Call.validate_mark : (c.mark r p).validate args = c.validate args := by
  unfold Call.validate
  rw [Call.fail_mark]
  rfl

/-- Binding parameters depends on the call only through the check of the number of arguments. -/
theorem Call.bindParams_congr {c c' : Call} (h : ∀ args, c.validate args = c'.validate args)
    (i : Nat) (params : List Value) :
    c.bindParams scope args i params = c'.bindParams scope args i params := by
  induction params generalizing scope args i with
  | nil => rfl
  | cons param params ih =>
    rw [Call.bindParams, Call.bindParams, h]
    simp only [ih]

/-- Marks do not change which function a head stands for. -/
theorem Call.headFunction_mark (head : Value) :
    (c.mark r p).headFunction scope globals head = c.headFunction scope globals head := by
  unfold Call.headFunction
  simp only [lookup_congr (c.write_mark r p), Call.write_mark, Call.mark_args]

/-- What preparing leaves, with other marks on the call. -/
def Prepared.mark (q : Prepared) (r p : Bool) : Prepared :=
  { q with call := q.call.mark r p }

/-- The work of a defined function keeps the marks. -/
theorem Call.prepareUser_mark (d : Definition) :
    (c.mark r p).prepareUser d args = (c.prepareUser d args).map (·.mark r p) := by
  unfold Call.prepareUser
  cases Call.startScope d with
  | error e => rfl
  | ok start =>
    simp only [Call.bindParams_congr start args (c.validate_mark r p)]
    cases c.bindParams start args 0 d.params <;> rfl

/-- The work of a deferred call keeps the marks. -/
theorem Call.prepareDeferred_mark :
    (c.mark r p).prepareDeferred scope globals args =
      (c.prepareDeferred scope globals args).map (·.mark r p) := by
  unfold Call.prepareDeferred
  cases args with
  | nil => rfl
  | cons head args =>
    simp only [Call.headFunction_mark]
    cases c.headFunction scope globals head with
    | error e => rfl
    | ok fn =>
      cases hb : fn.begin args with
      | error e => simp only [hb]; rfl
      | ok real => simp only [hb]; rfl

/-- The work of a definition keeps the marks. -/
theorem Call.prepareDefinition_mark :
    (c.mark r p).prepareDefinition scope args =
      (c.prepareDefinition scope args).map (·.mark r p) := by
  unfold Call.prepareDefinition
  cases args.getLast? <;> rfl

/-- Preparing leaves the marks as they are and does not depend on them. -/
theorem Call.prepare_mark :
    (c.mark r p).prepare scope globals args =
      (c.prepare scope globals args).map (·.mark r p) := by
  unfold Call.prepare
  rw [Call.mark_fn]
  split
  · rfl
  · cases Call.chooseBranch args <;> rfl
  · cases Call.bindNames scope args.dropLast <;> rfl
  · exact c.prepareDefinition_mark r p scope args
  · exact c.prepareDefinition_mark r p scope args
  · exact c.prepareDeferred_mark r p scope globals args
  · rfl
  · split <;> rfl
  · rfl
  · exact c.prepareUser_mark r p args _

/-- Capturing depends on the call only by how it is written. -/
theorem capture_congr {c c' : Call} (h : c.write = c'.write) (captures : Scope)
    (names : List Value) :
    capture scope globals c captures names = capture scope globals c' captures names := by
  induction names generalizing captures with
  | nil => rfl
  | cons name names ih =>
    rw [capture, capture, lookup_congr h]
    simp only [ih]

/-- Marks do not change what applying a function does. -/
@[simp] theorem Call.apply_mark (w : World) :
    (c.mark r p).apply w scope args = c.apply w scope args := by
  have hlambda : (c.mark r p).applyLambda w scope args = c.applyLambda w scope args := by
    cases args with
    | nil => rfl
    | cons names params =>
      unfold Call.applyLambda
      simp only [capture_congr scope w.globals (c.write_mark r p)]
      rfl
  have hpure : ∀ b, (c.mark r p).applyPure b args = c.applyPure b args := by
    intro b
    have hflatten : (c.mark r p).applyFlatten = c.applyFlatten := by
      funext v
      unfold Call.applyFlatten
      rw [Call.fail_mark]
    unfold Call.applyPure
    rw [hflatten]
    rfl
  unfold Call.apply
  rw [hlambda]
  simp only [hpure]
  rfl

/-- Marks do not change how a call ends. -/
@[simp] theorem Call.conclude_mark (w : World) :
    (c.mark r p).conclude w scope args = c.conclude w scope args := by
  unfold Call.conclude
  simp only [Call.mark_fn, Call.validate_mark, Call.apply_mark]

end Functions

/-! ## Plain values -/

/-- Whether a value stands for itself in every scope: whether it is neither a symbol nor a call. -/
def Value.isPlain : Value → Bool
  | .symbol _ => false
  | .call _ => false
  | _ => true

/-- A plain value is no call. -/
theorem Value.isCall_of_isPlain {v : Value} (h : v.isPlain = true) : v.isCall = false := by
  cases v with
  | call c => cases h
  | _ => rfl

/-- A plain value is no symbol. -/
theorem Value.ne_symbol_of_isPlain {v : Value} (h : v.isPlain = true) (s : String) :
    v ≠ .symbol s := by
  rintro rfl
  cases h

/-- Only symbols stand for something else. -/
theorem lookup_of_ne_symbol {v : Value} (h : ∀ s, v ≠ .symbol s) (scope globals : Scope)
    (c : Call) : lookup scope globals c v = .ok (false, v) := by
  cases v with
  | symbol s => exact absurd rfl (h s)
  | _ => rfl

/-- Only symbols are looked up, everything else stands for itself. -/
theorem lookupAll_of_ne_symbol {vs : List Value} (h : ∀ v ∈ vs, ∀ s, v ≠ .symbol s)
    (scope globals : Scope) (c : Call) : lookupAll scope globals c vs = .ok vs := by
  induction vs with
  | nil => rfl
  | cons v vs ih =>
    rw [lookupAll, lookup_of_ne_symbol (h v List.mem_cons_self),
      ih fun u hu => h u (List.mem_cons_of_mem v hu)]
    rfl

/-! ## Beginning -/

/-- The arguments that a call begins with: looked up, ordered, and checked if that is to be done
early. -/
theorem Call.resolveArgs_spec {c : Call} {scope globals : Scope} {args : List Value}
    (h : c.resolveArgs scope globals = .ok args) :
    ∃ vs, c.lookupArgs scope globals = .ok vs ∧ args = c.sortArgs vs ∧
      (c.fn.checksEarly = true → c.validate args = .ok ()) := by
  unfold Call.resolveArgs at h
  split at h
  · cases h
  · rename_i vs hl
    split at h
    · obtain ⟨u, hv, rfl⟩ := map_eq_ok_iff.mp h
      exact ⟨vs, hl, rfl, fun _ => hv⟩
    · rename_i hearly
      cases h
      exact ⟨vs, hl, rfl, fun he => absurd he hearly⟩

/-- Beginning a call of a function gives the call with these arguments. -/
theorem Function.eq_of_begin {fn : Function} {args : List Value} {real : Call}
    (h : fn.begin args = .ok real) :
    real = Call.begin fn args := by
  have hdef : ∀ fn, beginDefinition fn args = .ok real → real = Call.begin fn args := by
    intro fn h
    unfold beginDefinition at h
    split at h
    · cases h
    · cases h
      rfl
    · split at h
      · cases h
        rfl
      · cases h
  unfold Function.begin at h
  split at h
  · exact hdef _ h
  · exact hdef _ h
  · split at h
    · cases h
    · cases h
      rfl
  · cases h
    rfl

/-! ## Deferred calls -/

section Deferred

variable {c : Call} {w : World} {scope : Scope}

theorem Call.fn_eq_deferred (hc : c.isDeferred = true) : c.fn = .builtin .deferred := by
  unfold Call.isDeferred at hc
  split at hc
  · assumption
  · cases hc

/-- The arguments of a deferred call are looked up and nothing else. -/
theorem Call.resolveArgs_deferred (hc : c.isDeferred = true) :
    c.resolveArgs scope globals = c.lookupArgs scope globals := by
  unfold Call.resolveArgs Call.sortArgs
  rw [Call.fn_eq_deferred hc]
  cases c.lookupArgs scope globals <;> rfl

/-- A deferred call has the value of its last argument. -/
theorem Call.conclude_deferred (hc : c.isDeferred = true) (us : List Value) (v : Value) :
    c.conclude w scope (us ++ [v]) = ⟨w, .value v⟩ := by
  have hfn := Call.fn_eq_deferred hc
  have hcount : c.validate (us ++ [v]) = .ok () := by
    unfold Call.validate Call.checkCount
    rw [hfn]
    show (if (Arity.accepts ⟨false, 1⟩ (us ++ [v]).length) = true then _ else _) = _
    rw [if_pos]
    simp only [Arity.accepts, List.length_append, List.length_singleton]
    exact decide_eq_true (by omega)
  have happly : c.apply w scope (us ++ [v]) = (w, .ok v) := by
    unfold Call.apply Call.applyPure
    rw [hfn]
    simp [Call.lastArg]
  have hlate : (if c.fn.checksEarly then .ok () else c.validate (us ++ [v]) : Except Error Unit) =
      .ok () := by
    rw [hfn]
    exact hcount
  unfold Call.conclude
  rw [hlate]
  dsimp only
  rw [happly]
  rfl

/-- The work of a deferred call is to look up its head and to begin the call of the function. -/
theorem Call.prepare_deferred (hc : c.isDeferred = true) (globals : Scope) (head : Value)
    (us : List Value) :
    c.prepare scope globals (head :: us) =
      (c.headFunction scope globals head).bind fun fn =>
        (fn.begin us).map fun real => ⟨c, us ++ [.call real], scope, none⟩ := by
  unfold Call.prepare
  rw [Call.fn_eq_deferred hc]
  show c.prepareDeferred scope globals (head :: us) = _
  unfold Call.prepareDeferred
  dsimp only
  cases c.headFunction scope globals head with
  | error e => rfl
  | ok fn =>
    dsimp only [Except.bind]
    cases fn.begin us with
    | error e => rfl
    | ok real => rfl

/-- What preparing makes of a deferred call: its arguments without the head, followed by the call of
the function that the head stands for. -/
theorem Call.prepareDeferred_spec {args : List Value} {p : Prepared}
    (h : c.prepareDeferred scope globals args = .ok p) :
    ∃ head us fn real, args = head :: us ∧ c.headFunction scope globals head = .ok fn ∧
      fn.begin us = .ok real ∧ p = ⟨c, us ++ [.call real], scope, none⟩ := by
  unfold Call.prepareDeferred at h
  split at h
  · cases h
  · rename_i head us
    split at h
    · cases h
    · rename_i fn hf
      split at h
      · cases h
      · rename_i real hb
        cases h
        exact ⟨head, us, fn, real, rfl, hf, hb, rfl⟩

/-- A deferred call does its work at the position of the last argument that it was written with. -/
theorem Call.canPrepare_deferred (hc : c.isDeferred = true) (args : List Value) (i : Int) :
    c.canPrepare args i = (i == (c.args.length : Int) - 1) := by
  unfold Call.canPrepare
  rw [Call.fn_eq_deferred hc]

/-- A deferred call never does its work before its head is evaluated. -/
theorem Call.canPrepare_deferred_start (hc : c.isDeferred = true) (hpos : 0 < c.args.length)
    (args : List Value) : c.canPrepare args (-1) = false := by
  rw [Call.canPrepare_deferred hc]
  exact beq_false_of_ne (by omega)

end Deferred

/-! ## Calls of defined functions -/

section User

variable {c c' : Call} {d : Definition} {w : World} {scope globals : Scope} {args us : List Value}

/-- A call of a defined function is not deferred. -/
theorem Call.isDeferred_user (hc : c.fn = .user d) : c.isDeferred = false := by
  rw [Call.isDeferred, hc]

/-- A defined function does its work when no argument is left. -/
theorem Call.canPrepare_user (hc : c.fn = .user d) (i : Int) :
    c.canPrepare args i = decide ((args.length : Int) - 1 ≤ i) := by
  unfold Call.canPrepare
  rw [hc]

/-- A defined function does its work with the last argument. -/
theorem Call.canPrepare_user_of_lt (hc : c.fn = .user d) {i : Int} (hi : i < args.length - 1) :
    c.canPrepare args i = false := by
  rw [Call.canPrepare_user hc]
  exact decide_eq_false (by omega)

/-- The arguments of a defined function are only looked up: they keep their order and are counted
later. -/
theorem Call.resolveArgs_user (hc : c.fn = .user d) :
    c.resolveArgs scope globals = c.lookupArgs scope globals := by
  unfold Call.resolveArgs Call.sortArgs
  rw [hc]
  cases c.lookupArgs scope globals <;> rfl

/-- The work of a defined function is to set up the scope of its body. -/
theorem Call.prepare_user (hc : c.fn = .user d) :
    c.prepare scope globals args = c.prepareUser d args := by
  unfold Call.prepare
  rw [hc]

/-- The number of arguments is checked alike in all calls of a defined function. -/
theorem Call.validate_user (hc : c.fn = .user d) (hc' : c'.fn = .user d) (args : List Value) :
    c.validate args = c'.validate args := by
  unfold Call.validate Call.checkCount Call.writeName
  rw [hc, hc']

/-- A defined function ends alike for all calls of it, with the same arguments. -/
theorem Call.conclude_user (hc : c.fn = .user d) (hc' : c'.fn = .user d) :
    c.conclude w scope args = c'.conclude w scope args := by
  unfold Call.conclude Call.apply
  rw [Call.validate_user hc hc', hc, hc']

/-- The value of a call of a defined function is its last argument. -/
theorem Call.mem_of_conclude_user {w' : World} {v : Value} (hc : c.fn = .user d)
    (h : c.conclude w scope args = ⟨w', .value v⟩) : v ∈ args := by
  have happly : c.apply w scope args = (w, Call.lastArg args) := by
    unfold Call.apply
    rw [hc]
  unfold Call.conclude at h
  rw [happly] at h
  split at h
  · cases h
  · cases hl : args.getLast? with
    | none =>
      rw [Call.lastArg, hl] at h
      cases h
    | some u =>
      rw [Call.lastArg, hl] at h
      cases h
      exact List.mem_of_getLast? hl

/-- The work of a defined function is the same for all calls of it. -/
theorem Call.prepareUser_congr (hc : c.fn = .user d) (hc' : c'.fn = .user d) :
    c'.prepareUser d args = (c.prepareUser d args).map fun p => { p with call := c' } := by
  unfold Call.prepareUser
  cases Call.startScope d with
  | error e => rfl
  | ok start =>
    simp only [Call.bindParams_congr start args (Call.validate_user hc' hc)]
    cases c.bindParams start args 0 d.params <;> rfl

/-- Binding parameters adds nothing but none at the end of the arguments. -/
theorem Call.bindParams_append {scope' : Scope} {args' : List Value} {i : Nat}
    {params : List Value} (h : c.bindParams scope args i params = .ok (scope', args')) :
    ∃ m, args' = args ++ List.replicate m Value.none := by
  fun_induction Call.bindParams c scope args i params with
  | case1 =>
    cases h
    exact ⟨0, by simp⟩
  | case2 => cases h
  | case3 scope args i param params hp =>
    obtain ⟨s, -, hs⟩ := map_eq_ok_iff.mp h
    cases hs
    exact ⟨0, by simp⟩
  | case4 => cases h
  | case5 scope args i param params hp v hv s hs ih => exact ih h
  | case6 => cases h
  | case7 scope args i param params hp hv hc ih =>
    obtain ⟨m, rfl⟩ := ih h
    refine ⟨m + 1, ?_⟩
    rw [List.append_assoc, List.replicate_succ]
    rfl

/-- What preparing makes of a call of a defined function: its arguments are followed by none for
each missing one and by the body. -/
theorem Call.prepareUser_spec {p : Prepared} (h : c.prepareUser d us = .ok p) :
    ∃ start scope m, Call.startScope d = .ok start ∧
      c.bindParams start us 0 d.params = .ok (scope, us ++ List.replicate m Value.none) ∧
        p = ⟨c, us ++ List.replicate m Value.none ++ [d.body], scope, none⟩ := by
  unfold Call.prepareUser at h
  split at h
  · cases h
  · rename_i start hs
    split at h
    · cases h
    · rename_i scope args hb
      cases h
      obtain ⟨m, rfl⟩ := Call.bindParams_append hb
      exact ⟨start, scope, m, hs, hb, rfl⟩

end User

end MiniLisp

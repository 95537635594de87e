import MiniLisp.Proofs.KnownValues

/-!
# Runs with known failures

A call that fails ends the calls around it with the same error, and this happens where the call is
evaluated: as an argument (`OneFails.strict`, `OneFails.user`), as the condition or the branch of a
conditional (`Fails.in_condition`, `Fails.in_branch`) or as the body of a function, which is known
by what it comes to with given values (`Definition.Fails`). Arguments that come before have values,
and those that come after are not evaluated.
-/

namespace MiniLisp

/-- Evaluated in a scope from the world `w` on, the call `c` fails with the error `e` and leaves the
world `w'`. -/
structure Fails (files : Files) (scope : Scope) (w : World) (c : Call) (w' : World) (e : Error) :
    Prop where
  fresh : c.resolved = false
  ends : Ends files w (.start c scope) ⟨w', .failed e⟩

/-- Of several arguments one fails, and those before it have values. -/
inductive OneFails (files : Files) (scope : Scope) :
    World → List Value → World → Error → Prop where
  | here {w w' : World} {c : Call} {vs : List Value} {e : Error}
      (hc : Fails files scope w c w' e) : OneFails files scope w (.call c :: vs) w' e
  | later {w w₁ w' : World} {v u : Value} {vs : List Value} {e : Error}
      (hv : Yields files scope w v w₁ u) (hvs : OneFails files scope w₁ vs w' e) :
      OneFails files scope w (v :: vs) w' e

section Arguments

variable {files : Files} {scope : Scope} {w w' : World} {b : Builtin} {d : Definition}
  {args vs : List Value} {e : Error}

theorem OneFails.eachYields (h : OneFails files scope w vs w' e) :
    EachYields files scope (fun _ v => v.isCall = false) w vs := by
  induction h with
  | here hc =>
    refine eachYields_call.mpr ⟨hc.fresh, fun w₁ v hv => ?_⟩
    cases hc.ends.unique hv
  | later hv _ ih => exact hv.eachYields_cons ih

/-- What would come after the arguments does not matter. -/
theorem OneFails.afterArgs (h : OneFails files scope w vs w' e)
    (k : World → List Value → Outcome → Prop) : AfterArgs files scope w vs k ⟨w', .failed e⟩ := by
  induction h generalizing k with
  | here hc => exact afterArgs_call.mpr (Or.inl ⟨_, _, rfl, hc.ends⟩)
  | later hv _ ih => exact afterArgs_cons.mpr (Or.inr ⟨_, _, hv.argEnds, ih _⟩)

theorem OneFails.not_argsEnd (h : OneFails files scope w vs w' e) {w₁ : World}
    {us : List Value} : ¬ ArgsEnd files scope w vs w₁ us := by
  induction h generalizing us with
  | here hc =>
    intro hargs
    cases hargs with
    | cons hv _ => cases hc.ends.unique hv
  | later hv _ ih =>
    intro hargs
    cases hargs with
    | cons hv' hrest =>
      cases hv.argEnds.unique hv'
      exact ih hrest

/-- An argument of a strict builtin fails. -/
theorem OneFails.strict (h : OneFails files scope w vs w' e) (hb : b.isStrict = true)
    (hvs : lookupAll scope w.globals (.begin (.builtin b) args) args = .ok vs) :
    Fails files scope w (.begin (.builtin b) args) w' e :=
  ⟨rfl, (ends_strict_iff hb hvs h.eachYields).mpr (h.afterArgs _)⟩

/-- An argument of a defined function fails. -/
theorem OneFails.user (h : OneFails files scope w vs w' e)
    (hvs : lookupAll scope w.globals (.begin (.user d) args) args = .ok vs) :
    Fails files scope w (.begin (.user d) args) w' e := by
  have hres : (Call.begin (.user d) args).resolveArgs scope w.globals = .ok vs :=
    (Call.resolveArgs_user rfl).trans hvs
  refine ⟨rfl, (ends_user_iff_runs_of_yields rfl ⟨rfl, rfl⟩ hres h.eachYields ?_).mpr
    (h.afterArgs _)⟩
  intro w₁ us hus
  exact absurd hus h.not_argsEnd

end Arguments

/-! ## Defined functions -/

/-- With the values `us` the function `d`, which takes so many, fails with the error `e` and leaves
the world `w'`. -/
def Definition.Fails (files : Files) (d : Definition) (w : World) (us : List Value) (w' : World)
    (e : Error) : Prop :=
  ∃ names c, d.Takes names ∧ RightCount d.variadic names.length us.length ∧ d.body = .call c ∧
    MiniLisp.Fails files (d.bodyScope us) w c w' e

section Defined

variable {files : Files} {scope : Scope} {w w₁ w' : World} {d : Definition} {head : Value}
  {args vs us : List Value} {e : Error}

theorem Definition.Fails.runs (h : d.Fails files w us w' e) :
    d.Runs files w us ⟨w', .failed e⟩ := by
  obtain ⟨names, c, htakes, hcount, hc, hbody⟩ := h
  refine (htakes.runs_iff hcount).mpr ?_
  rw [hc]
  exact hbody.ends

/-- A function fails with the values of the arguments. -/
theorem Definition.Fails.call (h : d.Fails files w₁ us w' e)
    (hvs : lookupAll scope w.globals (.begin (.user d) args) args = .ok vs)
    (hy : AllYield files scope w vs w₁ us) :
    MiniLisp.Fails files scope w (.begin (.user d) args) w' e := by
  have hruns := h.runs
  obtain ⟨names, c, -, -, hc, hbody⟩ := h
  refine ⟨rfl, hy.ends_user_of_runs hvs hruns ?_⟩
  rw [hc]
  exact (OneFails.here hbody).eachYields

/-- The head of a deferred call stands for a function that fails. -/
theorem Definition.Fails.deferred (h : d.Fails files w₁ us w' e)
    (hvs : lookupAll scope w.globals (.defer head args) (head :: args) =
      .ok (.function (.user d) :: vs)) (htime : InTime args vs)
    (hy : AllYield files scope w vs w₁ us) (hplain : ∀ u ∈ us, u.isPlain = true) :
    MiniLisp.Fails files scope w (.defer head args) w' e := by
  have hvalues : AllYield files scope w₁ us w₁ us :=
    allYield_values fun u hu => Value.isCall_of_isPlain (hplain u hu)
  have hinvokes : Invokes files scope (.user d) w₁ us ⟨w', .failed e⟩ :=
    (h.call (lookupAll_of_ne_symbol (fun u hu => Value.ne_symbol_of_isPlain (hplain u hu)) _ _ _)
      hvalues).ends
  refine ⟨rfl, hy.ends_deferred_of_invokes hvs htime hinvokes fun v hv => ?_⟩
  cases hv

end Defined

/-! ## Conditionals -/

section Conditionals

variable {files : Files} {scope : Scope} {w w₁ w' : World} {c : Call} {condition yes no u : Value}
  {args : List Value} {e : Error}

/-- The condition of `if` fails. -/
theorem Fails.in_condition (h : Fails files scope w c w' e)
    (hvs : lookupAll scope w.globals (.begin (.builtin .branch) args) args =
      .ok [.call c, yes, no]) :
    Fails files scope w (.begin (.builtin .branch) args) w' e := by
  have hone : OneFails files scope w [.call c] w' e := .here h
  have hargs : (Call.begin (.builtin .branch) args).resolveArgs scope w.globals =
      .ok ([] ++ .call c :: yes :: (some no).toList) := Call.resolveArgs_branch hvs
  exact ⟨rfl, (branch_form.ends_pending_iff ⟨rfl, rfl⟩ hargs rfl hone.eachYields).mpr
    (hone.afterArgs _)⟩

/-- The branch of `if` fails that is taken. -/
theorem Fails.in_branch (h : Fails files scope w₁ c w' e)
    (hcondition : Yields files scope w condition w₁ u)
    (hvs : lookupAll scope w.globals (.begin (.builtin .branch) args) args =
      .ok [condition, yes, no]) (htaken : (if u.isTrue then yes else no) = .call c) :
    Fails files scope w (.begin (.builtin .branch) args) w' e := by
  have hone : OneFails files scope w₁ [.call c] w' e := .here h
  have hargs : (Call.begin (.builtin .branch) args).resolveArgs scope w.globals =
      .ok ([condition] ++ yes :: (some no).toList) := Call.resolveArgs_branch hvs
  have hselected : selectedBranch yes (some no) [u] = [.call c] := by
    rw [selectedBranch_singleton, ← htaken]
    cases u.isTrue <;> rfl
  exact ⟨rfl, branch_form.ends_of_afterArgs ⟨rfl, rfl⟩ hargs rfl hcondition.singleton
    (congrArg (fun more => Except.ok (scope, more)) hselected) hone.eachYields (hone.afterArgs _)⟩

end Conditionals

end MiniLisp

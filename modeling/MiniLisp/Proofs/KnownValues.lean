import MiniLisp.Proofs.Closures
import MiniLisp.Proofs.Conditionals
import MiniLisp.Proofs.LetBinding
import MiniLisp.Proofs.StarExpansion

/-!
# Runs with known values

Where the arguments of a call are known to have values, what the call comes to can be read off from
these. There is one rule for each kind of call: `AllYield.ends_strict` for builtins that are applied
to the values of all their arguments, `AllYield.ends_user` for defined functions, which are known by
what they come to with given values (`Definition.Gives`), `AllYield.ends_deferred` for calls whose
head is looked up late, `Yields.ends_branch`, `AllYield.ends_choice` for conditionals, and
`AllYield.ends_let` for `let`. Unlike the statements with `Place` they ask nothing of what else the
world and the scope hold.
-/

namespace MiniLisp

/-! ## Arguments with values -/

/-- Evaluated in a scope from the world `w` on, the argument `v` comes to the value `u` and leaves
the world `w'`. -/
inductive Yields (files : Files) (scope : Scope) : World → Value → World → Value → Prop where
  | value {w : World} {v : Value} (hv : v.isCall = false) : Yields files scope w v w v
  | call {w w' : World} {c : Call} {u : Value} (hfresh : c.resolved = false)
      (hends : Ends files w (.start c scope) ⟨w', .value u⟩) (hu : u.isCall = false) :
      Yields files scope w (.call c) w' u

/-- The same for several arguments, one after the other. -/
inductive AllYield (files : Files) (scope : Scope) :
    World → List Value → World → List Value → Prop where
  | nil {w : World} : AllYield files scope w [] w []
  | cons {w w' w'' : World} {v u : Value} {vs us : List Value}
      (hv : Yields files scope w v w' u) (hvs : AllYield files scope w' vs w'' us) :
      AllYield files scope w (v :: vs) w'' (u :: us)

section Yielding

variable {files : Files} {scope : Scope} {w w' : World} {v u : Value} {vs us : List Value}

theorem Yields.isCall_eq_false (h : Yields files scope w v w' u) : u.isCall = false := by
  cases h with
  | value hv => exact hv
  | call _ _ hu => exact hu

theorem Yields.argEnds (h : Yields files scope w v w' u) :
    ArgEnds files scope w v ⟨w', .value u⟩ := by
  cases h with
  | value hv => exact (argEnds_value hv).mpr rfl
  | call _ hends _ => exact hends

theorem Yields.singleton (h : Yields files scope w v w' u) :
    AllYield files scope w [v] w' [u] :=
  .cons h .nil

theorem AllYield.argsEnd (h : AllYield files scope w vs w' us) :
    ArgsEnd files scope w vs w' us := by
  induction h with
  | nil => exact .nil
  | cons hv _ ih => exact .cons hv.argEnds ih

theorem AllYield.isCall_eq_false (h : AllYield files scope w vs w' us) :
    ∀ u ∈ us, u.isCall = false := by
  induction h with
  | nil => simp
  | cons hv _ ih => exact List.forall_mem_cons.mpr ⟨hv.isCall_eq_false, ih⟩

/-- Runs have one outcome, so that what an argument comes to is all that it can yield. -/
theorem Yields.eachYields_cons (h : Yields files scope w v w' u)
    (hvs : EachYields files scope (fun _ v => v.isCall = false) w' vs) :
    EachYields files scope (fun _ v => v.isCall = false) w (v :: vs) := by
  cases h with
  | value hv => exact (eachYields_value hv).mpr ⟨hv, hvs⟩
  | call hfresh hends hu =>
    refine eachYields_call.mpr ⟨hfresh, fun w₁ v hv => ?_⟩
    cases hends.unique hv
    exact ⟨hu, hvs⟩

theorem AllYield.eachYields (h : AllYield files scope w vs w' us) :
    EachYields files scope (fun _ v => v.isCall = false) w vs := by
  induction h with
  | nil => trivial
  | cons hv _ ih => exact hv.eachYields_cons ih

theorem allYield_values (hvs : ∀ v ∈ vs, v.isCall = false) : AllYield files scope w vs w vs := by
  induction vs with
  | nil => exact .nil
  | cons v vs ih =>
    rw [List.forall_mem_cons] at hvs
    exact .cons (.value hvs.1) (ih hvs.2)

theorem AllYield.append {w'' : World} {vs' us' : List Value} (h : AllYield files scope w vs w' us)
    (h' : AllYield files scope w' vs' w'' us') :
    AllYield files scope w (vs ++ vs') w'' (us ++ us') := by
  induction h with
  | nil => exact h'
  | cons hv _ ih => exact .cons hv (ih h')

end Yielding

/-! ## Builtins that are applied to all their arguments -/

/-- Whether a builtin has no work to do before all its arguments are evaluated. -/
def Builtin.isStrict : Builtin → Bool
  | choice | branch | binding | define | lambda | load _ | undefined | deferred => false
  | _ => true

section Strict

variable {files : Files} {scope : Scope} {w w' : World} {b : Builtin} {args vs us : List Value}
  {o : Outcome}

/-- A call of a strict builtin evaluates all its arguments, and is finished. -/
theorem ends_strict_iff (hb : b.isStrict = true)
    (hvs : lookupAll scope w.globals (.begin (.builtin b) args) args = .ok vs)
    (hy : EachYields files scope (fun _ v => v.isCall = false) w vs) :
    Ends files w (.start (.begin (.builtin b) args) scope) o ↔
      AfterArgs files scope w vs
        (fun w us o => o = (Call.begin (.builtin b) args).conclude w scope us) o := by
  have hres : (Call.begin (.builtin b) args).resolveArgs scope w.globals = .ok vs := by
    have hsort : (Call.begin (.builtin b) args).sortArgs vs = vs := by
      cases b <;> first | rfl | cases hb
    have hlate : (Call.begin (.builtin b) args).fn.checksEarly = false := by
      cases b <;> first | rfl | cases hb
    have hlook : (Call.begin (.builtin b) args).lookupArgs scope w.globals = .ok vs := hvs
    rw [Call.resolveArgs, hlook]
    dsimp only
    rw [hlate, hsort]
    rfl
  have hready : (Call.begin (.builtin b) args).canPrepare vs (-1) = true := by
    cases b <;> first | rfl | cases hb
  have hprep : (Call.begin (.builtin b) args).prepare scope w.globals vs =
      .ok ⟨.begin (.builtin b) args, vs, scope, none⟩ := by
    cases b <;> first | rfl | cases hb
  have hdirect : (Call.begin (.builtin b) args).isDeferred = false := by
    cases b <;> first | rfl | cases hb
  refine (ends_prepare_ok_iff (step_start_ready rfl rfl hres hready) hprep rfl).trans ?_
  exact ends_frame_rest_iff hdirect hy

/-- **A strict builtin** is applied to the values of its arguments. -/
theorem AllYield.ends_strict (hy : AllYield files scope w vs w' us) (hb : b.isStrict = true)
    (hvs : lookupAll scope w.globals (.begin (.builtin b) args) args = .ok vs)
    (ho : (Call.begin (.builtin b) args).conclude w' scope us = o) :
    Ends files w (.start (.begin (.builtin b) args) scope) o :=
  (ends_strict_iff hb hvs hy.eachYields).mpr (hy.argsEnd.afterArgs_iff.mpr ho.symm)

theorem Place.ends_strict_iff (hplace : Place scope w args) (hb : b.isStrict = true)
    (hvs : lookupAll scope w.globals (.begin (.builtin b) args) args = .ok vs) :
    Ends files w (.start (.begin (.builtin b) args) scope) o ↔
      AfterArgs files scope w vs
        (fun w us o => o = (Call.begin (.builtin b) args).conclude w scope us) o :=
  MiniLisp.ends_strict_iff hb hvs
    ((hplace.looked hvs).eachYields.mono fun _ _ hv => isProper_kind.value hv.2)

end Strict

/-! ## Defined functions -/

/-- With the values `us` the function `d`, which takes so many, comes to the value `v` and leaves
the world `w'`. -/
def Definition.Gives (files : Files) (d : Definition) (w : World) (us : List Value) (w' : World)
    (v : Value) : Prop :=
  ∃ names, d.Takes names ∧ RightCount d.variadic names.length us.length ∧
    Yields files (d.bodyScope us) w d.body w' v

section Defined

variable {files : Files} {scope : Scope} {w w₁ w₂ : World} {d : Definition} {fn : Function}
  {head v : Value} {args vs us : List Value}

theorem Definition.Gives.runs (h : d.Gives files w us w₁ v) :
    d.Runs files w us ⟨w₁, .value v⟩ := by
  obtain ⟨names, htakes, hcount, hbody⟩ := h
  exact (htakes.runs_iff hcount).mpr hbody.argEnds

theorem Definition.Gives.isCall_eq_false (h : d.Gives files w us w₁ v) : v.isCall = false := by
  obtain ⟨names, -, -, hbody⟩ := h
  exact hbody.isCall_eq_false

/-- Every call that passes values to a function ends with what the function gives for them. -/
theorem Definition.Gives.ends_iff {c : Call} {o : Outcome} (h : d.Gives files w₁ us w₂ v)
    (hd : d.Sound) (hc : Passes files d us w₁ scope w c) :
    Ends files w (.start c scope) o ↔ o = ⟨w₂, .value v⟩ :=
  Ends.iff_eq ((hc.ends_iff hd).mpr h.runs)

theorem Definition.Gives.yields {c : Call} (h : d.Gives files w₁ us w₂ v) (hd : d.Sound)
    (hc : Passes files d us w₁ scope w c) : Yields files scope w (.call c) w₂ v := by
  refine .call ?_ ((h.ends_iff hd hc).mpr rfl) h.isCall_eq_false
  cases hc with
  | direct | deferred => rfl

/-- A call of a defined function comes to what this does with the values of the arguments. -/
theorem AllYield.ends_user_of_runs {o : Outcome} (hy : AllYield files scope w vs w₁ us)
    (hvs : lookupAll scope w.globals (.begin (.user d) args) args = .ok vs)
    (hruns : d.Runs files w₁ us o)
    (hbody : EachYields files (d.bodyScope us) (fun _ v => v.isCall = false) w₁ [d.body]) :
    Ends files w (.start (.begin (.user d) args) scope) o := by
  have hres : (Call.begin (.user d) args).resolveArgs scope w.globals = .ok vs :=
    (Call.resolveArgs_user rfl).trans hvs
  refine (ends_user_iff_runs_of_yields rfl ⟨rfl, rfl⟩ hres hy.eachYields ?_).mpr
    (hy.argsEnd.afterArgs_iff.mpr hruns)
  intro w' us' hus p hp
  obtain ⟨rfl, rfl⟩ := hy.argsEnd.unique hus
  have hscope : d.bodyScope us = p.scope := by rw [Definition.bodyScope, hp]
  rw [← hscope]
  exact hbody

/-- **A call of a defined function** has the value that the function comes to. -/
theorem AllYield.ends_user (hy : AllYield files scope w vs w₁ us)
    (hvs : lookupAll scope w.globals (.begin (.user d) args) args = .ok vs)
    (hgives : d.Gives files w₁ us w₂ v) :
    Ends files w (.start (.begin (.user d) args) scope) ⟨w₂, .value v⟩ := by
  have hruns := hgives.runs
  obtain ⟨names, -, -, hbody⟩ := hgives
  exact hy.ends_user_of_runs hvs hruns hbody.singleton.eachYields

theorem Invokes.unique {o o' : Outcome} (h : Invokes files scope fn w us o)
    (h' : Invokes files scope fn w us o') : o = o' := by
  unfold Invokes at h h'
  cases hb : fn.begin us with
  | error e =>
    rw [hb] at h h'
    exact h.trans h'.symm
  | ok real =>
    rw [hb] at h h'
    exact Ends.unique h h'

/-- A function that is invoked with values that are no symbols gets them as they are. -/
theorem Definition.Gives.invokes (h : d.Gives files w us w₁ v)
    (hus : ∀ u ∈ us, u.isPlain = true) :
    Invokes files scope (.user d) w us ⟨w₁, .value v⟩ :=
  AllYield.ends_user (allYield_values fun u hu => Value.isCall_of_isPlain (hus u hu))
    (lookupAll_of_ne_symbol (fun u hu => Value.ne_symbol_of_isPlain (hus u hu)) _ _ _) h

/-- A deferred call comes to what the function does that its head stands for. -/
theorem AllYield.ends_deferred_of_invokes {o : Outcome} (hy : AllYield files scope w vs w₁ us)
    (hvs : lookupAll scope w.globals (.defer head args) (head :: args) =
      .ok (.function fn :: vs)) (htime : InTime args vs)
    (hinvokes : Invokes files scope fn w₁ us o)
    (hvalue : ∀ v, o.result = .value v → v.isCall = false) :
    Ends files w (.start (.defer head args) scope) o := by
  have hres : (Call.defer head args).resolveArgs scope w.globals = .ok (.function fn :: vs) :=
    (Call.resolveArgs_deferred rfl).trans hvs
  have hall : AllYield files scope w (.function fn :: vs) w₁ (.function fn :: us) :=
    .cons (.value rfl) hy
  have hpos : 0 < (Call.defer head args).args.length := Nat.succ_pos _
  have hlen : (Call.defer head args).args.length ≤ (Value.function fn :: vs).length :=
    Nat.succ_le_succ htime.1
  have hlate : ∀ v ∈ (Value.function fn :: vs).drop (Call.defer head args).args.length,
      v.isCall = false := htime.2
  rw [ends_deferred_until_iff rfl rfl rfl hpos hres hlen hlate hall.eachYields,
    hall.argsEnd.afterArgs_iff]
  rw [← hall.argsEnd.length_eq] at hlen
  refine (ends_deferred_ready_iff rfl hpos hlen hall.isCall_eq_false fun w' v hv => ?_).mpr
    hinvokes
  -- there is no other outcome
  have hsame : Invokes files scope fn w₁ us ⟨w', .value v⟩ := hv
  exact hvalue v (congrArg Outcome.result (hinvokes.unique hsame))

/-- **A deferred call** has the value that the function has that its head stands for. -/
theorem AllYield.ends_deferred (hy : AllYield files scope w vs w₁ us)
    (hvs : lookupAll scope w.globals (.defer head args) (head :: args) =
      .ok (.function fn :: vs)) (htime : InTime args vs)
    (hinvokes : Invokes files scope fn w₁ us ⟨w₂, .value v⟩) (hv : v.isCall = false) :
    Ends files w (.start (.defer head args) scope) ⟨w₂, .value v⟩ := by
  refine hy.ends_deferred_of_invokes hvs htime hinvokes fun u hu => ?_
  cases hu
  exact hv

/-- A deferred call that gets fewer arguments than were written has the value of the last, or of its
head if there is none. -/
theorem AllYield.ends_short (hy : AllYield files scope w vs w₁ us)
    (hvs : lookupAll scope w.globals (.defer head args) (head :: args) =
      .ok (.function fn :: vs)) (hlen : vs.length < args.length) :
    Ends files w (.start (.defer head args) scope)
      ⟨w₁, .value (us.getLastD (.function fn))⟩ := by
  have hres : (Call.defer head args).resolveArgs scope w.globals = .ok (.function fn :: vs) :=
    (Call.resolveArgs_deferred rfl).trans hvs
  rw [ends_deferred_short_iff rfl rfl rfl hres (Nat.succ_lt_succ hlen) rfl hy.eachYields,
    hy.argsEnd.afterArgs_iff]

end Defined

/-! ## Conditionals -/

section Forms

variable {files : Files} {scope scope' : Scope} {c : Call} {w w₁ w₂ : World} {count : Nat}
  {choose : List Value → Except Error (Scope × List Value)} {condition yes no u v : Value}
  {args more rest us us' vs : List Value}

/-- A special form evaluates the arguments in front, and then goes on with those that it chooses. -/
theorem Form.ends_of_afterArgs {o : Outcome} (hform : Form c scope count rest choose)
    (hfresh : c.resolved = false ∧ c.prepared = false)
    (hargs : c.resolveArgs scope w.globals = .ok (vs ++ rest)) (hlen : vs.length = count)
    (hy : AllYield files scope w vs w₁ us) (hchoose : choose us = .ok (scope', more))
    (hmore : EachYields files scope' (fun _ v => v.isCall = false) w₁ more)
    (hafter : AfterArgs files scope' w₁ more
      (fun w vs o => o = c.conclude w scope' (us ++ vs)) o) :
    Ends files w (.start c scope) o := by
  obtain ⟨n, rfl⟩ := Nat.exists_eq_succ_of_ne_zero (Nat.ne_of_gt hform.pos)
  obtain ⟨front, a, rfl, rfl⟩ := exists_concat_of_length hlen
  rw [List.append_assoc, List.singleton_append] at hargs
  rw [hform.ends_pending_iff hfresh hargs rfl hy.eachYields, hy.argsEnd.afterArgs_iff]
  obtain ⟨done, u, rfl, hdone⟩ := exists_concat_of_length (hy.argsEnd.length_eq.trans hlen)
  have hu : u.isCall = false := hy.isCall_eq_false u (by simp)
  have hready : c.canPrepare (done ++ u :: rest) done.length = true := by
    rw [hform.ready _ _ (by simp only [List.length_append, List.length_cons]; omega)]
    omega
  have hprep := hform.prepare w₁.globals (done ++ [u]) (by simp [hdone])
  rw [hchoose] at hprep
  simp only [Except.map, List.append_assoc, List.singleton_append] at hprep hafter
  rw [← hdone, List.take_left, List.drop_left, List.singleton_append,
    ends_frame_work_iff hform.direct hu hready hprep hmore]
  exact hafter

/-- **A special form** evaluates the arguments in front and those that it chooses. -/
theorem Form.ends_of_yields (hform : Form c scope count rest choose)
    (hfresh : c.resolved = false ∧ c.prepared = false)
    (hargs : c.resolveArgs scope w.globals = .ok (vs ++ rest)) (hlen : vs.length = count)
    (hy : AllYield files scope w vs w₁ us) (hchoose : choose us = .ok (scope', more))
    (hmore : AllYield files scope' w₁ more w₂ us') :
    Ends files w (.start c scope) (c.conclude w₂ scope' (us ++ us')) :=
  hform.ends_of_afterArgs hfresh hargs hlen hy hchoose hmore.eachYields
    (hmore.argsEnd.afterArgs_iff.mpr rfl)

/-- `if` evaluates the branch that is selected, if there is one. -/
theorem Yields.ends_selected (hcondition : Yields files scope w condition w₁ u) (no : Option Value)
    (hvs : lookupAll scope w.globals (.begin (.builtin .branch) args) args =
      .ok (condition :: yes :: no.toList)) (hselected : selectedBranch yes no [u] = more)
    (hmore : AllYield files scope w₁ more w₂ us) :
    Ends files w (.start (.begin (.builtin .branch) args) scope)
      ((Call.begin (.builtin .branch) args).conclude w₂ scope (u :: us)) :=
  branch_form.ends_of_yields ⟨rfl, rfl⟩ (Call.resolveArgs_branch hvs) rfl hcondition.singleton
    (congrArg (fun more => Except.ok (scope, more)) hselected) hmore

/-- **`if` with two branches** has the value of the one that is taken. -/
theorem Yields.ends_branch (hcondition : Yields files scope w condition w₁ u)
    (hvs : lookupAll scope w.globals (.begin (.builtin .branch) args) args =
      .ok [condition, yes, no])
    (hbranch : Yields files scope w₁ (if u.isTrue then yes else no) w₂ v) :
    Ends files w (.start (.begin (.builtin .branch) args) scope) ⟨w₂, .value v⟩ := by
  refine hcondition.ends_selected (some no) hvs ?_ hbranch.singleton
  rw [selectedBranch_singleton]
  cases u.isTrue <;> rfl

/-- **`if` with one branch** has the value of this branch if it is taken. -/
theorem Yields.ends_one_branch (hcondition : Yields files scope w condition w₁ u)
    (hvs : lookupAll scope w.globals (.begin (.builtin .branch) args) args =
      .ok [condition, yes]) (hu : u.isTrue = true)
    (hbranch : Yields files scope w₁ yes w₂ v) :
    Ends files w (.start (.begin (.builtin .branch) args) scope) ⟨w₂, .value v⟩ := by
  refine hcondition.ends_selected none hvs ?_ hbranch.singleton
  rw [selectedBranch_singleton, hu]
  rfl

/-- `if` without a branch to take has the value none. -/
theorem Yields.ends_no_branch (hcondition : Yields files scope w condition w₁ u)
    (hvs : lookupAll scope w.globals (.begin (.builtin .branch) args) args =
      .ok [condition, yes]) (hu : u.isTrue = false) :
    Ends files w (.start (.begin (.builtin .branch) args) scope) ⟨w₁, .value .none⟩ := by
  refine hcondition.ends_selected none hvs ?_ .nil
  rw [selectedBranch_singleton, hu]
  rfl

/-- **`cond` with an action to run** has the value of this action. -/
theorem AllYield.ends_choice (pairs : List (Value × Value)) {action : Value}
    (hconditions : AllYield files scope w (pairs.map Prod.fst) w₁ us)
    (hvs : lookupAll scope w.globals (.begin (.builtin .choice) args) args = .ok (inTurn pairs))
    (hcount : args.length = 2 * pairs.length)
    (hchosen : firstAction us (pairs.map Prod.snd) = some action)
    (haction : Yields files scope w₁ action w₂ v) :
    Ends files w (.start (.begin (.builtin .choice) args) scope) ⟨w₂, .value v⟩ := by
  have hpairs : pairs ≠ [] := by
    rintro rfl
    cases us with
    | nil => cases hchosen
    | cons _ _ => cases hchosen
  have hpos : 0 < (pairs.map Prod.snd).length := by
    rw [List.length_map]
    exact List.length_pos_iff.mpr hpairs
  have hends := (choice_form hpos).ends_of_yields ⟨rfl, rfl⟩ (Call.resolveArgs_choice hpairs hvs)
    (by simp) hconditions (by rw [hchosen]; rfl) haction.singleton
  have hlen : us.length = pairs.length := by
    rw [hconditions.argsEnd.length_eq, List.length_map]
  rw [Call.conclude_choice, if_pos (by omega)] at hends
  exact hends

/-- **`let`** has the value of its body in the extended scope. -/
theorem AllYield.ends_let (pairs : List (Value × Value)) {body : Value}
    (hnames : AllYield files scope w (inTurn pairs) w₁ us)
    (hvs : lookupAll scope w.globals (.begin (.builtin .binding) args) args =
      .ok (inTurn pairs ++ [body])) (hpairs : pairs ≠ [])
    (hscope : Call.bindNames scope us = .ok scope') (hbody : Yields files scope' w₁ body w₂ v) :
    Ends files w (.start (.begin (.builtin .binding) args) scope) ⟨w₂, .value v⟩ := by
  have hpos : 0 < 2 * pairs.length := Nat.mul_pos Nat.two_pos (List.length_pos_iff.mpr hpairs)
  have hends := (binding_form hpos).ends_of_yields ⟨rfl, rfl⟩
    (Call.resolveArgs_binding hpairs hvs) (length_inTurn pairs) hnames (by rw [hscope]; rfl)
    hbody.singleton
  rw [Call.conclude_binding] at hends
  exact hends

end Forms

end MiniLisp

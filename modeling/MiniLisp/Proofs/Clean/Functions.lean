import MiniLisp.Proofs.Clean.Basic
import MiniLisp.Proofs.Kinds.Application

/-!
# Functions on clean values

The work of a function on clean arguments leaves clean arguments and a clean scope. A deferred call
is left with no call but the one that it has built. Every function makes a clean value of clean
values. The keys of the global scope are never taken away, and what it binds anew are functions that
have been defined.
-/

namespace MiniLisp

/-! ## Preparing -/

section Prepare

variable {c : Call} {scope globals : Scope} {args : List Value}

/-- A call of a clean function with clean values is clean. -/
theorem Call.begin_clean {fn : Function} (hf : fn.isClean = true)
    (ha : ∀ v ∈ args, v.isClean false = true) : (Call.begin fn args).isClean = true := by
  have hnone : starsLast args = true := by
    clear hf
    induction args with
    | nil => rfl
    | cons v vs ih =>
      have hvs : ∀ u ∈ vs, u.isClean false = true := fun u hu => ha u (List.mem_cons_of_mem v hu)
      rw [starsLast, ih hvs]
      have hall : vs.all (!·.isCall) = true := by
        rw [List.all_eq_true]
        intro u hu
        simp [Value.isCall_eq_false (hvs u hu)]
      rw [hall]
      split <;> rfl
  rw [Call.isClean_iff]
  exact ⟨rfl, rfl, hf, fun v hv => Value.isClean_arg (ha v hv), fun _ => hnone⟩

/-- What the work of a function leaves when `k` of the clean arguments of its call have been
evaluated. The arguments before the last evaluated one are values; behind them calls can stand, in
a deferred call only the one that it has built. -/
structure Prepared.IsClean (p : Prepared) (c : Call) (k : Nat) : Prop where
  fn : p.call.fn = c.fn
  args : p.call.args = c.args
  body : c.fn.isDefining = true → p.call.body.isClean true = true
  scope : Scope.isClean p.scope = true
  clean : ∀ v ∈ p.args, v.isClean true = true
  front : ∀ v ∈ p.args.take (k - 1), v.isCall = false
  built : c.isDeferred = true → ∀ v ∈ p.args.dropLast, v.isCall = false

/-- When a deferred call does its work all its arguments are values, if expansion has moved no call
behind that moment. -/
theorem Call.isCall_of_deferred_ready {k : Nat} (hc : c.isDeferred = true)
    (hdone : ∀ v ∈ args.take k, v.isCall = false)
    (hready : c.canPrepare args ((k : Int) - 1) = true)
    (hlate : ∀ j d, args[j]? = some (.call d) → j < c.args.length) :
    ∀ v ∈ args, v.isCall = false := by
  have hkc : k = c.args.length := by
    rw [Call.canPrepare_deferred hc] at hready
    have := eq_of_beq hready
    omega
  intro v hv
  obtain ⟨j, hj⟩ := List.getElem?_of_mem hv
  by_cases hjk : j < k
  · exact hdone v (List.mem_of_getElem? (by rw [List.getElem?_take_of_lt hjk]; exact hj))
  · cases hv' : v.isCall with
    | false => rfl
    | true =>
      obtain ⟨d, rfl⟩ := Value.eq_call_of_isCall hv'
      have := hlate j d hj
      omega

/-- **What preparing leaves is clean.** `k` arguments have been evaluated; the hypothesis on
deferred calls says that expansion has moved no call behind the moment of preparing. -/
theorem Call.prepare_clean {p : Prepared} {k : Nat} (hfn : c.fn.isClean = true)
    (hs : Scope.isClean scope = true) (hg : Scope.isClean globals = true)
    (ha : ∀ v ∈ args, v.isClean true = true) (hk : k ≤ args.length)
    (hdone : ∀ v ∈ args.take k, v.isCall = false)
    (hready : c.canPrepare args ((k : Int) - 1) = true)
    (hlate : c.isDeferred = true → ∀ j d, args[j]? = some (.call d) → j < c.args.length)
    (h : c.prepare scope globals args = .ok p) : p.IsClean c k := by
  have hvalues : c.isDeferred = true → ∀ v ∈ args, v.isCall = false := fun hc =>
    Call.isCall_of_deferred_ready hc hdone hready (hlate hc)
  have hparts : ∀ d, c.fn = .user d →
      d.body.isClean true = true ∧ ∀ e ∈ d.captures, e.2.isClean false = true := by
    intro d hd
    rw [hd] at hfn
    exact isClean_user_iff.mp hfn
  have hkeeps := isClean_kind.prepare hparts (Scope.isClean_iff.mp hs) (Scope.isClean_iff.mp hg) ha
    hk hdone hready ?_ h
  · refine ⟨hkeeps.fn, hkeeps.written, fun hd => ?_, Scope.isClean_iff.mpr hkeeps.scope,
      hkeeps.args, hkeeps.front, fun hc => ?_⟩
    · rcases hkeeps.body with hbody | ⟨hfalse, -⟩
      · exact hbody
      · rw [hd] at hfalse
        cases hfalse
    · unfold Call.prepare at h
      rw [Call.fn_eq_deferred hc] at h
      obtain ⟨head, us, fn, real, rfl, -, -, rfl⟩ := Call.prepareDeferred_spec h
      intro v hv
      rw [List.dropLast_concat] at hv
      exact hvalues hc v (List.mem_cons_of_mem head hv)
  · intro hc head us fn real hargs hfun hbegin
    rw [Value.isClean_call, Function.eq_of_begin hbegin]
    refine Call.begin_clean hfun fun v hv => ?_
    have hmem : v ∈ args := by
      rw [hargs]
      exact List.mem_cons_of_mem head hv
    exact Value.isClean_value (ha v hmem) (hvalues hc v hmem)

end Prepare

/-! ## Applying -/

/-- What running does to the global scope: it loses no key, and keys are bound to defined functions
only. -/
structure World.Extends (w w' : World) : Prop where
  keys : w.globals.keys <+: w'.globals.keys
  bindings : ∀ e ∈ w'.globals, e ∈ w.globals ∨ ∃ d, e.2 = .function (.user d)

/-- What running from clean things does to the global scope: it is extended and stays clean. -/
structure World.Grows (w w' : World) : Prop extends World.Extends w w' where
  clean : Scope.isClean w.globals = true → Scope.isClean w'.globals = true

section Apply

variable {c : Call} {scope : Scope} {w w' : World} {args : List Value}

theorem World.Extends.of_eq (h : w'.globals = w.globals) : World.Extends w w' := by
  refine ⟨?_, fun e he => Or.inl (h ▸ he)⟩
  have hkeys : w.globals.keys = w'.globals.keys := congrArg Scope.keys h.symm
  exact hkeys ▸ List.prefix_rfl

theorem World.Extends.refl (w : World) : World.Extends w w :=
  .of_eq rfl

theorem World.Extends.trans {w1 w2 w3 : World} (h : World.Extends w1 w2)
    (h' : World.Extends w2 w3) : World.Extends w1 w3 :=
  ⟨h.keys.trans h'.keys, fun e he => (h'.bindings e he).elim (h.bindings e) Or.inr⟩

theorem World.Grows.of_eq (h : w'.globals = w.globals) : World.Grows w w' :=
  ⟨.of_eq h, fun hc => (congrArg Scope.isClean h).trans hc⟩

theorem World.Grows.refl (w : World) : World.Grows w w :=
  .of_eq rfl

theorem World.Grows.trans {w1 w2 w3 : World} (h : World.Grows w1 w2) (h' : World.Grows w2 w3) :
    World.Grows w1 w3 :=
  ⟨h.toExtends.trans h'.toExtends, fun hc => h'.clean (h.clean hc)⟩

/-- Applying a function extends the global scope at most by a definition. -/
theorem Call.apply_extends {r : Except Error Value} (h : c.apply w scope args = (w', r)) :
    World.Extends w w' := by
  rcases Call.apply_cases h with rfl | ⟨text, rfl⟩ | ⟨k, d, globals, -, hi, rfl⟩
  · exact .refl _
  · exact .of_eq rfl
  · refine ⟨Scope.keys_insert hi, fun e he => ?_⟩
    exact (Scope.mem_put (Scope.put_of_insert hi) he).imp_right fun hnew => ⟨d, hnew.1⟩

/-- **Applying a function to clean values** leaves a clean world and, if there is a value, a clean
value. -/
theorem Call.apply_clean {r : Except Error Value} (hs : Scope.isClean scope = true)
    (hg : Scope.isClean w.globals = true)
    (hb : c.fn.isDefining = true → c.body.isClean true = true)
    (ha : ∀ u ∈ args, u.isClean false = true) (h : c.apply w scope args = (w', r)) :
    World.Grows w w' ∧ ∀ v, r = .ok v → v.isClean false = true := by
  obtain ⟨hclean, hv⟩ :=
    isClean_kind.apply (Scope.isClean_iff.mp hs) (Scope.isClean_iff.mp hg) hb ha h
  exact ⟨⟨Call.apply_extends h, fun _ => Scope.isClean_iff.mpr hclean⟩, hv⟩

end Apply

end MiniLisp

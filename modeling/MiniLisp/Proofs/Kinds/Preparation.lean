import MiniLisp.Proofs.Kinds.Basic

/-!
# Preparing calls with arguments of a kind

The work of a function on arguments of a kind leaves arguments and a scope of the kind
(`Kind.prepare`). No call is left before the last evaluated argument, so that going on from there
or from the start is the same.
-/

namespace MiniLisp

/-- Whether a function makes functions, and so sets a body aside. -/
def Function.isDefining : Function → Bool
  | .builtin .define => true
  | .builtin .lambda => true
  | _ => false

/-! ## Choosing among arguments -/

section Choice

variable {c : Call} {args : List Value}

theorem mem_of_mem_everyOther {α : Type} {a : α} {l : List α} (h : a ∈ everyOther l) : a ∈ l := by
  fun_induction everyOther l with
  | case1 => exact h
  | case2 b => exact h
  | case3 b c rest ih =>
    rcases List.mem_cons.mp h with rfl | h
    · exact List.mem_cons_self
    · exact List.mem_cons_of_mem b (List.mem_cons_of_mem c (ih h))

/-- Ordering the arguments adds none. -/
theorem Call.mem_of_mem_sortArgs {v : Value} (h : v ∈ c.sortArgs args) : v ∈ args := by
  unfold Call.sortArgs at h
  split at h
  · rcases List.mem_append.mp h with h | h
    · exact mem_of_mem_everyOther h
    · exact List.mem_of_mem_tail (mem_of_mem_everyOther h)
  · exact h

/-- The order of the arguments of a deferred call does not change. -/
theorem Call.sortArgs_of_isDeferred (h : c.isDeferred = true) : c.sortArgs args = args := by
  unfold Call.isDeferred at h
  unfold Call.sortArgs
  split at h
  · rename_i hfn
    rw [hfn]
  · cases h

theorem mem_of_mem_chooseBranch {args' : List Value} (h : Call.chooseBranch args = .ok args') :
    ∀ v ∈ args', v ∈ args := by
  intro v hv
  unfold Call.chooseBranch at h
  split at h
  · cases h
  · split at h
    · cases h
    · cases h
      exact hv
  · cases h
    split at hv <;> grind
  · cases h
    split at hv <;> grind

theorem mem_of_mem_chooseAction {v : Value} (h : v ∈ Call.chooseAction args) : v ∈ args := by
  unfold Call.chooseAction at h
  dsimp only at h
  split at h
  · rename_i action hf
    rcases List.mem_append.mp h with h | h
    · exact List.mem_of_mem_take h
    · rw [List.mem_singleton.mp h]
      have hz := List.of_mem_zip (List.mem_of_find?_eq_some hf)
      exact List.mem_of_mem_drop hz.2
  · exact List.mem_of_mem_take h

/-- The first arguments that `cond` leaves are its conditions. -/
theorem take_chooseAction {k : Nat} (hk : 2 * k = args.length) :
    ((Call.chooseAction args).take (k - 1)).Subset (args.take k) := by
  have hlen : args.length / 2 = k := by omega
  have hle : k - 1 ≤ (args.take k).length := by
    rw [List.length_take]
    omega
  intro v hv
  unfold Call.chooseAction at hv
  rw [hlen] at hv
  dsimp only at hv
  split at hv
  · rw [List.take_append_of_le_length hle] at hv
    exact List.mem_of_mem_take hv
  · exact List.mem_of_mem_take hv

theorem take_pred_subset_take {α : Type} (l : List α) (k : Nat) :
    (l.take (k - 1)).Subset (l.take k) := by
  intro a h
  exact (List.take_subset_take_left l (Nat.sub_le k 1)) h

end Choice

/-! ## Binding names -/

section Binding

variable {P C : Value → Prop} (hK : Kind P C) {c : Call} {scope globals : Scope}
  {args : List Value}

theorem Scope.All.bindNames {scope' : Scope} (hs : scope.All P) (ha : ∀ v ∈ args, P v)
    (h : Call.bindNames scope args = .ok scope') : scope'.All P := by
  fun_induction Call.bindNames scope args with
  | case1 scope =>
    cases h
    exact hs
  | case2 => cases h
  | case3 scope k v rest e hi => cases h
  | case4 scope k v rest scope1 hi ih =>
    exact ih (hs.insert (ha v (by simp)) hi) (fun u hu => ha u (by simp [hu])) h

include hK

/-- Binding parameters keeps the scope of the kind. -/
theorem Kind.bindParams {scope' : Scope} {args' params : List Value} {i : Nat}
    (hs : scope.All P) (ha : ∀ v ∈ args, P v)
    (h : c.bindParams scope args i params = .ok (scope', args')) : scope'.All P := by
  fun_induction Call.bindParams c scope args i params with
  | case1 =>
    cases h
    exact hs
  | case2 => cases h
  | case3 scope args i param params hp =>
    obtain ⟨s, hi, hs'⟩ := map_eq_ok_iff.mp h
    cases hs'
    refine hs.insert ?_ hi
    rw [hK.tuple]
    exact fun v hv => ha v (List.mem_of_mem_drop hv)
  | case4 => cases h
  | case5 scope args i param params hp v hv s hi ih =>
    exact ih (hs.insert (ha v (List.mem_of_getElem? hv)) hi) ha h
  | case6 => cases h
  | case7 scope args i param params hp hv hc ih =>
    refine ih hs (fun v hm => ?_) h
    rcases List.mem_append.mp hm with hm | hm
    · exact ha v hm
    · rw [List.mem_singleton.mp hm]
      exact hK.atom rfl

theorem Kind.startScope {d : Definition} {scope' : Scope} (hd : Scope.All P d.captures)
    (h : Call.startScope d = .ok scope') : scope'.All P := by
  unfold Call.startScope at h
  split at h
  · exact Scope.All.insert hd (hK.tuple.mpr (by simp)) h
  · cases h
    exact hd

/-- The function that a head stands for is of the kind. -/
theorem Kind.headFunction {head : Value} {fn : Function} (hs : scope.All P) (hg : globals.All P)
    (hh : C head) (h : c.headFunction scope globals head = .ok fn) : P (.function fn) := by
  unfold Call.headFunction at h
  split at h
  · cases h
    exact (hK.arg rfl).mp hh
  · split at h
    · cases h
    · rename_i hl
      cases h
      rcases hK.lookup hs hg hh hl with hv | ⟨-, hv, hcall⟩
      · exact hv
      · rw [← hv] at hcall
        cases hcall
    · dsimp only at h
      split at h <;> cases h

end Binding

/-! ## The work of a function -/

/-- What the work of a function leaves when `k` of the arguments of its call, which are of the kind,
have been evaluated. The arguments before the last evaluated one are values; behind them calls can
stand. -/
structure Prepared.Keeps (P C : Value → Prop) (p : Prepared) (c : Call) (k : Nat) : Prop where
  fn : p.call.fn = c.fn
  written : p.call.args = c.args
  body : C p.call.body ∨ c.fn.isDefining = false ∧ p.call.body = c.body
  scope : p.scope.All P
  args : ∀ v ∈ p.args, C v
  front : ∀ v ∈ p.args.take (k - 1), v.isCall = false

section Prepare

variable {P C : Value → Prop} (hK : Kind P C) {c : Call} {scope globals : Scope}
  {args : List Value} {p : Prepared} {k : Nat}

/-- The call stays as it is and the arguments are those of the call, or fewer. -/
theorem Prepared.keeps_of_subset (hcall : p.call = c) (hfn : c.fn.isDefining = false)
    (hs : p.scope.All P) (ha : ∀ v ∈ args, C v) (hk : ∀ v ∈ args.take k, v.isCall = false)
    (hsub : p.args.Subset args) (htake : (p.args.take (k - 1)).Subset (args.take k)) :
    p.Keeps P C c k := by
  refine ⟨by rw [hcall], by rw [hcall], Or.inr ⟨hfn, by rw [hcall]⟩, hs, ?_, ?_⟩
  · exact fun v hv => ha v (hsub hv)
  · exact fun v hv => hk v (htake hv)

/-- A definition sets its last argument aside. -/
theorem Prepared.keeps_prepareDefinition (hs : scope.All P) (ha : ∀ v ∈ args, C v)
    (hdone : ∀ v ∈ args.take k, v.isCall = false)
    (h : c.prepareDefinition scope args = .ok p) : p.Keeps P C c k := by
  unfold Call.prepareDefinition at h
  cases hl : args.getLast? with
  | none => rw [hl] at h; cases h
  | some body =>
    rw [hl] at h
    cases h
    refine ⟨rfl, rfl, Or.inl (ha body (List.mem_of_getLast? hl)), hs, ?_, ?_⟩
    · exact fun v hv => ha v (List.dropLast_subset args hv)
    · intro v hv
      refine hdone v ?_
      rw [List.dropLast_eq_take, List.take_take] at hv
      exact List.take_subset_take_left args (by omega) hv

include hK

theorem Kind.prepareUser {d : Definition} (hfn : c.fn = .user d)
    (hd : C d.body ∧ ∀ e ∈ d.captures, P e.2) (hk : k ≤ args.length) (ha : ∀ v ∈ args, P v)
    (h : c.prepareUser d args = .ok p) : p.Keeps P C c k := by
  obtain ⟨start, scope, m, hstart, hb, rfl⟩ := Call.prepareUser_spec h
  obtain ⟨hbody, hcaptures⟩ := hd
  have hscope := hK.bindParams (hK.startScope hcaptures hstart) ha hb
  refine ⟨rfl, rfl, Or.inr ⟨by rw [hfn]; rfl, rfl⟩, hscope, ?_, ?_⟩
  · intro v hv
    rcases List.mem_append.mp hv with hv | hv
    · rcases List.mem_append.mp hv with hv | hv
      · exact hK.ofValue (ha v hv)
      · rw [List.eq_of_mem_replicate hv]
        exact hK.ofValue (hK.atom rfl)
    · rw [List.mem_singleton.mp hv]
      exact hbody
  · intro v hv
    rw [List.append_assoc, List.take_append_of_le_length (by omega)] at hv
    exact hK.value (ha v (List.mem_of_mem_take hv))

/-- A deferred call leaves the call that it has built behind its arguments. -/
theorem Kind.prepareDeferred (hfn : c.fn.isDefining = false) (hs : scope.All P)
    (hg : globals.All P) (hk : k ≤ args.length) (ha : ∀ v ∈ args, C v)
    (hdone : ∀ v ∈ args.take k, v.isCall = false)
    (hreal : ∀ head us fn real, args = head :: us → P (.function fn) → fn.begin us = .ok real →
      C (.call real))
    (h : c.prepareDeferred scope globals args = .ok p) : p.Keeps P C c k := by
  obtain ⟨head, us, fn, real, rfl, hf, hb, rfl⟩ := Call.prepareDeferred_spec h
  have hfun : P (.function fn) := hK.headFunction hs hg (ha head List.mem_cons_self) hf
  refine ⟨rfl, rfl, Or.inr ⟨hfn, rfl⟩, hs, ?_, ?_⟩
  · intro v hv
    rcases List.mem_append.mp hv with hv | hv
    · exact ha v (List.mem_cons_of_mem head hv)
    · rw [List.mem_singleton.mp hv]
      exact hreal head us fn real rfl hfun hb
  · -- the head is gone, so that the arguments have moved up by one
    intro v hv
    rw [List.length_cons] at hk
    rw [List.take_append_of_le_length (by omega)] at hv
    cases k with
    | zero => simp at hv
    | succ k => exact hdone v (List.mem_cons_of_mem head hv)

/-- **What the work of a function leaves is of the kind.** `k` arguments have been evaluated. The
parts of a defined function must be of the kind, and so must the call that a deferred call builds.
-/
theorem Kind.prepare (hfn : ∀ d, c.fn = .user d → C d.body ∧ ∀ e ∈ d.captures, P e.2)
    (hs : scope.All P) (hg : globals.All P) (ha : ∀ v ∈ args, C v) (hk : k ≤ args.length)
    (hdone : ∀ v ∈ args.take k, v.isCall = false)
    (hready : c.canPrepare args ((k : Int) - 1) = true)
    (hreal : c.isDeferred = true → ∀ head us fn real, args = head :: us → P (.function fn) →
      fn.begin us = .ok real → C (.call real))
    (h : c.prepare scope globals args = .ok p) : p.Keeps P C c k := by
  unfold Call.canPrepare at hready
  unfold Call.prepare at h
  split at h
  · -- cond
    rename_i hc
    cases h
    rw [hc] at hready
    have h2 : 2 * k = args.length := by
      have := eq_of_beq hready
      omega
    exact Prepared.keeps_of_subset rfl (by rw [hc]; rfl) hs ha hdone
      (fun v => mem_of_mem_chooseAction) (take_chooseAction h2)
  · -- if
    rename_i hc
    rw [hc] at hready
    have h1 : k - 1 = 0 := by
      have := eq_of_beq hready
      omega
    obtain ⟨args', hb, rfl⟩ := map_eq_ok_iff.mp h
    refine Prepared.keeps_of_subset rfl (by rw [hc]; rfl) hs ha hdone
      (fun v => mem_of_mem_chooseBranch hb v) ?_
    rw [h1, List.take_zero]
    exact fun v hv => absurd hv (by simp)
  · -- let
    rename_i hc
    rw [hc] at hready
    have h1 : args.dropLast.Subset (args.take k) := by
      have := eq_of_beq hready
      rw [List.dropLast_eq_take]
      exact List.take_subset_take_left args (by omega)
    obtain ⟨scope', hb, rfl⟩ := map_eq_ok_iff.mp h
    refine Prepared.keeps_of_subset rfl (by rw [hc]; rfl) ?_ ha hdone (fun v hv => hv)
      (take_pred_subset_take args k)
    refine hs.bindNames (fun v hv => ?_) hb
    exact (hK.arg (hdone v (h1 hv))).mp (ha v (List.dropLast_subset args hv))
  · exact Prepared.keeps_prepareDefinition hs ha hdone h
  · exact Prepared.keeps_prepareDefinition hs ha hdone h
  · -- a deferred call
    rename_i hc
    exact hK.prepareDeferred (by rw [hc]; rfl) hs hg hk ha hdone
      (hreal (by rw [Call.isDeferred, hc])) h
  · cases h
  · -- import
    rename_i hc
    split at h
    · cases h
    · cases h
      exact ⟨rfl, rfl, Or.inr ⟨by rw [hc]; rfl, rfl⟩, hs, by simp, by simp⟩
    · cases h
  · -- the other builtins
    rename_i b _ _ _ _ _ _ _ _ hc
    cases h
    refine Prepared.keeps_of_subset rfl ?_ hs ha hdone (fun v hv => hv)
      (take_pred_subset_take args k)
    rw [hc]
    unfold Function.isDefining
    split <;> simp_all
  · -- a defined function
    rename_i d hc
    rw [hc] at hready
    have hkl : k = args.length := by
      have := of_decide_eq_true hready
      omega
    refine hK.prepareUser hc (hfn d hc) hk ?_ h
    intro v hv
    refine (hK.arg (hdone v ?_)).mp (ha v hv)
    rw [hkl, List.take_length]
    exact hv

end Prepare

end MiniLisp

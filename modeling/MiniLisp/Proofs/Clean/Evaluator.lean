import MiniLisp.Proofs.Clean.Functions

/-!
# Evaluation keeps to clean values

What is read from a text is clean, as long as no deferred call in the text has a call behind a star
(`readCall_clean`). From this and from the lemmas on looking up, preparing and applying it follows
that the evaluator makes clean values of clean calls, and leaves a clean world (`keepsClean`).
-/

namespace MiniLisp

/-! ## Reading -/

mutual

/-- Whether no deferred call of an expression has a call behind a star. -/
def Value.isOrderly : Value → Bool
  | .call c => c.isOrderly
  | _ => true

/-- Whether no deferred call among several expressions has a call behind a star. -/
def Value.allOrderly : List Value → Bool
  | [] => true
  | v :: vs => v.isOrderly && Value.allOrderly vs

/-- Whether neither a call nor a call inside it is deferred and has a call behind a star. -/
def Call.isOrderly : Call → Bool
  | ⟨fn, args, resolved, prepared, body⟩ =>
    (!(Call.mk fn args resolved prepared body).isDeferred || starsLast args) &&
      Value.allOrderly args

end

theorem allOrderly_iff {vs : List Value} :
    Value.allOrderly vs = true ↔ ∀ v ∈ vs, v.isOrderly = true := by
  induction vs with
  | nil => simp [Value.allOrderly]
  | cons v vs ih => simp [Value.allOrderly, ih]

/-- A call is orderly if no call stands behind a star it defers, and its parts are orderly. -/
theorem Call.isOrderly_iff (c : Call) :
    c.isOrderly = true ↔
      (c.isDeferred = true → starsLast c.args = true) ∧ ∀ v ∈ c.args, v.isOrderly = true := by
  obtain ⟨fn, args, resolved, prepared, body⟩ := c
  rw [Call.isOrderly, ← allOrderly_iff]
  cases hd : (Call.mk fn args resolved prepared body).isDeferred <;> simp

/-- An orderly call of a clean function is clean if its arguments are clean once they are
orderly. -/
theorem Call.begin_clean_of_isOrderly {fn : Function} {args : List Value}
    (hf : fn.isClean = true) (ha : ∀ v ∈ args, v.isOrderly = true → v.isClean true = true)
    (ho : (Call.begin fn args).isOrderly = true) : (Call.begin fn args).isClean = true := by
  rw [Call.isOrderly_iff] at ho
  rw [Call.isClean_iff]
  exact ⟨rfl, rfl, hf, fun v hv => ha v hv (ho.2 v hv), ho.1⟩

/-- An orderly call made of clean parts is clean. -/
theorem makeCall_clean {globals : Scope} {head : Value} {args : List Value} {c : Call}
    (hg : Scope.isClean globals = true)
    (ha : ∀ v ∈ head :: args, v.isOrderly = true → v.isClean true = true)
    (h : makeCall globals head args = .ok c) (ho : c.isOrderly = true) : c.isClean = true := by
  unfold makeCall at h
  split at h
  · cases h
  · cases h
    exact Call.begin_clean_of_isOrderly rfl ha ho
  · rename_i fn hf
    rw [Function.eq_of_begin h] at ho ⊢
    exact Call.begin_clean_of_isOrderly (Function.isClean_of_find? hg hf)
      (fun v hv => ha v (List.mem_cons_of_mem head hv)) ho
  · cases h

theorem Token.read_value_clean (cs : List Char) : (Token.read cs).value.isClean true = true := by
  unfold Token.read
  split <;> rfl

/-- **What is read is clean**, provided that no deferred call in it has a call behind a star. -/
theorem readCall_clean {globals : Scope} {cs rest : List Char} {c : Call}
    (hg : Scope.isClean globals = true) (h : readCall globals cs = .ok (c, rest))
    (ho : c.isOrderly = true) : c.isClean = true := by
  rw [← Value.isClean_call]
  refine prop_of_readCall (C := fun v => v.isOrderly = true → v.isClean true = true)
    (fun cs _ => Token.read_value_clean cs) (fun head args c ha hc ho => ?_) h ho
  rw [Value.isClean_call]
  exact makeCall_clean hg ha hc ho

/-! ## Files -/

/-- The blocks that are read when a text is evaluated in a world. Which calls of a block are
deferred depends on what the blocks before it have bound. -/
inductive Block (files : Files) : World → List Char → Call → Prop where
  | first {w : World} {cs rest : List Char} {c : Call}
      (h : readCall w.globals cs = .ok (c, rest)) : Block files w cs c
  | later {w w' : World} {cs rest : List Char} {c d : Call} {v : Value}
      (h : readCall w.globals cs = .ok (d, rest))
      (hd : Evaluates files w.startBlock [] d ⟨w', .value v⟩) (hb : Block files w' rest c) :
      Block files w cs c

/-- In no file does a deferred call have a call behind a star, whatever is defined from the world
`w` on until the file is imported. -/
def Files.Orderly (files : Files) (w : World) : Prop :=
  ∀ path text, files.read? path = some text → ∀ w', World.Grows w w' →
    ∀ c, Block files w' (Source.normalise text) c → c.isOrderly = true

/-- Files that are orderly for a world are orderly for every world grown from it. -/
theorem Files.Orderly.grow {files : Files} {w w' : World} (h : files.Orderly w)
    (hg : World.Grows w w') : files.Orderly w' :=
  fun path text ht w'' hg' => h path text ht w'' (hg.trans hg')

/-! ## States of an evaluation -/

/-- All that a world holds is clean, and so are the files that can be imported in it. -/
structure World.IsClean (files : Files) (w : World) : Prop where
  globals : Scope.isClean w.globals = true
  files : files.Orderly w

theorem World.IsClean.grow {files : Files} {w w' : World} (h : w.IsClean files)
    (hg : World.Grows w w') : w'.IsClean files :=
  ⟨hg.clean h.globals, h.files.grow hg⟩

theorem World.grows_startBlock (w : World) : World.Grows w w.startBlock :=
  .of_eq rfl

/-- The arguments of a call whose function has not done its work: the evaluated ones `done` are
clean values, and calls stand among the others, `todo`, where a deferred call evaluates them in
time. -/
structure Call.Pending (c : Call) (done todo : List Value) : Prop where
  fn : c.fn.isClean = true
  notDefining : c.fn.isDefining = false
  values : ∀ v ∈ done, v.isClean false = true
  args : ∀ v ∈ todo, v.isClean true = true
  late : c.isDeferred = true → ∀ j d, (done ++ todo)[j]? = some (.call d) → j < c.args.length

/-- The arguments of a call whose function has done its work: a deferred call has none left to run
but the call that it has built. -/
structure Call.Settling (c : Call) (done todo : List Value) : Prop where
  body : c.fn.isDefining = true → c.body.isClean true = true
  values : ∀ v ∈ done, v.isClean false = true
  args : ∀ v ∈ todo, v.isClean true = true
  built : c.isDeferred = true → ∀ v ∈ (done ++ todo).dropLast, v.isCall = false

section Pending

variable {c : Call} {done todo : List Value} {v : Value}

theorem mem_snoc_clean {arg : Bool} (h : ∀ u ∈ done, u.isClean arg = true)
    (hv : v.isClean arg = true) : ∀ u ∈ done ++ [v], u.isClean arg = true := by
  intro u hu
  rcases List.mem_append.mp hu with hu | hu
  · exact h u hu
  · rw [List.mem_singleton.mp hu]
    exact hv

theorem Call.Pending.isClean_call {d : Call} (h : c.Pending done (.call d :: todo)) :
    d.isClean = true := by
  rw [← Value.isClean_call]
  exact h.args _ List.mem_cons_self

theorem Call.Settling.isClean_call {d : Call} (h : c.Settling done (.call d :: todo)) :
    d.isClean = true := by
  rw [← Value.isClean_call]
  exact h.args _ List.mem_cons_self

/-- The value of the first argument takes its place. -/
theorem Call.Pending.replace {arg : Value} (h : c.Pending done (arg :: todo))
    (hv : v.isClean false = true) : c.Pending done (v :: todo) := by
  refine ⟨h.fn, h.notDefining, h.values, ?_, fun hd j d hj => ?_⟩
  · intro u hu
    rcases List.mem_cons.mp hu with rfl | hu
    · exact Value.isClean_arg hv
    · exact h.args u (List.mem_cons_of_mem arg hu)
  · -- a call stands before or behind the place of the value
    refine h.late hd j d ?_
    by_cases hjd : j < done.length
    · rw [List.getElem?_append_left hjd] at hj ⊢
      exact hj
    · rw [List.getElem?_append_right (by omega)] at hj ⊢
      cases hk : j - done.length with
      | zero =>
        rw [hk, List.getElem?_cons_zero] at hj
        cases hj
        cases Value.isCall_eq_false hv
      | succ k =>
        rw [hk, List.getElem?_cons_succ] at hj
        rw [List.getElem?_cons_succ]
        exact hj

/-- A value counts as evaluated. -/
theorem Call.Pending.pass (h : c.Pending done (v :: todo)) (hv : v.isCall = false) :
    c.Pending (done ++ [v]) todo := by
  refine ⟨h.fn, h.notDefining, mem_snoc_clean h.values ?_, ?_, ?_⟩
  · exact Value.isClean_value (h.args v List.mem_cons_self) hv
  · exact fun u hu => h.args u (List.mem_cons_of_mem v hu)
  · rw [List.append_assoc, List.singleton_append]
    exact h.late

/-- The value of an argument takes the place of the argument. -/
theorem Call.Settling.replace {arg : Value} (h : c.Settling done (arg :: todo))
    (hv : v.isClean false = true) : c.Settling done (v :: todo) := by
  refine ⟨h.body, h.values, fun u hu => ?_, fun hd u hu => ?_⟩
  · rcases List.mem_cons.mp hu with rfl | hu
    · exact Value.isClean_arg hv
    · exact h.args u (List.mem_cons_of_mem arg hu)
  · have hbuilt := h.built hd
    rw [List.dropLast_append_of_ne_nil (by simp)] at hbuilt hu
    cases todo with
    | nil => exact hbuilt u (by simpa using hu)
    | cons b todo =>
      rw [List.dropLast_cons_cons] at hbuilt hu
      rcases List.mem_append.mp hu with hu | hu
      · exact hbuilt u (List.mem_append_left _ hu)
      · rcases List.mem_cons.mp hu with rfl | hu
        · exact Value.isCall_eq_false hv
        · exact hbuilt u (List.mem_append_right _ (List.mem_cons_of_mem arg hu))

/-- An argument that is no call is done with as it stands. -/
theorem Call.Settling.pass (h : c.Settling done (v :: todo)) (hv : v.isCall = false) :
    c.Settling (done ++ [v]) todo := by
  refine ⟨h.body, mem_snoc_clean h.values ?_, ?_, ?_⟩
  · exact Value.isClean_value (h.args v List.mem_cons_self) hv
  · exact fun u hu => h.args u (List.mem_cons_of_mem v hu)
  · rw [List.append_assoc, List.singleton_append]
    exact h.built

/-- A call that has run out of arguments before its function did its work. -/
theorem Call.Pending.settling (h : c.Pending done []) : c.Settling done [] := by
  refine ⟨by simp [h.notDefining], h.values, h.args, fun _ v hv => ?_⟩
  rw [List.append_nil] at hv
  exact Value.isCall_eq_false (h.values v (List.dropLast_subset done hv))

/-- The work of a function whose arguments are pending. -/
theorem Call.Pending.prepare {scope globals : Scope} {p : Prepared}
    (h : c.Pending done (v :: todo)) (hv : v.isCall = false) (hs : Scope.isClean scope = true)
    (hg : Scope.isClean globals = true)
    (hready : c.canPrepare (done ++ v :: todo) done.length = true)
    (hp : c.prepare scope globals (done ++ v :: todo) = .ok p) :
    p.IsClean c (done.length + 1) := by
  refine Call.prepare_clean h.fn hs hg ?_ ?_ ?_ ?_ h.late hp
  · intro u hu
    rcases List.mem_append.mp hu with hu | hu
    · exact Value.isClean_arg (h.values u hu)
    · exact h.args u hu
  · rw [List.length_append, List.length_cons]
    omega
  · intro u hu
    have htake : (done ++ v :: todo).take (done.length + 1) = done ++ [v] := by
      rw [List.take_append, List.take_of_length_le (by omega)]
      simp
    rw [htake] at hu
    rcases List.mem_append.mp hu with hu | hu
    · exact Value.isCall_eq_false (h.values u hu)
    · rw [List.mem_singleton.mp hu]
      exact hv
  · have hcast : ((done.length + 1 : Nat) : Int) - 1 = done.length := by omega
    rw [hcast]
    exact hready

theorem Prepared.IsClean.settling {p : Prepared} {k : Nat} (h : p.IsClean c k) :
    p.call.Settling [] p.args := by
  refine ⟨fun hd => h.body (by rw [← h.fn]; exact hd), by simp, h.clean, fun hd => h.built ?_⟩
  rw [Call.isDeferred, ← h.fn]
  exact hd

/-- The arguments of a clean call once they are looked up. -/
theorem Call.resolveArgs_clean {scope globals : Scope} {args : List Value} (hc : c.isClean = true)
    (hs : Scope.isClean scope = true) (hg : Scope.isClean globals = true)
    (h : c.resolveArgs scope globals = .ok args) :
    (∀ v ∈ args, v.isClean true = true) ∧
      (c.isDeferred = true → ∀ j d, args[j]? = some (.call d) → j < c.args.length) := by
  rw [Call.isClean_iff] at hc
  obtain ⟨-, -, -, hargs, hstars⟩ := hc
  obtain ⟨vs, hl, rfl, -⟩ := Call.resolveArgs_spec h
  refine ⟨fun v hv => ?_, fun hd j d hj => ?_⟩
  · exact (lookupAll_clean hs hg hargs hl v (Call.mem_of_mem_sortArgs hv)).1
  · rw [Call.sortArgs_of_isDeferred hd] at hj
    exact lookupAll_call_lt hs hg hargs (hstars hd) hl hj

/-- A function that makes functions does its work at once. -/
theorem Call.isDefining_eq_false {args : List Value} (h : c.canPrepare args (-1) = false) :
    c.fn.isDefining = false := by
  cases hd : c.fn.isDefining with
  | false => rfl
  | true =>
    unfold Function.isDefining at hd
    unfold Call.canPrepare at h
    split at hd <;> simp_all

/-- A clean call that cannot be prepared yet waits for its arguments. -/
theorem Call.pending_of_resolveArgs {scope globals : Scope} {args : List Value}
    (hc : c.isClean = true) (hs : Scope.isClean scope = true) (hg : Scope.isClean globals = true)
    (h : c.resolveArgs scope globals = .ok args) (hp : c.canPrepare args (-1) = false) :
    c.Pending [] args := by
  obtain ⟨hargs, hlate⟩ := Call.resolveArgs_clean hc hs hg h
  exact ⟨((Call.isClean_iff c).mp hc).2.2.1, Call.isDefining_eq_false hp, by simp, hargs, hlate⟩

/-- A function that does its work before any argument is evaluated. -/
theorem Call.prepare_clean_of_resolveArgs {scope globals : Scope} {args : List Value}
    {p : Prepared} (hc : c.isClean = true) (hs : Scope.isClean scope = true)
    (hg : Scope.isClean globals = true) (h : c.resolveArgs scope globals = .ok args)
    (hready : c.canPrepare args (-1) = true) (hp : c.prepare scope globals args = .ok p) :
    p.IsClean c 0 := by
  obtain ⟨hargs, hlate⟩ := Call.resolveArgs_clean hc hs hg h
  exact Call.prepare_clean ((Call.isClean_iff c).mp hc).2.2.1 hs hg hargs (Nat.zero_le _) (by simp)
    hready hlate hp

end Pending

/-! ## Evaluation -/

/-- If an outcome is a value then it is clean, and the world has only grown. -/
def Outcome.IsClean (w : World) (o : Outcome) : Prop :=
  ∀ w' v, o = ⟨w', .value v⟩ → World.Grows w w' ∧ v.isClean false = true

section Outcomes

variable {w w' : World} {o : Outcome}

theorem Outcome.isClean_failed (e : Error) : Outcome.IsClean w ⟨w', .failed e⟩ := by
  intro w1 v h
  cases h

theorem Outcome.isClean_outOfFuel : Outcome.IsClean w ⟨w', .outOfFuel⟩ := by
  intro w1 v h
  cases h

theorem Outcome.isClean_value {v : Value} (hv : v.isClean false = true) :
    Outcome.IsClean w ⟨w, .value v⟩ := by
  intro w1 u h
  cases h
  exact ⟨.refl w, hv⟩

/-- Clean outcomes compose. -/
theorem Outcome.IsClean.andThen {k : World → Value → Outcome} (ho : Outcome.IsClean w o)
    (hk : ∀ w' v, o = ⟨w', .value v⟩ → World.Grows w w' → v.isClean false = true →
      Outcome.IsClean w' (k w' v)) : Outcome.IsClean w (o.andThen k) := by
  obtain ⟨w1, r⟩ := o
  cases r with
  | value v =>
    obtain ⟨hg, hv⟩ := ho w1 v rfl
    intro w2 u h
    obtain ⟨hg', hu⟩ := hk w1 v rfl hg hv w2 u h
    exact ⟨hg.trans hg', hu⟩
  | failed e => exact Outcome.isClean_failed e
  | outOfFuel => exact Outcome.isClean_outOfFuel

/-- Applying a function whose arguments are settled. -/
theorem Call.Settling.conclude {c : Call} {scope : Scope} {done : List Value}
    (h : c.Settling done []) (hs : Scope.isClean scope = true)
    (hg : Scope.isClean w.globals = true) : Outcome.IsClean w (c.conclude w scope done) := by
  unfold Call.conclude
  split
  · exact Outcome.isClean_failed _
  · rcases ha : c.apply w scope done with ⟨w1, r⟩
    obtain ⟨hgrow, hv⟩ := Call.apply_clean hs hg h.body h.values ha
    intro w2 v hr
    cases r with
    | error e => cases hr
    | ok u =>
      cases hr
      exact ⟨hgrow, hv v rfl⟩

end Outcomes

/-- What the evaluator comes to with the fuel `n` is clean if it starts from clean things. -/
structure KeepsClean (files : Files) (n : Nat) : Prop where
  call : ∀ {w scope c}, w.IsClean files → Scope.isClean scope = true → c.isClean = true →
    Outcome.IsClean w (evalCall files n w scope c)
  pending : ∀ {w scope c done todo}, w.IsClean files → Scope.isClean scope = true →
    c.Pending done todo → Outcome.IsClean w (evalUntil files n w scope c done todo)
  prepared : ∀ {w scope c args k}, w.IsClean files →
    (∀ p, c.prepare scope w.globals args = .ok p → p.IsClean c k) →
      Outcome.IsClean w (evalPrepared files n w scope c args)
  settling : ∀ {w scope c done todo}, w.IsClean files → Scope.isClean scope = true →
    c.Settling done todo → Outcome.IsClean w (evalRest files n w scope c done todo)
  blocks : ∀ {w last cs}, w.IsClean files → last.isClean false = true →
    (∀ c, Block files w cs c → c.isOrderly = true) →
      Outcome.IsClean w (evalBlocks files n w last cs)

/-- Without fuel nothing is evaluated. -/
theorem KeepsClean.zero (files : Files) : KeepsClean files 0 := by
  refine ⟨?_, ?_, ?_, ?_, ?_⟩
  · intro w scope c _ _ _; rw [evalCall_zero]; exact Outcome.isClean_outOfFuel
  · intro w scope c done todo _ _ _; rw [evalUntil_zero]; exact Outcome.isClean_outOfFuel
  · intro w scope c args k _ _; rw [evalPrepared_zero]; exact Outcome.isClean_outOfFuel
  · intro w scope c done todo _ _ _; rw [evalRest_zero]; exact Outcome.isClean_outOfFuel
  · intro w last cs _ _ _; rw [evalBlocks_zero]; exact Outcome.isClean_outOfFuel

namespace KeepsClean

variable {files : Files} {n : Nat} {w : World} {scope : Scope} {c : Call} {done todo : List Value}
  (ih : KeepsClean files n)
include ih

theorem arg {v : Value} (hw : w.IsClean files) (hs : Scope.isClean scope = true)
    (hv : v.isClean true = true) :
    Outcome.IsClean w (evalArg (fun d => evalCall files n w scope d) w v) := by
  cases v with
  | call d =>
    rw [Value.isClean_call] at hv
    exact ih.call hw hs hv
  | _ => exact Outcome.isClean_value (Value.isClean_value hv rfl)

theorem call_succ (hw : w.IsClean files) (hs : Scope.isClean scope = true)
    (hc : c.isClean = true) : Outcome.IsClean w (evalCall files (n + 1) w scope c) := by
  cases hr : c.resolveArgs scope w.globals with
  | error e =>
    rw [evalCall_succ_error hr]
    exact Outcome.isClean_failed e
  | ok args =>
    cases hp : c.canPrepare args (-1) with
    | true =>
      rw [evalCall_succ_ready hr hp]
      exact ih.prepared hw fun p => Call.prepare_clean_of_resolveArgs hc hs hw.globals hr hp
    | false =>
      rw [evalCall_succ_until hr hp]
      exact ih.pending hw hs (Call.pending_of_resolveArgs hc hs hw.globals hr hp)

theorem pending_succ (hw : w.IsClean files) (hs : Scope.isClean scope = true)
    (hc : c.Pending done todo) :
    Outcome.IsClean w (evalUntil files (n + 1) w scope c done todo) := by
  cases todo with
  | nil =>
    rw [evalUntil_succ_nil]
    exact hc.settling.conclude hs hw.globals
  | cons arg todo =>
    rw [evalUntil_succ_cons]
    refine (ih.arg hw hs (hc.args arg List.mem_cons_self)).andThen fun w1 v _ hgrow hv => ?_
    have hw1 := hw.grow hgrow
    have hc1 := hc.replace hv
    have hv1 := Value.isCall_eq_false hv
    split
    · rename_i hp
      exact ih.prepared hw1 fun p => hc1.prepare hv1 hs hw1.globals hp
    · exact ih.pending hw1 hs (hc1.pass hv1)

theorem prepared_succ {args : List Value} {k : Nat} (hw : w.IsClean files)
    (hc : ∀ p, c.prepare scope w.globals args = .ok p → p.IsClean c k) :
    Outcome.IsClean w (evalPrepared files (n + 1) w scope c args) := by
  cases hp : c.prepare scope w.globals args with
  | error e =>
    rw [evalPrepared_succ_error hp]
    exact Outcome.isClean_failed e
  | ok p =>
    have hclean := hc p hp
    cases hl : p.load with
    | none =>
      rw [evalPrepared_succ_ok hp hl]
      exact ih.settling hw hclean.scope hclean.settling
    | some path =>
      cases ht : files.read? path with
      | none =>
        rw [evalPrepared_succ_missing hp hl ht]
        exact Outcome.isClean_failed _
      | some text =>
        -- the blocks of an imported file leave a world that has grown
        rw [evalPrepared_succ_load hp hl ht]
        refine (ih.blocks hw rfl (hw.files path text ht w (.refl w))).andThen
          fun w1 v _ hgrow _ => ?_
        exact ih.settling (hw.grow hgrow) hclean.scope hclean.settling

theorem settling_succ (hw : w.IsClean files) (hs : Scope.isClean scope = true)
    (hc : c.Settling done todo) :
    Outcome.IsClean w (evalRest files (n + 1) w scope c done todo) := by
  cases todo with
  | nil =>
    rw [evalRest_succ_nil]
    exact hc.conclude hs hw.globals
  | cons arg todo =>
    rw [evalRest_succ_cons]
    refine (ih.arg hw hs (hc.args arg List.mem_cons_self)).andThen fun w1 v _ hgrow hv => ?_
    exact ih.settling (hw.grow hgrow) hs ((hc.replace hv).pass (Value.isCall_eq_false hv))

theorem blocks_succ {last : Value} {cs : List Char} (hw : w.IsClean files)
    (hl : last.isClean false = true) (hcs : ∀ c, Block files w cs c → c.isOrderly = true) :
    Outcome.IsClean w (evalBlocks files (n + 1) w last cs) := by
  cases cs with
  | nil =>
    rw [evalBlocks_succ_nil]
    exact Outcome.isClean_value hl
  | cons x cs =>
    cases hr : readCall w.globals (x :: cs) with
    | error e =>
      rw [evalBlocks_succ_error (by simp) hr]
      exact Outcome.isClean_failed e
    | ok r =>
      obtain ⟨d, rest⟩ := r
      rw [evalBlocks_succ_ok (by simp) hr]
      have hd : d.isClean = true := readCall_clean hw.globals hr (hcs d (.first hr))
      have hstart := World.grows_startBlock w
      -- the other blocks are read in the world that the first leaves
      have hrest : ∀ w1 v, evalCall files n w.startBlock [] d = ⟨w1, .value v⟩ →
          World.Grows w.startBlock w1 → v.isClean false = true →
            Outcome.IsClean w1 (evalBlocks files n w1 v rest) := by
        intro w1 v hend hgrow hv
        exact ih.blocks ((hw.grow hstart).grow hgrow) hv fun c hc =>
          hcs c (.later hr ⟨rfl, n, hend⟩ hc)
      intro w2 v h
      obtain ⟨hgrow, hv⟩ := (ih.call (hw.grow hstart) rfl hd).andThen hrest w2 v h
      exact ⟨hstart.trans hgrow, hv⟩

theorem succ : KeepsClean files (n + 1) :=
  ⟨ih.call_succ, ih.pending_succ, ih.prepared_succ, ih.settling_succ, ih.blocks_succ⟩

end KeepsClean

/-- **Evaluation keeps to clean values.** -/
theorem keepsClean (files : Files) (n : Nat) : KeepsClean files n := by
  induction n with
  | zero => exact .zero files
  | succ n ih => exact ih.succ

/-- The value of a clean call is clean, and the world has only grown. -/
theorem Evaluates.clean {files : Files} {w w' : World} {scope : Scope} {c : Call} {v : Value}
    (h : Evaluates files w scope c ⟨w', .value v⟩) (hw : w.IsClean files)
    (hs : Scope.isClean scope = true) (hc : c.isClean = true) :
    World.Grows w w' ∧ v.isClean false = true := by
  obtain ⟨-, n, hn⟩ := h
  exact (keepsClean files n).call hw hs hc w' v hn

/-- The value of an orderly text is clean, and the world has only grown. -/
theorem BlocksEvaluate.clean {files : Files} {w w' : World} {last v : Value} {cs : List Char}
    (h : BlocksEvaluate files w last cs ⟨w', .value v⟩) (hw : w.IsClean files)
    (hl : last.isClean false = true) (hcs : ∀ c, Block files w cs c → c.isOrderly = true) :
    World.Grows w w' ∧ v.isClean false = true := by
  obtain ⟨-, n, hn⟩ := h
  exact (keepsClean files n).blocks hw hl hcs w' v hn

end MiniLisp

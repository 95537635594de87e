import MiniLisp.Proofs.Invocation
import MiniLisp.Proofs.Soundness

/-!
# Running the body of a function

A call of a defined function evaluates its arguments and then runs the body of the function
(`ends_user_iff_runs`). What the body is run with are the values of the arguments themselves, also
if these are symbols. A function that is invoked by a deferred call gets them looked up once more
(`invokes_user_iff_runs`). In both cases what is run depends on the function and the values only,
not on the scope of the call (`Definition.Runs`).
-/

namespace MiniLisp

/-! ## Values of arguments -/

/-- Evaluating an argument in a scope ends with an outcome. -/
def ArgEnds (files : Files) (scope : Scope) (w : World) : Value → Outcome → Prop
  | .call c, o => Ends files w (.start c scope) o
  | v, o => o = ⟨w, .value v⟩

/-- Evaluating arguments one after the other ends with values and a world. -/
inductive ArgsEnd (files : Files) (scope : Scope) :
    World → List Value → World → List Value → Prop where
  | nil {w : World} : ArgsEnd files scope w [] w []
  | cons {w w' w'' : World} {v u : Value} {vs us : List Value}
      (hv : ArgEnds files scope w v ⟨w', .value u⟩) (hvs : ArgsEnd files scope w' vs w'' us) :
      ArgsEnd files scope w (v :: vs) w'' (u :: us)

section Arguments

variable {files : Files} {scope : Scope} {w w' : World} {v : Value} {us vs : List Value}
  {o o' : Outcome} {k k' : World → List Value → Outcome → Prop}

theorem argEnds_value (hv : v.isCall = false) :
    ArgEnds files scope w v o ↔ o = ⟨w, .value v⟩ := by
  cases v with
  | call c => cases hv
  | _ => exact Iff.rfl

theorem ArgEnds.unique (h : ArgEnds files scope w v o) (h' : ArgEnds files scope w v o') :
    o = o' := by
  cases hv : v.isCall with
  | false =>
    rw [argEnds_value hv] at h h'
    rw [h, h']
  | true =>
    obtain ⟨c, rfl⟩ := Value.eq_call_of_isCall hv
    exact Ends.unique h h'

theorem argsEnd_values (hvs : ∀ v ∈ vs, v.isCall = false) :
    ArgsEnd files scope w vs w' us ↔ w' = w ∧ us = vs := by
  induction vs generalizing us with
  | nil =>
    constructor
    · rintro ⟨⟩
      exact ⟨rfl, rfl⟩
    · rintro ⟨rfl, rfl⟩
      exact .nil
  | cons v vs ih =>
    rw [List.forall_mem_cons] at hvs
    constructor
    · intro h
      cases h with
      | cons hv hrest =>
        cases (argEnds_value hvs.1).mp hv
        obtain ⟨rfl, rfl⟩ := (ih hvs.2).mp hrest
        exact ⟨rfl, rfl⟩
    · rintro ⟨rfl, rfl⟩
      exact .cons ((argEnds_value hvs.1).mpr rfl) ((ih hvs.2).mpr ⟨rfl, rfl⟩)

/-- Evaluating an argument and what comes after it. -/
theorem afterArgs_cons :
    AfterArgs files scope w (v :: vs) k o ↔
      (∃ w' e, o = ⟨w', .failed e⟩ ∧ ArgEnds files scope w v o) ∨
        ∃ w' u, ArgEnds files scope w v ⟨w', .value u⟩ ∧
          AfterArgs files scope w' vs (fun w us => k w (u :: us)) o := by
  cases hv : v.isCall with
  | false =>
    simp only [afterArgs_value hv, argEnds_value hv]
    constructor
    · exact fun h => Or.inr ⟨w, v, rfl, h⟩
    · rintro (⟨w', e, rfl, h⟩ | ⟨w', u, h, hrest⟩)
      · cases h
      · cases h
        exact hrest
  | true =>
    obtain ⟨c, rfl⟩ := Value.eq_call_of_isCall hv
    exact afterArgs_call

/-- Evaluating one argument and going on with its value. -/
theorem afterArgs_singleton (hk : ∀ w v, k w [v] o ↔ o = ⟨w, .value v⟩) :
    AfterArgs files scope w [v] k o ↔ ArgEnds files scope w v o := by
  rw [afterArgs_cons]
  simp only [afterArgs_nil, hk]
  constructor
  · rintro (⟨w', e, -, hends⟩ | ⟨w', u, hends, rfl⟩)
    · exact hends
    · exact hends
  · intro hends
    obtain ⟨w', u | e | _⟩ := o
    · exact .inr ⟨w', u, hends, rfl⟩
    · exact .inl ⟨w', e, rfl, hends⟩
    · cases hv : v.isCall with
      | false => cases (argEnds_value hv).mp hends
      | true =>
        obtain ⟨c, rfl⟩ := Value.eq_call_of_isCall hv
        exact absurd hends.1 Bool.false_ne_true

/-- What ends with a value has evaluated its arguments. -/
theorem AfterArgs.argsEnd (h : AfterArgs files scope w vs k ⟨w', .value v⟩) :
    ∃ w'' us, ArgsEnd files scope w vs w'' us ∧ k w'' us ⟨w', .value v⟩ := by
  induction vs generalizing w k with
  | nil => exact ⟨w, [], .nil, afterArgs_nil.mp h⟩
  | cons a vs ih =>
    rcases afterArgs_cons.mp h with ⟨w'', e, he, -⟩ | ⟨w'', u, hu, hrest⟩
    · cases he
    · obtain ⟨w₂, us, hus, hk⟩ := ih hrest
      exact ⟨w₂, u :: us, .cons hu hus, hk⟩

/-- Where the arguments have values, what comes after them goes on with these. -/
theorem ArgsEnd.afterArgs_iff (h : ArgsEnd files scope w vs w' us) :
    AfterArgs files scope w vs k o ↔ k w' us o := by
  induction h generalizing k with
  | nil => exact afterArgs_nil
  | @cons w₀ w₁ _ a u rest us hv _ ih =>
    rw [afterArgs_cons, ← ih (k := fun w us => k w (u :: us))]
    constructor
    · rintro (⟨w₂, e, rfl, he⟩ | ⟨w₂, u', hu', hrest⟩)
      · cases hv.unique he
      · cases hv.unique hu'
        exact hrest
    · exact fun hrest => Or.inr ⟨w₁, u, hv, hrest⟩

theorem ArgsEnd.unique {w'' : World} {us' : List Value} (h : ArgsEnd files scope w vs w' us)
    (h' : ArgsEnd files scope w vs w'' us') : w' = w'' ∧ us = us' := by
  induction h generalizing w'' us' with
  | nil =>
    cases h'
    exact ⟨rfl, rfl⟩
  | cons hv _ ih =>
    cases h' with
    | cons hv' hvs' =>
      cases hv.unique hv'
      obtain ⟨rfl, rfl⟩ := ih hvs'
      exact ⟨rfl, rfl⟩

theorem ArgsEnd.length_eq (h : ArgsEnd files scope w vs w' us) : us.length = vs.length := by
  induction h with
  | nil => rfl
  | cons _ _ ih => rw [List.length_cons, List.length_cons, ih]

/-- What comes after arguments needs to agree only on the values that these have. -/
theorem afterArgs_congr_of_argsEnd
    (hk : ∀ w' us, ArgsEnd files scope w vs w' us → (k w' us o ↔ k' w' us o)) :
    AfterArgs files scope w vs k o ↔ AfterArgs files scope w vs k' o := by
  induction vs generalizing w k k' with
  | nil =>
    rw [afterArgs_nil, afterArgs_nil]
    exact hk w [] .nil
  | cons v vs ih =>
    rw [afterArgs_cons, afterArgs_cons]
    refine or_congr Iff.rfl (exists_congr fun w' => exists_congr fun u => and_congr_right ?_)
    exact fun hu => ih fun w'' us hus => hk w'' (u :: us) (.cons hu hus)

/-- What all arguments yield, their values have. -/
theorem ArgsEnd.of_eachYields {Q : World → Prop} {R : Value → Prop}
    (h : ArgsEnd files scope w vs w' us) (hw : Q w)
    (hy : EachYields files scope (fun w v => Q w ∧ R v) w vs) : Q w' ∧ ∀ u ∈ us, R u := by
  induction h with
  | nil => exact ⟨hw, by simp⟩
  | @cons w₀ w₁ _ a u rest us hv _ ih =>
    have hfirst : (Q w₁ ∧ R u) ∧ EachYields files scope (fun w v => Q w ∧ R v) w₁ rest := by
      cases ha : a.isCall with
      | false =>
        rw [argEnds_value ha] at hv
        cases hv
        exact (eachYields_value ha).mp hy
      | true =>
        obtain ⟨c, rfl⟩ := Value.eq_call_of_isCall ha
        exact (eachYields_call.mp hy).2 w₁ u hv
    obtain ⟨hw', hus⟩ := ih hfirst.1.1 hfirst.2
    exact ⟨hw', List.forall_mem_cons.mpr ⟨hfirst.1.2, hus⟩⟩

end Arguments

/-! ## Bodies -/

/-- What the function `d` comes to with the values `us`: the body is evaluated in a scope of its
own, then the number of the values is checked. -/
def Definition.Runs (files : Files) (d : Definition) (w : World) (us : List Value) (o : Outcome) :
    Prop :=
  match (Call.begin (.user d) us).prepareUser d us with
  | .error e => o = ⟨w, .failed e⟩
  | .ok p =>
    AfterArgs files p.scope w [d.body] (fun w vs o =>
      o = (Call.begin (.user d) us).conclude w p.scope (p.args.dropLast ++ vs)) o

/-- The same where the values are looked up in a scope before the function gets them. -/
def Definition.RunsLookedUp (files : Files) (scope : Scope) (d : Definition) (w : World)
    (us : List Value) (o : Outcome) : Prop :=
  match lookupAll scope w.globals (.begin (.user d) us) us with
  | .error e => o = ⟨w, .failed e⟩
  | .ok vs => d.Runs files w vs o

/-- The parts of a function are proper and its body has not begun. -/
structure Definition.Sound (d : Definition) : Prop where
  proper : d.isProper = true
  fresh : ∀ b, d.body = .call b → b.resolved = false

section Bodies

variable {files : Files} {scope : Scope} {c : Call} {d : Definition} {w : World}
  {us vs : List Value} {o : Outcome}

/-- A call whose function has done its work evaluates the arguments that are left, and is
finished. -/
theorem ends_frame_rest_iff (hc : c.isDeferred = false)
    (hy : EachYields files scope (fun _ v => v.isCall = false) w vs) :
    Ends files w (.scan (c.frame true scope us vs) []) o ↔
      AfterArgs files scope w vs (fun w vs o => o = c.conclude w scope (us ++ vs)) o := by
  induction vs generalizing w us with
  | nil =>
    rw [afterArgs_nil, ends_scan_finish_iff Call.frame_arg_nil]
    simp only [Call.frame, Call.conclude_mark]
  | cons v vs ih =>
    have hpass : ∀ {w u}, u.isCall = false →
        EachYields files scope (fun _ v => v.isCall = false) w vs →
          (Ends files w (.scan (c.frame true scope us (u :: vs)) []) o ↔
            AfterArgs files scope w vs
              (fun w vs o => o = c.conclude w scope (us ++ u :: vs)) o) := by
      intro w u hu hy
      rw [ends_next_iff (step_frame_pass hu (Bool.and_false _)), ih hy]
      simp only [List.append_assoc, List.singleton_append]
    cases hv : v.isCall with
    | false =>
      rw [afterArgs_value hv]
      exact hpass hv ((eachYields_value hv).mp hy).2
    | true =>
      obtain ⟨b, rfl⟩ := Value.eq_call_of_isCall hv
      rw [eachYields_call] at hy
      rw [afterArgs_call, ends_scan_call_iff Call.frame_arg_cons hy.1]
      refine or_congr Iff.rfl (exists_congr fun w' => exists_finishes_iff fun finished u hf => ?_)
      rw [Call.resume_frame_of_not_deferred hc, ends_next_iff (step_frame_enter (Bool.and_false _))]
      obtain ⟨hu, hrest⟩ := hy.2 w' u hf.ends
      exact hpass hu hrest

/-- The body of a sound function has values that are no calls, when it is run with proper values. -/
theorem Definition.Sound.eachYields (hd : d.Sound) (hw : w.IsProper)
    (hus : ∀ u ∈ us, u.isProper false = true) {p : Prepared}
    (hp : (Call.begin (.user d) us).prepareUser d us = .ok p) :
    EachYields files p.scope (fun _ v => v.isCall = false) w [d.body] := by
  have hfun : Value.isProper false (.function (.user d)) = true := hd.proper
  have hparts := isProper_user_iff.mp hfun
  have hkeeps := isProper_kind.prepareUser rfl hparts (Nat.le_refl _) hus hp
  have hy : EachYields files p.scope (fun w v => w.IsProper ∧ v.isProper false = true) w
      [d.body] := by
    refine eachYields_of_proper hw (Scope.isProper_iff.mpr hkeeps.scope)
      (by simpa using hparts.1) ?_
    intro b hb
    exact hd.fresh b (List.mem_singleton.mp hb).symm
  exact hy.mono fun _ v hv => isProper_kind.value hv.2

/-- The work of a defined function, done when the first `i` of the values have been passed over,
leads to running its body. -/
theorem ends_work_iff_runs {s : State} {i : Nat} (hc : c.fn = .user d) (hi : i ≤ us.length)
    (hs : step files w s = Frame.prepare files w ⟨c.mark true false, us, i, scope⟩ [])
    (hus : ∀ u ∈ us, u.isCall = false)
    (hbody : ∀ p, (Call.begin (.user d) us).prepareUser d us = .ok p →
      EachYields files p.scope (fun _ v => v.isCall = false) w [d.body]) :
    Ends files w s o ↔ d.Runs files w us o := by
  have hprep : c.prepare scope w.globals us =
      ((Call.begin (.user d) us).prepareUser d us).map fun p => { p with call := c } :=
    (Call.prepare_user hc).trans (Call.prepareUser_congr rfl hc)
  unfold Definition.Runs
  cases hp : (Call.begin (.user d) us).prepareUser d us with
  | error e =>
    rw [hp] at hprep
    exact ends_prepare_error_iff hs hprep
  | ok p =>
    have hy : EachYields files p.scope (fun _ v => v.isCall = false) w [d.body] := hbody p hp
    obtain ⟨start, S, m, -, -, rfl⟩ := Call.prepareUser_spec hp
    rw [hp] at hprep
    refine (ends_prepare_ok_iff hs hprep rfl).trans ?_
    dsimp only at hy ⊢
    -- what is left of the values is passed over
    have hvalues : ∀ v ∈ us.drop i ++ List.replicate m Value.none, v.isCall = false := by
      intro v hv
      rcases List.mem_append.mp hv with hv | hv
      · exact hus v (List.mem_of_mem_drop hv)
      · rw [List.eq_of_mem_replicate hv]
        rfl
    have hsplit : us ++ List.replicate m Value.none ++ [d.body] =
        us ++ (List.replicate m Value.none ++ [d.body]) := List.append_assoc ..
    show Ends files w (.scan (c.frame true S _ _) []) o ↔ _
    rw [List.dropLast_concat, hsplit, List.take_append_of_le_length hi,
      List.drop_append_of_le_length hi, ← List.append_assoc (us.drop i),
      ends_frame_values_iff hvalues, ← List.append_assoc (us.take i), List.take_append_drop,
      ends_frame_rest_iff (Call.isDeferred_user hc) hy]
    have hsame : ∀ w vs, c.conclude w S vs = (Call.begin (.user d) us).conclude w S vs :=
      fun w vs => Call.conclude_user hc rfl
    simp only [hsame]

/-- A call of a defined function runs its body with the values of its arguments, if none of these
is a call, nor is what the body comes to. -/
theorem ends_user_iff_runs_of_yields (hc : c.fn = .user d)
    (hfresh : c.resolved = false ∧ c.prepared = false)
    (hargs : c.resolveArgs scope w.globals = .ok vs)
    (hy : EachYields files scope (fun _ v => v.isCall = false) w vs)
    (hbody : ∀ w' us, ArgsEnd files scope w vs w' us →
      ∀ p, (Call.begin (.user d) us).prepareUser d us = .ok p →
        EachYields files p.scope (fun _ v => v.isCall = false) w' [d.body]) :
    Ends files w (.start c scope) o ↔ AfterArgs files scope w vs (d.Runs files) o := by
  rcases List.eq_nil_or_concat vs with rfl | ⟨front, a, rfl⟩
  · have hready : c.canPrepare [] (-1) = true := by
      rw [Call.canPrepare_user hc]
      rfl
    rw [afterArgs_nil]
    exact ends_work_iff_runs hc (Nat.le_refl 0) (step_start_ready hfresh.1 hfresh.2 hargs hready)
      (by simp) (hbody w [] .nil)
  · rw [List.concat_eq_append] at *
    have hlen : (front ++ [a]).length = front.length + 1 := by simp
    have hnot := Call.canPrepare_user_of_lt (i := -1) hc (by rw [hlen]; omega)
    have hquiet : ∀ j : Nat, ([] : List Value).length ≤ j →
        j < ([] : List Value).length + front.length →
          c.canPrepare (front ++ [a]) j = false := by
      intro j _ hj
      rw [List.length_nil] at hj
      exact Call.canPrepare_user_of_lt hc (by rw [hlen]; omega)
    rw [State.start, ends_next_iff (step_start_scan hfresh.1 hfresh.2 hargs hnot)]
    show Ends files w (.scan (c.frame false scope [] (front ++ [a])) []) o ↔ _
    rw [ends_pending_values_iff rfl hnot hquiet (by simp) hy]
    refine afterArgs_congr_of_argsEnd fun w' us hus => ?_
    have hvalues : ∀ u ∈ us, u.isCall = false :=
      (hus.of_eachYields (Q := fun _ => True) trivial (hy.mono fun _ _ hv => ⟨trivial, hv⟩)).2
    -- the last value starts the work of the function
    obtain ⟨front', u, rfl, hfront⟩ := exists_concat_of_length (hus.length_eq.trans hlen)
    rw [List.nil_append, ← hfront, List.take_left, List.drop_left]
    refine ends_work_iff_runs hc (by simp) (step_frame_ready ?_ ?_) hvalues (hbody w' _ hus)
    · exact hvalues u (by simp)
    · rw [Call.canPrepare_user hc]
      simp

/-- **A call of a defined function runs its body** with the values of its arguments. -/
theorem ends_user_iff_runs (hc : c.fn = .user d)
    (hfresh : c.resolved = false ∧ c.prepared = false)
    (hargs : c.resolveArgs scope w.globals = .ok vs) (hd : d.Sound) (hw : w.IsProper)
    (hy : EachYields files scope (fun w v => w.IsProper ∧ v.isProper false = true) w vs) :
    Ends files w (.start c scope) o ↔ AfterArgs files scope w vs (d.Runs files) o := by
  refine ends_user_iff_runs_of_yields hc hfresh hargs
    (hy.mono fun _ v hv => isProper_kind.value hv.2) fun w' us hus p hp => ?_
  obtain ⟨hw', hproper⟩ := hus.of_eachYields hw hy
  exact hd.eachYields hw' hproper hp

/-- **A defined function that is invoked with values gets them looked up**, in the scope of the call
that invokes it, and then runs its body. -/
theorem invokes_user_iff_runs (hd : d.Sound) (hw : w.IsProper) (hs : Scope.isProper scope = true)
    (hus : ∀ u ∈ us, u.isProper false = true) :
    Invokes files scope (.user d) w us o ↔ d.RunsLookedUp files scope w us o := by
  have hres : (Call.begin (.user d) us).resolveArgs scope w.globals =
      lookupAll scope w.globals (.begin (.user d) us) us := Call.resolveArgs_user rfl
  show Ends files w (.start (.begin (.user d) us) scope) o ↔ _
  unfold Definition.RunsLookedUp
  cases hl : lookupAll scope w.globals (.begin (.user d) us) us with
  | error e =>
    rw [hl] at hres
    exact ends_halt_iff (step_start_error rfl hres)
  | ok vs =>
    rw [hl] at hres
    -- values are looked up to values
    have hvs : ∀ v ∈ vs, v.isProper false = true := by
      intro v hv
      rcases isProper_kind.lookupAll (Scope.isProper_iff.mp hs) (Scope.isProper_iff.mp hw)
        (fun u hu => isProper_kind.ofValue (hus u hu)) hl v hv with hv | ⟨hv, -⟩
      · exact hv
      · exact hus v hv
    have hcalls : ∀ v ∈ vs, v.isCall = false := fun v hv => isProper_kind.value (hvs v hv)
    rw [ends_user_iff_runs rfl ⟨rfl, rfl⟩ hres hd hw
      (eachYields_values (fun v hv => ⟨hw, hvs v hv⟩) hcalls), afterArgs_values hcalls]

/-- Values that are no symbols stand for themselves. -/
theorem Definition.runsLookedUp_iff (hus : ∀ u ∈ us, u.isPlain = true) :
    d.RunsLookedUp files scope w us o ↔ d.Runs files w us o := by
  rw [Definition.RunsLookedUp,
    lookupAll_of_ne_symbol (fun u hu => Value.ne_symbol_of_isPlain (hus u hu))]

end Bodies

end MiniLisp

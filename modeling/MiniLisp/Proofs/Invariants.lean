import MiniLisp.Proofs.Frames

/-!
# Invariants along a run

What can be said of a world after a run often depends on the states that the run has gone through.
Then it is enough to look at single steps: an invariant that every step keeps, as long as the states
are good ones, holds after a run through good states (`invariant_of_visits`). `RunsTo` is such a run
with its fuel, so that an argument about it can go by induction on the fuel and take the run apart
at its first step.
-/

namespace MiniLisp

/-- What a step leads to satisfies an invariant: of the world `G`, and of the state `I`. -/
def Step.Satisfies (G : World → Prop) (I : State → Prop) : Step → Prop
  | .next w s => G w ∧ I s
  | .load w _ s => G w ∧ I s
  | .halt w _ => G w

section Satisfies

variable {G G' : World → Prop} {I I' : State → Prop}

/-- Two invariants that a step keeps are one. -/
theorem Step.Satisfies.and {st : Step} (h : st.Satisfies G I) (h' : st.Satisfies G' I') :
    st.Satisfies (fun w => G w ∧ G' w) (fun s => I s ∧ I' s) := by
  cases st with
  | next w s => exact ⟨⟨h.1, h'.1⟩, h.2, h'.2⟩
  | load w text s => exact ⟨⟨h.1, h'.1⟩, h.2, h'.2⟩
  | halt w r => exact ⟨h, h'⟩

/-- What a step keeps may be weakened. -/
theorem Step.Satisfies.mono {st : Step} (h : st.Satisfies G I) (hG : ∀ w, G w → G' w)
    (hI : ∀ s, I s → I' s) : st.Satisfies G' I' := by
  cases st with
  | next w s => exact ⟨hG w h.1, hI s h.2⟩
  | load w text s => exact ⟨hG w h.1, hI s h.2⟩
  | halt w r => exact hG w h

variable {files : Files} {w : World} {f : Frame} {stack : List Frame}

/-- The work of a function leaves the world as it is. -/
theorem Frame.prepare_satisfies (hw : G w)
    (h : ∀ p, f.call.prepare f.scope w.globals f.args = .ok p →
      I (.scan (f.continueWith p) stack)) : (f.prepare files w stack).Satisfies G I := by
  rcases Frame.prepare_cases files w f stack with ⟨e, -, hf⟩ | ⟨p, hp, hcases⟩
  · rw [hf]
    exact hw
  · rcases hcases with ⟨-, hf⟩ | ⟨path, -, -, hf⟩ | ⟨path, text, -, -, hf⟩
    · rw [hf]
      exact ⟨hw, h p hp⟩
    · rw [hf]
      exact hw
    · rw [hf]
      exact ⟨hw, h p hp⟩

/-- A call that is finished changes the world when it is applied, and hands its value on. -/
theorem Frame.finish_satisfies (hw : G w)
    (h : ∀ w' r, f.call.apply w f.scope f.args = (w', r) → G w')
    (hs : ∀ outer rest v, stack = outer :: rest → I (.enter (outer.resume f.call v) rest)) :
    (f.finish w stack).Satisfies G I := by
  unfold Frame.finish
  split
  · exact hw
  · rcases ha : f.call.apply w f.scope f.args with ⟨w1, r⟩
    have hw1 := h w1 r ha
    cases r with
    | error e => exact hw1
    | ok v =>
      cases stack with
      | nil => exact hw1
      | cons outer rest => exact ⟨hw1, hs outer rest v rfl⟩

/-- A step changes the world only by applying the function of a call. -/
theorem step_satisfies (hw : G w)
    (happly : ∀ (c : Call) scope args w' r, c.apply w scope args = (w', r) → G w') {s : State} :
    (step files w s).Satisfies G fun _ => True := by
  have hprepare : ∀ (f : Frame) (stack : List Frame),
      (f.prepare files w stack).Satisfies G fun _ => True :=
    fun f stack => Frame.prepare_satisfies hw fun _ _ => trivial
  cases s with
  | enter f stack =>
    cases hf : f.resolve w.globals with
    | error e =>
      rw [step_enter_error hf]
      exact hw
    | ok g =>
      cases hr : g.isReady (-1) with
      | true =>
        rw [step_enter_ready hf hr]
        exact hprepare g stack
      | false =>
        rw [step_enter_scan hf hr]
        exact ⟨hw, trivial⟩
  | scan f stack =>
    cases harg : f.args[f.index]? with
    | none =>
      rw [step_scan_finish harg]
      exact Frame.finish_satisfies hw (happly _ _ _) fun _ _ _ _ => trivial
    | some v =>
      cases hv : v.isCall with
      | true =>
        obtain ⟨d, rfl⟩ := Value.eq_call_of_isCall hv
        rw [step_scan_call harg]
        exact ⟨hw, trivial⟩
      | false =>
        rw [step_scan_value harg hv]
        split
        · exact hprepare f stack
        · exact ⟨hw, trivial⟩

end Satisfies

/-- **A run through good states keeps an invariant** that holds when a block is started and that
every step from a good state, one with the property `Q`, keeps. -/
theorem invariant_of_visits {files : Files} {G : World → Prop} {I : State → Prop}
    {Q : World × State → Prop}
    (hstart : ∀ w cs c rest, G w → readCall w.globals cs = .ok (c, rest) →
      G w.startBlock ∧ I (.start c []))
    (hstep : ∀ w s, G w → I s → Q (w, s) → (step files w s).Satisfies G I) (n : Nat) :
    (∀ w s, G w → I s → (∀ t ∈ visits files n w s, Q t) → G (drive files n w s).world) ∧
      ∀ w last cs, G w → (∀ t ∈ visitsBlocks files n w cs, Q t) →
        G (runBlocks files n w last cs).world := by
  -- both loops at once, since each starts the other with less fuel
  induction n with
  | zero =>
    refine ⟨fun w s hw _ _ => ?_, fun w last cs hw _ => ?_⟩
    · rw [drive_zero]
      exact hw
    · rw [runBlocks_zero]
      exact hw
  | succ n ih =>
    obtain ⟨ihd, ihb⟩ := ih
    refine ⟨fun w s hw hs hQ => ?_, fun w last cs hw hQ => ?_⟩
    · have hsat := hstep w s hw hs (of_forall_visits hQ)
      cases h : step files w s with
      | next w1 s1 =>
        rw [h] at hsat
        rw [drive_succ_next h]
        exact ihd w1 s1 hsat.1 hsat.2 ((forall_visits_next h).mp hQ).2
      | halt w1 r =>
        rw [h] at hsat
        rw [drive_succ_halt h]
        cases r <;> exact hsat
      | load w1 text s1 =>
        rw [h] at hsat
        rw [drive_succ_load h]
        obtain ⟨-, hQfile, hQrest⟩ := (forall_visits_load h).mp hQ
        have hfile := ihb w1 .none _ hsat.1 hQfile
        rcases hb : runBlocks files n w1 .none (Source.normalise text) with ⟨w2, r⟩
        rw [hb] at hfile
        cases r with
        | value v => exact ihd w2 s1 hfile hsat.2 (hQrest w2 v hb)
        | failed e => exact hfile
        | outOfFuel => exact hfile
    · cases cs with
      | nil =>
        rw [runBlocks_succ_nil]
        exact hw
      | cons c cs =>
        cases hr : readCall w.globals (c :: cs) with
        | error e =>
          rw [runBlocks_succ_error (by simp) hr]
          exact hw
        | ok r =>
          obtain ⟨call, rest⟩ := r
          rw [runBlocks_succ_ok (by simp) hr]
          obtain ⟨hw1, hs⟩ := hstart w _ call rest hw hr
          obtain ⟨hQblock, hQrest⟩ := (forall_visitsBlocks_ok (by simp) hr).mp hQ
          have hblock := ihd w.startBlock _ hw1 hs hQblock
          rcases hd : drive files n w.startBlock (.start call []) with ⟨w2, r⟩
          rw [hd] at hblock
          cases r with
          | value v => exact ihb w2 v rest hblock (hQrest w2 v hd)
          | failed e => exact hblock
          | outOfFuel => exact hblock

/-! ## Runs through good states -/

/-- A run with an amount of fuel ends with an outcome, and all its states are good. -/
structure RunsTo (Q : World × State → Prop) (files : Files) (n : Nat) (w : World) (s : State)
    (o : Outcome) : Prop where
  final : o.isFinal = true
  ends : drive files n w s = o
  good : ∀ t ∈ visits files n w s, Q t

/-- The blocks of a text are run with an amount of fuel and end with an outcome, and all states are
good. -/
structure BlocksRunTo (Q : World × State → Prop) (files : Files) (n : Nat) (w : World)
    (last : Value) (cs : List Char) (o : Outcome) : Prop where
  final : o.isFinal = true
  ends : runBlocks files n w last cs = o
  good : ∀ t ∈ visitsBlocks files n w cs, Q t

namespace RunsTo

variable {Q : World × State → Prop} {files : Files} {n : Nat} {w w1 : World} {s s1 : State}
  {o : Outcome}

theorem exists_succ (h : RunsTo Q files n w s o) : ∃ m, n = m + 1 := by
  cases n with
  | zero =>
    have hfinal := h.final
    rw [← h.ends, drive_zero] at hfinal
    cases hfinal
  | succ m => exact ⟨m, rfl⟩

/-- A property of all visited states holds of the first one. -/
theorem first (h : RunsTo Q files n w s o) : Q (w, s) := by
  obtain ⟨m, rfl⟩ := h.exists_succ
  exact of_forall_visits h.good

/-- After a step the run goes on with less fuel. -/
theorem next (h : RunsTo Q files n w s o) (hs : step files w s = .next w1 s1) :
    ∃ m < n, RunsTo Q files m w1 s1 o := by
  obtain ⟨m, rfl⟩ := h.exists_succ
  refine ⟨m, Nat.lt_succ_self m, h.final, ?_, ((forall_visits_next hs).mp h.good).2⟩
  rw [← drive_succ_next hs]
  exact h.ends

/-- A step that halts is the last one. -/
theorem halt {r : Except Error Value} (h : RunsTo Q files n w s o)
    (hs : step files w s = .halt w1 r) : o = Outcome.ofExcept w1 r := by
  obtain ⟨m, rfl⟩ := h.exists_succ
  rw [← h.ends, drive_succ_halt hs]

/-- Running a file comes first, and the run fails with it or goes on in the world that it leaves. -/
theorem load {text : List Char} (h : RunsTo Q files n w s o)
    (hs : step files w s = .load w1 text s1) :
    ∃ m < n,
      (∃ w2 e, o = ⟨w2, .failed e⟩ ∧
        BlocksRunTo Q files m w1 .none (Source.normalise text) o) ∨
      ∃ w2 v, BlocksRunTo Q files m w1 .none (Source.normalise text) ⟨w2, .value v⟩ ∧
        RunsTo Q files m w2 s1 o := by
  obtain ⟨m, rfl⟩ := h.exists_succ
  have hends := h.ends
  rw [drive_succ_load hs] at hends
  obtain ⟨-, hfile, hrest⟩ := (forall_visits_load hs).mp h.good
  refine ⟨m, Nat.lt_succ_self m, ?_⟩
  rcases (Outcome.andThen_eq_iff h.final).mp hends with ⟨w2, e, he, hb⟩ | ⟨w2, v, hb, hd⟩
  · exact Or.inl ⟨w2, e, he, h.final, hb, hfile⟩
  · exact Or.inr ⟨w2, v, ⟨rfl, hb, hfile⟩, h.final, hd, hrest w2 v hb⟩

/-- A call among the arguments of a frame runs on its own. The whole fails with it, or goes on with
its value. What is good must depend on the call that is run and on its scope only. -/
theorem scanCall {f : Frame} {d : Call}
    (hunder : ∀ w s below, Q (w, s.under below) → Q (w, s))
    (henter : ∀ w c args scope stack, Q (w, .enter (.enter c args scope) stack) →
      Q (w, (State.start c scope).under stack))
    (h : RunsTo Q files n w (.scan f []) o) (harg : f.args[f.index]? = some (.call d))
    (hd : d.resolved = false) :
    ∃ m < n, (∃ w' e, o = ⟨w', .failed e⟩ ∧ RunsTo Q files m w (.start d f.scope) o) ∨
      ∃ w' c v k, RunsTo Q files m w (.start d f.scope) ⟨w', .value v⟩ ∧
        Finishes files w (.start d f.scope) w' c v ∧ k < n ∧
          RunsTo Q files k w' (.enter (f.resume c v) []) o := by
  obtain ⟨m, hm, hrun⟩ := h.next (step_scan_call harg)
  obtain ⟨k, rfl⟩ := hrun.exists_succ
  have hstep : step files w (.enter (.enter d f.args f.scope) [f]) =
      step files w ((State.start d f.scope).under [f]) := step_enter_fresh hd
  have hgood : ∀ t ∈ visits files (k + 1) w ((State.start d f.scope).under [f]), Q t := by
    have hfirst := henter _ _ _ _ _ hrun.first
    have hall := hrun.good
    rw [visits, List.forall_mem_cons] at hall ⊢
    rw [← hstep]
    exact ⟨hfirst, hall.2⟩
  have hends : drive files (k + 1) w ((State.start d f.scope).under [f]) = o := by
    rw [← drive_enter_fresh hd]
    exact hrun.ends
  obtain ⟨hinner, hcases⟩ := drive_under_visits hunder f [] (k + 1) w _ o h.final hends hgood
  refine ⟨k + 1, hm, ?_⟩
  rcases hcases with ⟨w', e, he, hfail⟩ | ⟨w', c, v, l, hvalue, hfin, hl, hrest, hgood'⟩
  · exact Or.inl ⟨w', e, he, h.final, hfail, hinner⟩
  · exact Or.inr ⟨w', c, v, l, ⟨rfl, hvalue, hinner⟩, hfin, Nat.lt_trans hl hm, h.final, hrest,
      hgood'⟩

end RunsTo

namespace BlocksRunTo

variable {Q : World × State → Prop} {files : Files} {n : Nat} {w : World} {last : Value}
  {cs rest : List Char} {o : Outcome}

theorem exists_succ (h : BlocksRunTo Q files n w last cs o) : ∃ m, n = m + 1 := by
  cases n with
  | zero =>
    have hfinal := h.final
    rw [← h.ends, runBlocks_zero] at hfinal
    cases hfinal
  | succ m => exact ⟨m, rfl⟩

theorem nil (h : BlocksRunTo Q files n w last [] o) : o = ⟨w, .value last⟩ := by
  obtain ⟨m, rfl⟩ := h.exists_succ
  rw [← h.ends, runBlocks_succ_nil]

theorem error {e : Error} (h : BlocksRunTo Q files n w last cs o) (hne : cs ≠ [])
    (hread : readCall w.globals cs = .error e) : o = ⟨w, .failed e⟩ := by
  obtain ⟨m, rfl⟩ := h.exists_succ
  rw [← h.ends, runBlocks_succ_error hne hread]

/-- A text fails with its first block or goes on with the rest. -/
theorem ok {c : Call} (h : BlocksRunTo Q files n w last cs o) (hne : cs ≠ [])
    (hread : readCall w.globals cs = .ok (c, rest)) :
    ∃ m < n,
      (∃ w1 e, o = ⟨w1, .failed e⟩ ∧ RunsTo Q files m w.startBlock (.start c []) o) ∨
      ∃ w1 v, RunsTo Q files m w.startBlock (.start c []) ⟨w1, .value v⟩ ∧
        BlocksRunTo Q files m w1 v rest o := by
  obtain ⟨m, rfl⟩ := h.exists_succ
  have hends := h.ends
  rw [runBlocks_succ_ok hne hread] at hends
  obtain ⟨hblock, hrest⟩ := (forall_visitsBlocks_ok hne hread).mp h.good
  refine ⟨m, Nat.lt_succ_self m, ?_⟩
  rcases (Outcome.andThen_eq_iff h.final).mp hends with ⟨w1, e, he, hd⟩ | ⟨w1, v, hd, hb⟩
  · exact Or.inl ⟨w1, e, he, h.final, hd, hblock⟩
  · exact Or.inr ⟨w1, v, ⟨rfl, hd, hblock⟩, h.final, hb, hrest w1 v hd⟩

end BlocksRunTo

end MiniLisp

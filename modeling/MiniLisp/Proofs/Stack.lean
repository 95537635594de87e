import MiniLisp.Proofs.Visits

/-!
# Running under a stack

What a call does while it runs does not depend on the calls around it. A state can be put on top
of more frames (`State.under`), the machine then makes the same steps, and only where it would halt
with a value does it hand the value to the frame below instead. Hence a call inside a call can be
looked at on its own: `ends_under_iff` says that the whole ends as the inner call fails, or goes on
with the value of the inner call as if that had come in one step.
-/

namespace MiniLisp

/-! ## States on top of frames -/

namespace State

/-- The call that is being run. -/
def frame : State → Frame
  | enter f _ => f
  | scan f _ => f

/-- The state with more frames below its stack. -/
def under (s : State) (below : List Frame) : State :=
  match s with
  | enter f stack => enter f (stack ++ below)
  | scan f stack => scan f (stack ++ below)

@[simp] theorem under_enter (f : Frame) (stack below : List Frame) :
    (enter f stack).under below = enter f (stack ++ below) := rfl

@[simp] theorem under_scan (f : Frame) (stack below : List Frame) :
    (scan f stack).under below = scan f (stack ++ below) := rfl

end State

/-- A step that leads to a state on top of more frames. -/
def Step.under (st : Step) (below : List Frame) : Step :=
  match st with
  | next w s => next w (s.under below)
  | load w text s => load w text (s.under below)
  | halt w r => halt w r

/-- The frames below do not matter to the work of a function on its arguments. -/
theorem Frame.prepare_under (files : Files) (w : World) (f : Frame) (stack below : List Frame) :
    f.prepare files w (stack ++ below) = (f.prepare files w stack).under below := by
  unfold Frame.prepare
  cases f.call.prepare f.scope w.globals f.args with
  | error e => rfl
  | ok p =>
    cases hl : p.load with
    | none => simp only [hl]; rfl
    | some path =>
      simp only [hl]
      cases files.read? path <;> rfl

/-- Preparing never yields a value. -/
theorem Frame.prepare_ne_halt_ok (files : Files) (w : World) (f : Frame) (stack : List Frame)
    (w' : World) (v : Value) : f.prepare files w stack ≠ .halt w' (.ok v) := by
  unfold Frame.prepare
  cases f.call.prepare f.scope w.globals f.args with
  | error e => simp
  | ok p =>
    cases hl : p.load with
    | none => simp [hl]
    | some path =>
      simp only [hl]
      cases files.read? path <;> simp

/-- A complete call hands its value to the frame below. -/
theorem Frame.finish_under (w : World) (f : Frame) (stack : List Frame) (outer : Frame)
    (rest : List Frame) :
    (∃ w' v, f.finish w stack = .halt w' (.ok v) ∧
        f.finish w (stack ++ outer :: rest) =
          .next w' (.enter (outer.resume f.call v) rest)) ∨
      ((∀ w' v, f.finish w stack ≠ .halt w' (.ok v)) ∧
        f.finish w (stack ++ outer :: rest) = (f.finish w stack).under (outer :: rest)) := by
  unfold Frame.finish
  cases f.checkLate with
  | error e => exact Or.inr ⟨by simp, rfl⟩
  | ok u =>
    rcases f.call.apply w f.scope f.args with ⟨w', r⟩
    cases r with
    | error e => exact Or.inr ⟨by simp, rfl⟩
    | ok v =>
      cases stack with
      | nil => exact Or.inl ⟨w', v, rfl, rfl⟩
      | cons g stack => exact Or.inr ⟨by simp, rfl⟩

/-- What the machine does on top of more frames: it hands on the value with which it would have
halted, and otherwise makes the same step. -/
theorem step_under (files : Files) (w : World) (s : State) (outer : Frame) (rest : List Frame) :
    (∃ w' v, step files w s = .halt w' (.ok v) ∧
        step files w (s.under (outer :: rest)) =
          .next w' (.enter (outer.resume s.frame.call v) rest)) ∨
      ((∀ w' v, step files w s ≠ .halt w' (.ok v)) ∧
        step files w (s.under (outer :: rest)) = (step files w s).under (outer :: rest)) := by
  cases s with
  | enter f stack =>
    refine Or.inr ?_
    rw [State.under_enter]
    cases hf : f.resolve w.globals with
    | error e =>
      rw [step_enter_error hf, step_enter_error hf]
      exact ⟨by simp, rfl⟩
    | ok g =>
      cases hr : g.isReady (-1) with
      | true =>
        rw [step_enter_ready hf hr, step_enter_ready hf hr]
        exact ⟨g.prepare_ne_halt_ok files w stack, g.prepare_under files w stack _⟩
      | false =>
        rw [step_enter_scan hf hr, step_enter_scan hf hr]
        exact ⟨by simp, rfl⟩
  | scan f stack =>
    rw [State.under_scan]
    cases harg : f.args[f.index]? with
    | none =>
      rw [step_scan_finish harg, step_scan_finish harg]
      exact f.finish_under w stack outer rest
    | some v =>
      refine Or.inr ?_
      cases hv : v.isCall with
      | true =>
        obtain ⟨c, rfl⟩ := Value.eq_call_of_isCall hv
        rw [step_scan_call harg, step_scan_call harg]
        exact ⟨by simp, rfl⟩
      | false =>
        cases hr : f.isReady f.index with
        | true =>
          rw [step_scan_ready harg hv hr, step_scan_ready harg hv hr]
          exact ⟨f.prepare_ne_halt_ok files w stack, f.prepare_under files w stack _⟩
        | false =>
          rw [step_scan_pass harg hv hr, step_scan_pass harg hv hr]
          exact ⟨by simp, rfl⟩

/-! ## Calls that finish -/

/-- The machine halts with a value. The relation keeps the call that was finished, since its marks
can be left in an argument of the call around it. -/
inductive Finishes (files : Files) : World → State → World → Call → Value → Prop where
  | halt {w w' : World} {s : State} {v : Value} (h : step files w s = .halt w' (.ok v)) :
      Finishes files w s w' s.frame.call v
  | next {w w1 w' : World} {s s1 : State} {c : Call} {v : Value}
      (h : step files w s = .next w1 s1) (ht : Finishes files w1 s1 w' c v) :
      Finishes files w s w' c v
  | load {w w1 w2 w' : World} {s s1 : State} {text : List Char} {last : Value} {c : Call}
      {v : Value} (h : step files w s = .load w1 text s1)
      (hb : BlocksEnd files w1 .none (Source.normalise text) ⟨w2, .value last⟩)
      (ht : Finishes files w2 s1 w' c v) : Finishes files w s w' c v

theorem Finishes.ends {files : Files} {w w' : World} {s : State} {c : Call} {v : Value}
    (h : Finishes files w s w' c v) : Ends files w s ⟨w', .value v⟩ := by
  induction h with
  | halt h => exact (ends_halt_iff h).mpr rfl
  | next h _ ih => exact (ends_next_iff h).mpr ih
  | load h hb _ ih => exact (ends_load_iff h).mpr (Or.inr ⟨_, _, hb, ih⟩)

/-- A value reaches the frame below. -/
theorem Finishes.ends_under {files : Files} {w w' : World} {s : State} {c : Call} {v : Value}
    {o : Outcome} (h : Finishes files w s w' c v) (outer : Frame) (rest : List Frame)
    (ho : Ends files w' (.enter (outer.resume c v) rest) o) :
    Ends files w (s.under (outer :: rest)) o := by
  induction h with
  | halt h =>
    rcases step_under files _ _ outer rest with ⟨w1, u, hs, hu⟩ | ⟨hne, -⟩
    · rw [hs] at h
      cases h
      exact (ends_next_iff hu).mpr ho
    · exact absurd h (hne _ _)
  | next h _ ih =>
    rcases step_under files _ _ outer rest with ⟨w1, u, hs, -⟩ | ⟨-, hu⟩
    · rw [hs] at h
      cases h
    · rw [h] at hu
      exact (ends_next_iff hu).mpr (ih ho)
  | load h hb _ ih =>
    rcases step_under files _ _ outer rest with ⟨w1, u, hs, -⟩ | ⟨-, hu⟩
    · rw [hs] at h
      cases h
    · rw [h] at hu
      exact (ends_load_iff hu).mpr (Or.inr ⟨_, _, hb, ih ho⟩)

/-! ## Taking a run apart -/

/-- A run on top of more frames goes through the states of the run of the call on its own, and then
through those of the frames below. Whether a state is good must not depend on what is below. -/
theorem drive_under_visits {files : Files} {Q : World × State → Prop}
    (hQ : ∀ w s below, Q (w, s.under below) → Q (w, s)) (outer : Frame) (rest : List Frame)
    (n : Nat) :
    ∀ (w : World) (s : State) (o : Outcome), o.isFinal = true →
      drive files n w (s.under (outer :: rest)) = o →
      (∀ t ∈ visits files n w (s.under (outer :: rest)), Q t) →
        (∀ t ∈ visits files n w s, Q t) ∧
          ((∃ w' e, o = ⟨w', .failed e⟩ ∧ drive files n w s = o) ∨
            ∃ w' c v m, drive files n w s = ⟨w', .value v⟩ ∧ Finishes files w s w' c v ∧
              m < n ∧ drive files m w' (.enter (outer.resume c v) rest) = o ∧
                ∀ t ∈ visits files m w' (.enter (outer.resume c v) rest), Q t) := by
  induction n with
  | zero =>
    intro w s o ho h
    rw [drive_zero] at h
    rw [← h] at ho
    cases ho
  | succ n ih =>
    intro w s o ho h hgood
    have hfirst : Q (w, s) := hQ w s _ (of_forall_visits hgood)
    -- either the state alone halts with a value here, or both make the same step
    rcases step_under files w s outer rest with ⟨w', v, hs, hu⟩ | ⟨hne, hu⟩
    · rw [drive_succ_next hu] at h
      exact ⟨(forall_visits_halt hs).mpr hfirst, Or.inr ⟨w', s.frame.call, v, n,
        drive_succ_halt hs, .halt hs, Nat.lt_succ_self n, h, ((forall_visits_next hu).mp hgood).2⟩⟩
    · cases hs : step files w s with
      | next w1 s1 =>
        rw [hs] at hu
        rw [drive_succ_next hu] at h
        rw [drive_succ_next hs]
        obtain ⟨hgood1, hcases⟩ := ih w1 s1 o ho h ((forall_visits_next hu).mp hgood).2
        refine ⟨(forall_visits_next hs).mpr ⟨hfirst, hgood1⟩, ?_⟩
        rcases hcases with hfail | ⟨w', c, v, m, hd, hf, hm, ht⟩
        · exact Or.inl hfail
        · exact Or.inr ⟨w', c, v, m, hd, .next hs hf, Nat.lt_succ_of_lt hm, ht⟩
      | halt w1 r =>
        rw [hs] at hu
        rw [drive_succ_halt hu] at h
        rw [drive_succ_halt hs]
        refine ⟨(forall_visits_halt hs).mpr hfirst, ?_⟩
        cases r with
        | error e => exact Or.inl ⟨w1, e, h.symm, h⟩
        | ok v => exact absurd hs (hne w1 v)
      | load w1 text s1 =>
        rw [hs] at hu
        rw [drive_succ_load hu] at h
        rw [drive_succ_load hs]
        obtain ⟨-, hfile, hrest⟩ := (forall_visits_load hu).mp hgood
        rcases (Outcome.andThen_eq_iff ho).mp h with ⟨w', e, he, hb⟩ | ⟨w2, last, hb, ht⟩
        · refine ⟨(forall_visits_load hs).mpr ⟨hfirst, hfile, fun w2 v hv => ?_⟩,
            Or.inl ⟨w', e, he, ?_⟩⟩
          · rw [hb, he] at hv
            cases hv
          · rw [hb, he]
            rfl
        · have hbe : BlocksEnd files w1 .none (Source.normalise text) ⟨w2, .value last⟩ :=
            ⟨rfl, n, hb⟩
          obtain ⟨hgood1, hcases⟩ := ih w2 s1 o ho ht (hrest w2 last hb)
          rw [hb, Outcome.andThen_value]
          refine ⟨(forall_visits_load hs).mpr ⟨hfirst, hfile, fun w3 v hv => ?_⟩, ?_⟩
          · rw [hb] at hv
            cases hv
            exact hgood1
          · rcases hcases with hfail | ⟨w', c, v, m, hd, hf, hm, ht⟩
            · exact Or.inl hfail
            · exact Or.inr ⟨w', c, v, m, hd, .load hs hbe hf, Nat.lt_succ_of_lt hm, ht⟩

/-- A run on top of more frames that ends with a given fuel: with the same fuel the state alone
fails, or it yields a value and the rest of the fuel is for the frames below. -/
theorem drive_under (files : Files) (outer : Frame) (rest : List Frame) (n : Nat) (w : World)
    (s : State) (o : Outcome) (ho : o.isFinal = true)
    (h : drive files n w (s.under (outer :: rest)) = o) :
    (∃ w' e, o = ⟨w', .failed e⟩ ∧ drive files n w s = o) ∨
      (∃ w' c v m, drive files n w s = ⟨w', .value v⟩ ∧ Finishes files w s w' c v ∧
        m < n ∧ drive files m w' (.enter (outer.resume c v) rest) = o) := by
  obtain ⟨-, hcases⟩ := drive_under_visits (Q := fun _ => True) (fun _ _ _ _ => trivial) outer rest
    n w s o ho h (fun _ _ => trivial)
  rcases hcases with hfail | ⟨w', c, v, m, hd, hf, hm, ht, -⟩
  · exact Or.inl hfail
  · exact Or.inr ⟨w', c, v, m, hd, hf, hm, ht⟩

/-- A failure is a failure of the whole. -/
theorem drive_under_of_failed (files : Files) (outer : Frame) (rest : List Frame) (n : Nat) :
    ∀ (w : World) (s : State) (w' : World) (e : Error),
      drive files n w s = ⟨w', .failed e⟩ →
        drive files n w (s.under (outer :: rest)) = ⟨w', .failed e⟩ := by
  induction n with
  | zero =>
    intro w s w' e h
    rw [drive_zero] at h
    cases h
  | succ n ih =>
    intro w s w' e h
    rcases step_under files w s outer rest with ⟨w1, v, hs, -⟩ | ⟨-, hu⟩
    · rw [drive_succ_halt hs] at h
      cases h
    · cases hs : step files w s with
      | next w1 s1 =>
        rw [hs] at hu
        rw [drive_succ_next hs] at h
        rw [drive_succ_next hu]
        exact ih w1 s1 w' e h
      | halt w1 r =>
        rw [hs] at hu
        rw [drive_succ_halt hs] at h
        rw [drive_succ_halt hu]
        exact h
      | load w1 text s1 =>
        rw [hs] at hu
        rw [drive_succ_load hs] at h
        rw [drive_succ_load hu]
        rcases (Outcome.andThen_eq_iff rfl).mp h with ⟨w2, e', he, hb⟩ | ⟨w2, last, hb, ht⟩
        · rw [hb]
          rfl
        · rw [hb, Outcome.andThen_value]
          exact ih w2 s1 w' e ht

/-- **A call inside a call.** A state on top of more frames ends with the failure of the state
alone, or as the frame below goes on with its value. -/
theorem ends_under_iff {files : Files} {w : World} {s : State} {outer : Frame} {rest : List Frame}
    {o : Outcome} :
    Ends files w (s.under (outer :: rest)) o ↔
      (∃ w' e, o = ⟨w', .failed e⟩ ∧ Ends files w s o) ∨
        (∃ w' c v, Finishes files w s w' c v ∧
          Ends files w' (.enter (outer.resume c v) rest) o) := by
  constructor
  · rintro ⟨ho, n, hn⟩
    rcases drive_under files outer rest n w s o ho hn with
      ⟨w', e, he, hd⟩ | ⟨w', c, v, m, -, hf, -, hd⟩
    · exact Or.inl ⟨w', e, he, ho, n, hd⟩
    · exact Or.inr ⟨w', c, v, hf, ho, m, hd⟩
  · rintro (⟨w', e, rfl, ho, n, hn⟩ | ⟨w', c, v, hf, hd⟩)
    · exact ⟨ho, n, drive_under_of_failed files outer rest n w s w' e hn⟩
    · exact hf.ends_under outer rest hd

end MiniLisp

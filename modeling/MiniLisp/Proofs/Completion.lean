import MiniLisp.Proofs.Frames

/-!
# Finished calls have done their work

A call that finishes has been looked up and its function has done its work: the moment for it lies
before the last argument is passed over. Hence a finished call carries both marks
(`Finishes.marked`). The exception is a deferred call with a star that stands for nothing, for which
the moment never comes.

The invariant is about the frame at the bottom of the stack, which is the one of the call that the
machine was started with.
-/

namespace MiniLisp

/-! ## The frame at the bottom -/

/-- The frame of the call that the machine was started with. -/
def State.bottom : State → Frame
  | enter f stack => stack.getLastD f
  | scan f stack => stack.getLastD f

theorem State.bottom_under (s : State) (b : Frame) : (s.under [b]).bottom = b := by
  cases s <;> simp [State.under, State.bottom]

/-- A state has one frame, or stands on top of its bottom frame. -/
theorem State.eq_under (s : State) :
    (∃ f, s = .enter f [] ∨ s = .scan f []) ∨ ∃ (s0 : State) (b : Frame), s = s0.under [b] := by
  cases s with
  | enter f stack =>
    rcases List.eq_nil_or_concat stack with rfl | ⟨init, b, rfl⟩
    · exact Or.inl ⟨f, Or.inl rfl⟩
    · exact Or.inr ⟨.enter f init, b, by rw [State.under_enter, List.concat_eq_append]⟩
  | scan f stack =>
    rcases List.eq_nil_or_concat stack with rfl | ⟨init, b, rfl⟩
    · exact Or.inl ⟨f, Or.inr rfl⟩
    · exact Or.inr ⟨.scan f init, b, by rw [State.under_scan, List.concat_eq_append]⟩

/-! ## The moment of preparing -/

section Moment

variable {c : Call} {args args' : List Value}

/-- The number of arguments is all that is checked. -/
theorem Call.validate_congr (h : args.length = args'.length) :
    c.validate args = c.validate args' := by
  unfold Call.validate
  rw [h]

theorem Call.count_of_checkCount {n : Nat} {a : Arity} (ha : c.fn.arity? = some a)
    (h : c.checkCount n = .ok ()) : a.accepts n = true := by
  unfold Call.checkCount at h
  rw [ha] at h
  dsimp only at h
  by_cases hn : a.accepts n = true
  · exact hn
  · rw [if_neg hn] at h
    split at h <;> cases h

/-- For every number of arguments that passes the check there is a moment for the work of the
function. -/
theorem Call.exists_canPrepare (hdef : c.isDeferred = true → c.args.length ≤ args.length)
    (hv : c.fn.checksEarly = true → c.validate args = .ok ()) :
    ∃ i : Int, -1 ≤ i ∧ (i < args.length ∨ i = -1) ∧ c.canPrepare args i = true := by
  unfold Call.canPrepare
  cases hfn : c.fn with
  | user d => exact ⟨(args.length : Int) - 1, by omega, by omega, by simp⟩
  | builtin b =>
    -- the early check leaves enough arguments for those builtins that wait for some
    rw [hfn] at hv
    cases b with
    | choice =>
      have hval := hv rfl
      unfold Call.validate at hval
      rw [hfn] at hval
      dsimp only at hval
      split at hval
      · cases hval
      · split at hval
        · cases hval
        · rename_i h2 hodd
          have heven : args.length % 2 ≠ 1 := by simpa using hodd
          refine ⟨(args.length : Int) / 2 - 1, by omega, by omega, ?_⟩
          exact beq_iff_eq.mpr (by omega)
    | branch =>
      have hval := hv rfl
      unfold Call.validate at hval
      rw [hfn] at hval
      have hcount := Call.count_of_checkCount (a := ⟨false, 2⟩) (by rw [hfn]; rfl) hval
      have h2 : (2 : Int) ≤ args.length := by simpa [Arity.accepts] using hcount
      exact ⟨0, by omega, by omega, rfl⟩
    | binding =>
      have hval := hv rfl
      unfold Call.validate at hval
      rw [hfn] at hval
      dsimp only at hval
      split at hval
      · cases hval
      · exact ⟨(args.length : Int) - 2, by omega, by omega, by simp⟩
    | undefined => exact ⟨(args.length : Int) - 1, by omega, by omega, by simp⟩
    | deferred =>
      have hle := hdef (by rw [Call.isDeferred, hfn])
      exact ⟨(c.args.length : Int) - 1, by omega, by omega, by simp⟩
    | _ => exact ⟨-1, by omega, by omega, rfl⟩

end Moment

/-! ## The invariant -/

/-- The frame of a call that has been looked up. As long as its function has not done its work, the
moment for it is still to come. -/
structure Frame.Tracked (f : Frame) : Prop where
  resolved : f.call.resolved = true
  counted : f.call.prepared = false → f.call.isDeferred = true →
    f.call.args.length ≤ f.args.length
  checked : f.call.prepared = false → f.call.fn.checksEarly = true →
    f.call.validate f.args = .ok ()
  quiet : f.call.prepared = false → ∀ i : Int, -1 ≤ i → i < f.index →
    f.call.canPrepare f.args i = false

namespace Frame.Tracked

variable {f : Frame}

/-- A call whose arguments have all been passed over has done its work. -/
theorem prepared (h : f.Tracked) (hdone : f.args[f.index]? = none) : f.call.prepared = true := by
  cases hp : f.call.prepared with
  | true => rfl
  | false =>
    obtain ⟨i, hi, hlt, hready⟩ := Call.exists_canPrepare (h.counted hp) (h.checked hp)
    have hle : f.args.length ≤ f.index := List.getElem?_eq_none_iff.mp hdone
    rw [h.quiet hp i hi (by omega)] at hready
    cases hready

/-- A result in the place of a call. -/
theorem resume (h : f.Tracked) (finished : Call) (v : Value) : (f.resume finished v).Tracked := by
  have hlen : (f.args.set f.index v).length = f.args.length := List.length_set
  unfold Frame.resume
  split
  · -- the finished call is marked, which happens only after the work of the function
    rename_i hprep
    have hp : f.call.prepared = true := (Bool.and_eq_true_iff.mp hprep).2
    exact ⟨h.resolved, by simp [hp], by simp [hp], by simp [hp]⟩
  · refine ⟨h.resolved, fun hp hd => ?_, fun hp he => ?_, fun hp i hi hlt => ?_⟩
    · rw [hlen]
      exact h.counted hp hd
    · exact (Call.validate_congr hlen).trans (h.checked hp he)
    · exact (Call.canPrepare_congr hlen i).trans (h.quiet hp i hi hlt)

/-- The next argument is passed over. -/
theorem pass (h : f.Tracked) (hr : f.isReady f.index = false) :
    Frame.Tracked { f with index := f.index + 1 } := by
  refine ⟨h.resolved, h.counted, h.checked, fun hp i hi hlt => ?_⟩
  by_cases hi' : i < f.index
  · exact h.quiet hp i hi hi'
  · have heq : i = f.index := by
      have : i < ((f.index + 1 : Nat) : Int) := hlt
      omega
    rw [Frame.isReady, hp, Bool.not_false, Bool.and_true] at hr
    rw [heq]
    exact hr

theorem enter (h : f.Tracked) : f.isReady (-1) = false := by
  unfold Frame.isReady
  cases hp : f.call.prepared with
  | true => exact Bool.and_false _
  | false =>
    rw [h.quiet hp (-1) (by omega) (by omega)]
    rfl

end Frame.Tracked

/-- Preparing changes nothing in a call but the body that is set aside. -/
theorem Call.prepare_call {c : Call} {scope globals : Scope} {args : List Value} {p : Prepared}
    (h : c.prepare scope globals args = .ok p) :
    p.call = c ∨ ∃ body, p.call = { c with body := body } := by
  have hdef : c.prepareDefinition scope args = .ok p →
      ∃ body, p.call = { c with body := body } := by
    intro h
    unfold Call.prepareDefinition at h
    split at h
    · cases h
    · cases h
      exact ⟨_, rfl⟩
  unfold Call.prepare at h
  split at h
  · cases h
    exact Or.inl rfl
  · obtain ⟨args', -, rfl⟩ := map_eq_ok_iff.mp h
    exact Or.inl rfl
  · obtain ⟨scope', -, rfl⟩ := map_eq_ok_iff.mp h
    exact Or.inl rfl
  · exact Or.inr (hdef h)
  · exact Or.inr (hdef h)
  · obtain ⟨head, us, fn, real, -, -, -, rfl⟩ := Call.prepareDeferred_spec h
    exact Or.inl rfl
  · cases h
  · split at h
    · cases h
    · cases h
      exact Or.inl rfl
    · cases h
  · cases h
    exact Or.inl rfl
  · obtain ⟨start, scope', m, -, -, rfl⟩ := Call.prepareUser_spec h
    exact Or.inl rfl

/-- A frame whose function has done its work is tracked. -/
theorem Frame.tracked_continueWith {f : Frame} {p : Prepared} {globals : Scope}
    (hres : f.call.resolved = true) (hp : f.call.prepare f.scope globals f.args = .ok p) :
    (f.continueWith p).Tracked := by
  have hres' : (f.continueWith p).call.resolved = true := by
    unfold Frame.continueWith
    rcases Call.prepare_call hp with hcall | ⟨body, hcall⟩
    · rw [hcall]
      exact hres
    · rw [hcall]
      exact hres
  have hprep : (f.continueWith p).call.prepared = true := rfl
  exact ⟨hres', by simp [hprep], by simp [hprep], by simp [hprep]⟩

/-! ## Runs -/

section Runs

variable {files : Files} {w : World}

/-- The work of the function leads to a tracked frame. -/
theorem Frame.tracked_of_prepare (files : Files) (w : World) {f : Frame}
    (hres : f.call.resolved = true) :
    (∀ w' s, f.prepare files w [] = .next w' s → s.bottom.Tracked) ∧
      ∀ w' text s, f.prepare files w [] = .load w' text s → s.bottom.Tracked := by
  rcases Frame.prepare_cases files w f [] with ⟨e, -, hf⟩ | ⟨p, hp, hcases⟩
  · rw [hf]
    simp
  · rcases hcases with ⟨-, hf⟩ | ⟨path, -, -, hf⟩ | ⟨path, text, -, -, hf⟩
    · rw [hf]
      refine ⟨fun w' s hs => ?_, by simp⟩
      cases hs
      exact Frame.tracked_continueWith hres hp
    · rw [hf]
      simp
    · rw [hf]
      refine ⟨by simp, fun w' text s hs => ?_⟩
      cases hs
      exact Frame.tracked_continueWith hres hp

/-- **One step.** The bottom frame stays tracked, and if the machine halts with a value the call
that it was started with is marked. -/
theorem step_tracked {s : State} (h : s.bottom.Tracked) :
    (∀ w' s', step files w s = .next w' s' → s'.bottom.Tracked) ∧
      (∀ w' text s', step files w s = .load w' text s' → s'.bottom.Tracked) ∧
      ∀ w' v, step files w s = .halt w' (.ok v) →
        s.frame.call.resolved = true ∧ s.frame.call.prepared = true := by
  rcases s.eq_under with ⟨f, rfl | rfl⟩ | ⟨s0, b, rfl⟩
  · have hf : f.Tracked := h
    rw [step_enter_resolved hf.resolved hf.enter]
    refine ⟨fun w' s' hs => ?_, by simp, by simp⟩
    cases hs
    exact hf
  · have hf : f.Tracked := h
    cases harg : f.args[f.index]? with
    | none =>
      obtain ⟨w', r, hfin, -⟩ := f.finish_nil w
      rw [step_scan_finish harg, hfin]
      exact ⟨by simp, by simp, fun _ _ _ => ⟨hf.resolved, hf.prepared harg⟩⟩
    | some v =>
      cases hv : v.isCall with
      | true =>
        obtain ⟨c, rfl⟩ := Value.eq_call_of_isCall hv
        rw [step_scan_call harg]
        refine ⟨fun w' s' hs => ?_, by simp, by simp⟩
        cases hs
        exact hf
      | false =>
        cases hr : f.isReady f.index with
        | true =>
          rw [step_scan_ready harg hv hr]
          obtain ⟨hnext, hload⟩ := f.tracked_of_prepare files w hf.resolved
          exact ⟨hnext, hload, fun w' v hs => absurd hs (f.prepare_ne_halt_ok files w [] w' v)⟩
        | false =>
          rw [step_scan_pass harg hv hr]
          refine ⟨fun w' s' hs => ?_, by simp, by simp⟩
          cases hs
          exact hf.pass hr
  · -- above the bottom frame a step leaves it alone, unless it hands it a result
    rw [State.bottom_under] at h
    rcases step_under files w s0 b [] with ⟨w', v, -, hu⟩ | ⟨hne, hu⟩
    · rw [hu]
      refine ⟨fun w' s' hs => ?_, by simp, by simp⟩
      cases hs
      exact h.resume _ _
    · rw [hu]
      cases hs0 : step files w s0 with
      | next w1 s1 =>
        refine ⟨fun w' s' hs => ?_, by simp [Step.under], by simp [Step.under]⟩
        cases hs
        rw [State.bottom_under]
        exact h
      | load w1 text s1 =>
        refine ⟨by simp [Step.under], fun w' text s' hs => ?_, by simp [Step.under]⟩
        cases hs
        rw [State.bottom_under]
        exact h
      | halt w1 r =>
        refine ⟨by simp [Step.under], by simp [Step.under], fun w' v hs => ?_⟩
        cases hs
        exact absurd hs0 (hne w1 v)

/-- **A whole run.** The call that the machine was started with is marked when it is finished. -/
theorem Finishes.of_tracked {s : State} {w' : World} {c : Call} {v : Value}
    (h : Finishes files w s w' c v) (hs : s.bottom.Tracked) :
    c.resolved = true ∧ c.prepared = true := by
  induction h with
  | halt h => exact (step_tracked hs).2.2 _ _ h
  | next h _ ih => exact ih ((step_tracked hs).1 _ _ h)
  | load h _ _ ih => exact ih ((step_tracked hs).2.1 _ _ _ h)

/-- The first step of a call. -/
theorem step_start_tracked {c : Call} {scope : Scope}
    (hfresh : c.resolved = false ∧ c.prepared = false)
    (hdef : c.isDeferred = true → ∀ args, c.resolveArgs scope w.globals = .ok args →
      c.args.length ≤ args.length) :
    (∀ w' s', step files w (.start c scope) = .next w' s' → s'.bottom.Tracked) ∧
      (∀ w' text s', step files w (.start c scope) = .load w' text s' → s'.bottom.Tracked) ∧
      ∀ w' v, step files w (.start c scope) ≠ .halt w' (.ok v) := by
  unfold State.start
  cases hargs : c.resolveArgs scope w.globals with
  | error e =>
    rw [step_start_error hfresh.1 hargs]
    simp
  | ok args =>
    cases hp : c.canPrepare args (-1) with
    | true =>
      rw [step_start_ready hfresh.1 hfresh.2 hargs hp]
      obtain ⟨hnext, hload⟩ :=
        Frame.tracked_of_prepare files w (f := ⟨c.mark true false, args, 0, scope⟩) rfl
      exact ⟨hnext, hload, Frame.prepare_ne_halt_ok files w _ []⟩
    | false =>
      rw [step_start_scan hfresh.1 hfresh.2 hargs hp]
      refine ⟨fun w' s' hs => ?_, by simp, by simp⟩
      cases hs
      refine ⟨rfl, fun _ hd => hdef hd args hargs, fun _ he => ?_, fun _ i hi hlt => ?_⟩
      · obtain ⟨vs, -, -, hcheck⟩ := Call.resolveArgs_spec hargs
        exact (c.validate_mark true false args).trans (hcheck he)
      · have hi' : i = -1 := by
          have : i < ((0 : Nat) : Int) := hlt
          omega
        rw [hi']
        exact hp

/-- A finished call is marked as looked up and prepared. -/
theorem Finishes.marked {c finished : Call} {scope : Scope} {w' : World} {v : Value}
    (hfresh : c.resolved = false ∧ c.prepared = false)
    (hdef : c.isDeferred = true → ∀ args, c.resolveArgs scope w.globals = .ok args →
      c.args.length ≤ args.length)
    (h : Finishes files w (.start c scope) w' finished v) :
    finished.resolved = true ∧ finished.prepared = true := by
  obtain ⟨hnext, hload, hhalt⟩ := @step_start_tracked files w c scope hfresh hdef
  cases h with
  | halt h => exact absurd h (hhalt _ _)
  | next h ht => exact ht.of_tracked (hnext _ _ h)
  | load h _ ht => exact ht.of_tracked (hload _ _ _ h)

end Runs

end MiniLisp

import MiniLisp.Proofs.Runs

/-!
# What a run does not look at

A run adds to the text that is written and to the number of blocks that are started, and looks at
neither. So a run that starts later, with more written and more blocks started before it, is the
same run with that history in front: `step_after` says so for a step, and `drive_runBlocks_after`
for a whole run.
-/

namespace MiniLisp

/-! ## Worlds with a history -/

namespace World

/-- The world with a history: `text` was written and `blocks` blocks were started before. -/
def after (w : World) (text : String) (blocks : Nat) : World :=
  { w with output := text ++ w.output, executes := blocks + w.executes }

/-- The world without its history. -/
def fresh (w : World) : World :=
  { w with output := "", executes := 0 }

variable (w : World) (text : String) (blocks : Nat)

@[simp] theorem globals_after : (w.after text blocks).globals = w.globals := rfl

@[simp] theorem made_after : (w.after text blocks).made = w.made := rfl

@[simp] theorem globals_fresh : w.fresh.globals = w.globals := rfl

/-- A world is what it is without its history, put behind that history. -/
theorem fresh_after : w.fresh.after w.output w.executes = w := by
  simp [fresh, after]

theorem after_after (text' : String) (blocks' : Nat) :
    (w.after text blocks).after text' blocks' = w.after (text' ++ text) (blocks' + blocks) := by
  simp [after, String.append_assoc, Nat.add_assoc]

/-- Starting a block is a history of one block and no output. -/
theorem startBlock_eq_after : w.startBlock = w.after "" 1 := by
  simp [startBlock, after, Nat.add_comm]

theorem startBlock_after : (w.after text blocks).startBlock = w.startBlock.after text blocks := rfl

theorem write_after (s : String) :
    (w.after text blocks).write s = (w.write s).after text blocks := by
  simp [write, after, String.append_assoc]

end World

/-- The outcome with a history before the run. -/
def Outcome.after (o : Outcome) (text : String) (blocks : Nat) : Outcome :=
  ⟨o.world.after text blocks, o.result⟩

/-- The step with a history before it. -/
def Step.after (st : Step) (text : String) (blocks : Nat) : Step :=
  match st with
  | next w s => next (w.after text blocks) s
  | load w t s => load (w.after text blocks) t s
  | halt w r => halt (w.after text blocks) r

section Outcomes

variable {o : Outcome} {text : String} {blocks : Nat}

theorem Outcome.after_after (text' : String) (blocks' : Nat) :
    (o.after text blocks).after text' blocks' = o.after (text' ++ text) (blocks' + blocks) := by
  rw [Outcome.after, Outcome.after, World.after_after, Outcome.after]

@[simp] theorem Outcome.isFinal_after : (o.after text blocks).isFinal = o.isFinal := rfl

/-- The two parts of a run have the same history. -/
theorem Outcome.andThen_after {k k' : World → Value → Outcome}
    (hk : ∀ w v, k (w.after text blocks) v = (k' w v).after text blocks) :
    (o.after text blocks).andThen k = (o.andThen k').after text blocks := by
  obtain ⟨w, r⟩ := o
  cases r with
  | value v => exact hk w v
  | failed e => rfl
  | outOfFuel => rfl

end Outcomes

/-! ## Applying functions -/

section Apply

variable (w : World) (text : String) (blocks : Nat)

theorem World.writeValues_after (vs : List Value) :
    (w.after text blocks).writeValues vs =
      ((w.writeValues vs).1.after text blocks, (w.writeValues vs).2) := by
  induction vs generalizing w with
  | nil => rfl
  | cons v vs ih =>
    unfold World.writeValues
    cases v.printed with
    | error e => rfl
    | ok s =>
      cases vs with
      | nil =>
        dsimp only
        rw [World.write_after]
      | cons u vs =>
        dsimp only
        rw [World.write_after, ih]

theorem World.print_after (vs : List Value) :
    (w.after text blocks).print vs =
      ((w.print vs).1.after text blocks, (w.print vs).2) := by
  unfold World.print
  rw [World.writeValues_after]
  rcases w.writeValues vs with ⟨w1, r⟩
  cases r with
  | error e => rfl
  | ok u =>
    dsimp only
    rw [World.write_after]

/-- A definition neither writes nor starts a block, so it keeps the history. -/
theorem World.define_after (name : Value) (params : List Value) (variadic : Bool) (body : Value)
    (captures : Scope) :
    (w.after text blocks).define name params variadic body captures =
      ((w.define name params variadic body captures).1.after text blocks,
        (w.define name params variadic body captures).2) := by
  unfold World.define
  rw [World.globals_after, World.made_after]
  cases name.display with
  | error e => rfl
  | ok s =>
    dsimp only
    split
    · rfl
    · cases w.globals.insert name (.function (.user
        ⟨w.made, name, params, variadic, body, captures⟩)) <;> rfl

theorem Call.applyDefine_after (c : Call) (captures : Scope) (args : List Value) :
    c.applyDefine (w.after text blocks) captures args =
      ((c.applyDefine w captures args).1.after text blocks,
        (c.applyDefine w captures args).2) := by
  cases args with
  | nil => rfl
  | cons name params => exact w.define_after text blocks _ _ _ _ _

theorem Call.applyLambda_after (c : Call) (scope : Scope) (args : List Value) :
    c.applyLambda (w.after text blocks) scope args =
      ((c.applyLambda w scope args).1.after text blocks, (c.applyLambda w scope args).2) := by
  cases args with
  | nil => rfl
  | cons names params =>
    unfold Call.applyLambda
    dsimp only
    rw [World.globals_after]
    cases names.items? with
    | none => rfl
    | some items =>
      dsimp only
      cases capture scope w.globals c [] items with
      | error e => rfl
      | ok captures => exact c.applyDefine_after w text blocks captures _

/-- Applying a function does not look at the history. -/
theorem Call.apply_after (c : Call) (scope : Scope) (args : List Value) :
    c.apply (w.after text blocks) scope args =
      ((c.apply w scope args).1.after text blocks, (c.apply w scope args).2) := by
  unfold Call.apply
  split
  · exact w.print_after text blocks args
  · exact c.applyDefine_after w text blocks [] args
  · exact c.applyLambda_after w text blocks scope args
  · rfl
  · rfl

end Apply

/-! ## Runs -/

section Runs

variable (files : Files) (w : World) (text : String) (blocks : Nat)

/-- Preparing a frame is blind to the history of the world. -/
theorem Frame.prepare_after (f : Frame) (stack : List Frame) :
    f.prepare files (w.after text blocks) stack = (f.prepare files w stack).after text blocks := by
  unfold Frame.prepare
  rw [World.globals_after]
  cases f.call.prepare f.scope w.globals f.args with
  | error e => rfl
  | ok p =>
    cases hl : p.load with
    | none => simp only [hl]; rfl
    | some path =>
      simp only [hl]
      cases files.read? path <;> rfl

/-- Finishing a frame is blind to the history of the world. -/
theorem Frame.finish_after (f : Frame) (stack : List Frame) :
    f.finish (w.after text blocks) stack = (f.finish w stack).after text blocks := by
  unfold Frame.finish
  cases f.checkLate with
  | error e => rfl
  | ok u =>
    dsimp only
    rw [Call.apply_after]
    rcases f.call.apply w f.scope f.args with ⟨w1, r⟩
    cases r with
    | error e => rfl
    | ok v => cases stack <;> rfl

/-- **A step** does not look at the history. -/
theorem step_after (s : State) :
    step files (w.after text blocks) s = (step files w s).after text blocks := by
  cases s with
  | enter f stack =>
    rw [step, step, World.globals_after]
    cases f.resolve w.globals with
    | error e => rfl
    | ok g =>
      dsimp only
      split
      · exact g.prepare_after files w text blocks stack
      · rfl
  | scan f stack =>
    cases harg : f.args[f.index]? with
    | none =>
      rw [step_scan_finish harg, step_scan_finish harg]
      exact f.finish_after w text blocks stack
    | some v =>
      cases hv : v.isCall with
      | true =>
        obtain ⟨c, rfl⟩ := Value.eq_call_of_isCall hv
        rw [step_scan_call harg, step_scan_call harg]
        rfl
      | false =>
        rw [step_scan_value harg hv, step_scan_value harg hv]
        split
        · exact f.prepare_after files w text blocks stack
        · rfl

/-- **A whole run** does not look at the history, and neither do the blocks of a text. -/
theorem drive_runBlocks_after (n : Nat) :
    (∀ w s, drive files n (w.after text blocks) s = (drive files n w s).after text blocks) ∧
      ∀ w last cs, runBlocks files n (w.after text blocks) last cs =
        (runBlocks files n w last cs).after text blocks := by
  -- both loops at once, since each starts the other with less fuel
  induction n with
  | zero =>
    refine ⟨fun w s => ?_, fun w last cs => ?_⟩
    · rw [drive_zero, drive_zero]
      rfl
    · rw [runBlocks_zero, runBlocks_zero]
      rfl
  | succ n ih =>
    obtain ⟨ihd, ihb⟩ := ih
    refine ⟨fun w s => ?_, fun w last cs => ?_⟩
    · have hafter := step_after files w text blocks s
      cases hs : step files w s with
      | next w1 s1 =>
        rw [hs] at hafter
        rw [drive_succ_next hs, drive_succ_next hafter, ihd]
      | halt w1 r =>
        rw [hs] at hafter
        rw [drive_succ_halt hs, drive_succ_halt hafter]
        cases r <;> rfl
      | load w1 t s1 =>
        rw [hs] at hafter
        rw [drive_succ_load hs, drive_succ_load hafter, ihb]
        exact Outcome.andThen_after fun w2 _ => ihd w2 s1
    · cases cs with
      | nil =>
        rw [runBlocks_succ_nil, runBlocks_succ_nil]
        rfl
      | cons c cs =>
        have hread : readCall (w.after text blocks).globals (c :: cs) =
            readCall w.globals (c :: cs) := rfl
        cases hr : readCall w.globals (c :: cs) with
        | error e =>
          rw [runBlocks_succ_error (by simp) hr, runBlocks_succ_error (by simp) (hread.trans hr)]
          rfl
        | ok r =>
          obtain ⟨call, rest⟩ := r
          rw [runBlocks_succ_ok (by simp) hr, runBlocks_succ_ok (by simp) (hread.trans hr),
            World.startBlock_after, ihd]
          exact Outcome.andThen_after fun w1 v => ihb w1 v rest

variable {files w text blocks}

/-- A run with a history before it ends as the run does, with that history. -/
theorem endsWith_after_iff {run run' : Nat → Outcome} {o : Outcome}
    (h : ∀ n, run n = (run' n).after text blocks) :
    EndsWith run o ↔ ∃ o', EndsWith run' o' ∧ o = o'.after text blocks := by
  constructor
  · rintro ⟨hf, n, rfl⟩
    rw [h] at hf
    exact ⟨run' n, ⟨hf, n, rfl⟩, h n⟩
  · rintro ⟨o', ⟨hf, n, rfl⟩, rfl⟩
    exact ⟨hf, n, h n⟩

/-- What happened before a run is added to its outcome, and changes nothing else. -/
theorem ends_after_iff {s : State} {o : Outcome} :
    Ends files (w.after text blocks) s o ↔ ∃ o', Ends files w s o' ∧ o = o'.after text blocks :=
  endsWith_after_iff fun n => (drive_runBlocks_after files text blocks n).1 w s

/-- What happened before a text ran is added to its outcome, and changes nothing else. -/
theorem blocksEnd_after_iff {last : Value} {cs : List Char} {o : Outcome} :
    BlocksEnd files (w.after text blocks) last cs o ↔
      ∃ o', BlocksEnd files w last cs o' ∧ o = o'.after text blocks :=
  endsWith_after_iff fun n => (drive_runBlocks_after files text blocks n).2 w last cs

end Runs

end MiniLisp

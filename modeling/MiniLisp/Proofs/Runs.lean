import MiniLisp.Eval.Machine

/-!
# How runs end

A run is given fuel, and running out of it is no end. This module says what it means that a run
ends with an outcome, shows that more fuel never changes an end, and gives one rule for each way a
machine or a text goes on: `ends_next_iff`, `ends_halt_iff`, `ends_load_iff` for the machine,
`blocksEnd_nil_iff` and `blocksEnd_cons_iff` for the blocks of a text.
-/

namespace MiniLisp

/-! ## Outcomes -/

namespace Outcome

/-- Whether an outcome is the end of a run. -/
def isFinal (o : Outcome) : Bool :=
  match o.result with
  | .outOfFuel => false
  | _ => true

@[simp] theorem isFinal_value (w : World) (v : Value) : isFinal ⟨w, .value v⟩ = true := rfl

@[simp] theorem isFinal_failed (w : World) (e : Error) : isFinal ⟨w, .failed e⟩ = true := rfl

@[simp] theorem isFinal_outOfFuel (w : World) : isFinal ⟨w, .outOfFuel⟩ = false := rfl

@[simp] theorem isFinal_ofExcept (w : World) (r : Except Error Value) :
    (ofExcept w r).isFinal = true := by
  cases r <;> rfl

/-- Whether an outcome is a value. -/
def isValue (o : Outcome) : Bool :=
  match o.result with
  | .value _ => true
  | _ => false

theorem exists_value {o : Outcome} (h : o.isValue = true) : ∃ v, o = ⟨o.world, .value v⟩ := by
  obtain ⟨w, r⟩ := o
  cases r with
  | value v => exact ⟨v, rfl⟩
  | _ => cases h

/-- Goes on with the value of an outcome, if it has one. -/
def andThen (o : Outcome) (k : World → Value → Outcome) : Outcome :=
  match o with
  | ⟨w, .value v⟩ => k w v
  | o => o

@[simp] theorem andThen_value (w : World) (v : Value) (k : World → Value → Outcome) :
    andThen ⟨w, .value v⟩ k = k w v := rfl

@[simp] theorem andThen_failed (w : World) (e : Error) (k : World → Value → Outcome) :
    andThen ⟨w, .failed e⟩ k = ⟨w, .failed e⟩ := rfl

@[simp] theorem andThen_outOfFuel (w : World) (k : World → Value → Outcome) :
    andThen ⟨w, .outOfFuel⟩ k = ⟨w, .outOfFuel⟩ := rfl

/-- An end of a composed run is a failure of its first part or an end of its second. -/
theorem andThen_eq_iff {o o' : Outcome} {k : World → Value → Outcome} (ho : o'.isFinal = true) :
    o.andThen k = o' ↔
      (∃ w e, o' = ⟨w, .failed e⟩ ∧ o = o') ∨ (∃ w v, o = ⟨w, .value v⟩ ∧ k w v = o') := by
  obtain ⟨w, r⟩ := o
  cases r with
  | value v =>
    rw [andThen_value]
    constructor
    · intro h
      exact Or.inr ⟨w, v, rfl, h⟩
    · rintro (⟨w', e, rfl, h⟩ | ⟨w', v', h, hk⟩)
      · cases h
      · cases h
        exact hk
  | failed e =>
    rw [andThen_failed]
    constructor
    · intro h
      exact Or.inl ⟨w, e, h.symm, h⟩
    · rintro (⟨w', e', -, h⟩ | ⟨w', v', h, -⟩)
      · exact h
      · cases h
  | outOfFuel =>
    rw [andThen_outOfFuel]
    constructor
    · intro h
      rw [← h] at ho
      cases ho
    · rintro (⟨w', e', -, h⟩ | ⟨w', v', h, -⟩)
      · exact h
      · cases h

/-- A composed run stays as it is with more fuel if both its parts do. -/
theorem andThen_stay {o o' : Outcome} {k k' : World → Value → Outcome}
    (ho : o.isFinal = true → o' = o)
    (hk : ∀ w v, (k w v).isFinal = true → k' w v = k w v)
    (h : (o.andThen k).isFinal = true) : o'.andThen k' = o.andThen k := by
  obtain ⟨w, r⟩ := o
  cases r with
  | value v => rw [ho rfl]; exact hk w v h
  | failed e => rw [ho rfl]; rfl
  | outOfFuel => cases h

end Outcome

/-! ## Ends of runs -/

/-- A run, given as what each amount of fuel leads to, ends with an outcome. -/
def EndsWith (run : Nat → Outcome) (o : Outcome) : Prop :=
  o.isFinal = true ∧ ∃ fuel, run fuel = o

/-- Two runs end alike: one ends whenever the other does, and with the same outcome. -/
def EndAlike (run run' : Nat → Outcome) : Prop :=
  ∀ o, EndsWith run o ↔ EndsWith run' o

/-- A run that has ended stays as it is with more fuel. -/
def Steady (run : Nat → Outcome) : Prop :=
  ∀ n, (run n).isFinal = true → run (n + 1) = run n

/-- More fuel than enough changes nothing. -/
theorem Steady.le {run : Nat → Outcome} (h : Steady run) {n m : Nat} (hnm : n ≤ m)
    (hn : (run n).isFinal = true) : run m = run n := by
  induction hnm with
  | refl => rfl
  | step _ ih => rw [h _ (by rw [ih]; exact hn), ih]

/-- A run ends in one way only. -/
theorem EndsWith.unique {run : Nat → Outcome} (h : Steady run) {o o' : Outcome}
    (ho : EndsWith run o) (ho' : EndsWith run o') : o = o' := by
  obtain ⟨hf, n, rfl⟩ := ho
  obtain ⟨hf', m, rfl⟩ := ho'
  rcases Nat.le_total n m with hnm | hmn
  · exact (h.le hnm hf).symm
  · exact h.le hmn hf'

/-- The first unit of fuel does not matter to where a run ends. -/
theorem endsWith_succ_iff {run run' : Nat → Outcome} {o : Outcome}
    (h0 : (run 0).isFinal = false) (hs : ∀ n, run (n + 1) = run' n) :
    EndsWith run o ↔ EndsWith run' o := by
  constructor
  · rintro ⟨hf, n, rfl⟩
    cases n with
    | zero => rw [h0] at hf; cases hf
    | succ n => exact ⟨hf, n, (hs n).symm⟩
  · rintro ⟨hf, n, rfl⟩
    exact ⟨hf, n + 1, hs n⟩

/-- A run that ends at once. -/
theorem endsWith_const_iff {o o' : Outcome} (h : o.isFinal = true) :
    EndsWith (fun _ => o) o' ↔ o' = o := by
  constructor
  · rintro ⟨-, -, rfl⟩
    rfl
  · rintro rfl
    exact ⟨h, 0, rfl⟩

/-- A run in two parts fails with the first or ends with the second. -/
theorem endsWith_andThen_iff {run : Nat → Outcome} {k : World → Value → Nat → Outcome}
    (hrun : Steady run) (hk : ∀ w v, Steady (k w v)) {o : Outcome} :
    EndsWith (fun n => (run n).andThen fun w v => k w v n) o ↔
      (∃ w e, o = ⟨w, .failed e⟩ ∧ EndsWith run o) ∨
        (∃ w v, EndsWith run ⟨w, .value v⟩ ∧ EndsWith (k w v) o) := by
  constructor
  · rintro ⟨hf, n, hn⟩
    rcases (Outcome.andThen_eq_iff hf).mp hn with ⟨w, e, ho, hr⟩ | ⟨w, v, hr, hkn⟩
    · exact Or.inl ⟨w, e, ho, hf, n, hr⟩
    · exact Or.inr ⟨w, v, ⟨rfl, n, hr⟩, hf, n, hkn⟩
  · rintro (⟨w, e, rfl, hf, n, hn⟩ | ⟨w, v, ⟨hf, n, hn⟩, hf', m, hm⟩)
    · exact ⟨hf, n, (Outcome.andThen_eq_iff hf).mpr (Or.inl ⟨w, e, rfl, hn⟩)⟩
    · -- the longer of the two runs has fuel for both parts
      refine ⟨hf', max n m, (Outcome.andThen_eq_iff hf').mpr (Or.inr ⟨w, v, ?_, ?_⟩)⟩
      · rw [hrun.le (Nat.le_max_left n m) (by rw [hn]; exact hf), hn]
      · rw [(hk w v).le (Nat.le_max_right n m) (by rw [hm]; exact hf'), hm]

/-! ## Steps -/

/-- Whether a value is a call that still has to be run. -/
def Value.isCall : Value → Bool
  | .call _ => true
  | _ => false

theorem Value.eq_call_of_isCall {v : Value} (h : v.isCall = true) : ∃ c, v = .call c := by
  cases v with
  | call c => exact ⟨c, rfl⟩
  | _ => cases h

section Steps

variable {files : Files} {w : World} {f g : Frame} {stack : List Frame}

theorem step_enter_error {e : Error} (h : f.resolve w.globals = .error e) :
    step files w (.enter f stack) = .halt w (.error e) := by
  rw [step, h]

/-- A frame whose call can be prepared at once is prepared on entry. -/
theorem step_enter_ready (h : f.resolve w.globals = .ok g) (hr : g.isReady (-1) = true) :
    step files w (.enter f stack) = g.prepare files w stack := by
  rw [step, h]
  exact if_pos hr

/-- Any other frame starts to look through its arguments. -/
theorem step_enter_scan (h : f.resolve w.globals = .ok g) (hr : g.isReady (-1) = false) :
    step files w (.enter f stack) = .next w (.scan g stack) := by
  rw [step, h]
  exact if_neg (by simp [hr])

/-- An argument that is a call is entered, and the frame waits below it. -/
theorem step_scan_call {c : Call} (h : f.args[f.index]? = some (.call c)) :
    step files w (.scan f stack) =
      .next w (.enter (.enter c f.args f.scope) (f :: stack)) := by
  rw [step, h]

/-- An argument that is no call either lets the function do its work or is passed over. -/
theorem step_scan_value {v : Value} (h : f.args[f.index]? = some v) (hv : v.isCall = false) :
    step files w (.scan f stack) =
      if f.isReady f.index then f.prepare files w stack
      else .next w (.scan { f with index := f.index + 1 } stack) := by
  rw [step, h]
  cases v with
  | call c => cases hv
  | _ => rfl

/-- A value after which the call can be prepared ends the look through the arguments. -/
theorem step_scan_ready {v : Value} (h : f.args[f.index]? = some v) (hv : v.isCall = false)
    (hr : f.isReady f.index = true) :
    step files w (.scan f stack) = f.prepare files w stack := by
  rw [step_scan_value h hv, if_pos hr]

/-- Any other value is passed. -/
theorem step_scan_pass {v : Value} (h : f.args[f.index]? = some v) (hv : v.isCall = false)
    (hr : f.isReady f.index = false) :
    step files w (.scan f stack) = .next w (.scan { f with index := f.index + 1 } stack) := by
  rw [step_scan_value h hv, if_neg (by simp [hr])]

theorem step_scan_finish (h : f.args[f.index]? = none) :
    step files w (.scan f stack) = f.finish w stack := by
  rw [step, h]

end Steps

/-! ## One unit of fuel -/

section Equations

variable {files : Files} {w w' : World} {s s' : State} {n : Nat}

theorem drive_zero : drive files 0 w s = ⟨w, .outOfFuel⟩ := by
  rw [drive]

theorem drive_succ_next (h : step files w s = .next w' s') :
    drive files (n + 1) w s = drive files n w' s' := by
  rw [drive, h]

theorem drive_succ_halt {r : Except Error Value} (h : step files w s = .halt w' r) :
    drive files (n + 1) w s = Outcome.ofExcept w' r := by
  rw [drive, h]

/-- An import runs the text of the file, and the run goes on in the world that leaves. -/
theorem drive_succ_load {text : List Char} (h : step files w s = .load w' text s') :
    drive files (n + 1) w s =
      (runBlocks files n w' .none (Source.normalise text)).andThen fun w _ =>
        drive files n w s' := by
  rw [drive, h]
  dsimp only
  rcases runBlocks files n w' .none (Source.normalise text) with ⟨w1, r⟩
  cases r <;> rfl

theorem runBlocks_zero {last : Value} {cs : List Char} :
    runBlocks files 0 w last cs = ⟨w, .outOfFuel⟩ := by
  rw [runBlocks]

theorem runBlocks_succ_nil {last : Value} :
    runBlocks files (n + 1) w last [] = ⟨w, .value last⟩ := by
  rw [runBlocks]

theorem runBlocks_succ_error {last : Value} {cs : List Char} {e : Error} (hne : cs ≠ [])
    (h : readCall w.globals cs = .error e) :
    runBlocks files (n + 1) w last cs = ⟨w, .failed e⟩ := by
  obtain ⟨c, cs, rfl⟩ := List.exists_cons_of_ne_nil hne
  rw [runBlocks, h]

/-- A text runs its first call as a block, and then the rest of itself. -/
theorem runBlocks_succ_ok {last : Value} {cs rest : List Char} {c : Call} (hne : cs ≠ [])
    (h : readCall w.globals cs = .ok (c, rest)) :
    runBlocks files (n + 1) w last cs =
      (drive files n w.startBlock (.start c [])).andThen fun w v =>
        runBlocks files n w v rest := by
  obtain ⟨d, cs, rfl⟩ := List.exists_cons_of_ne_nil hne
  rw [runBlocks, h]
  dsimp only
  rcases drive files n w.startBlock (.start c []) with ⟨w1, r⟩
  cases r <;> rfl

end Equations

/-- More fuel changes neither the end of the machine nor that of a text. -/
theorem drive_runBlocks_steady (files : Files) (n : Nat) :
    (∀ w s, (drive files n w s).isFinal = true →
        drive files (n + 1) w s = drive files n w s) ∧
      (∀ w last cs, (runBlocks files n w last cs).isFinal = true →
        runBlocks files (n + 1) w last cs = runBlocks files n w last cs) := by
  -- both loops at once, since each starts the other with less fuel
  induction n with
  | zero =>
    refine ⟨fun w s h => ?_, fun w last cs h => ?_⟩
    · rw [drive_zero] at h; cases h
    · rw [runBlocks_zero] at h; cases h
  | succ n ih =>
    obtain ⟨ihd, ihb⟩ := ih
    refine ⟨fun w s h => ?_, fun w last cs h => ?_⟩
    · cases hs : step files w s with
      | next w' s' =>
        rw [drive_succ_next hs] at h ⊢
        rw [drive_succ_next hs]
        exact ihd w' s' h
      | halt w' r => rw [drive_succ_halt hs, drive_succ_halt hs]
      | load w' text s' =>
        rw [drive_succ_load hs] at h ⊢
        rw [drive_succ_load hs]
        exact Outcome.andThen_stay (ihb w' .none _) (fun w1 _ => ihd w1 s') h
    · cases cs with
      | nil => rw [runBlocks_succ_nil, runBlocks_succ_nil]
      | cons c cs =>
        cases hc : readCall w.globals (c :: cs) with
        | error e =>
          rw [runBlocks_succ_error (by simp) hc, runBlocks_succ_error (by simp) hc]
        | ok r =>
          obtain ⟨call, rest⟩ := r
          rw [runBlocks_succ_ok (by simp) hc] at h ⊢
          rw [runBlocks_succ_ok (by simp) hc]
          exact Outcome.andThen_stay (ihd _ _) (fun w1 v => ihb w1 v rest) h

/-- A machine run that has ended is not changed by more fuel. -/
theorem drive_steady (files : Files) (w : World) (s : State) :
    Steady fun n => drive files n w s :=
  fun n => (drive_runBlocks_steady files n).1 w s

/-- A run of a text that has ended is not changed by more fuel. -/
theorem runBlocks_steady (files : Files) (w : World) (last : Value) (cs : List Char) :
    Steady fun n => runBlocks files n w last cs :=
  fun n => (drive_runBlocks_steady files n).2 w last cs

/-! ## Rules -/

/-- The machine, started in a state, ends with an outcome. -/
def Ends (files : Files) (w : World) (s : State) (o : Outcome) : Prop :=
  EndsWith (fun n => drive files n w s) o

/-- The blocks of a text end with an outcome. -/
def BlocksEnd (files : Files) (w : World) (last : Value) (cs : List Char) (o : Outcome) : Prop :=
  EndsWith (fun n => runBlocks files n w last cs) o

section Rules

variable {files : Files} {w w' : World} {s s' : State} {o o' : Outcome}

/-- A state ends in one outcome. -/
theorem Ends.unique (h : Ends files w s o) (h' : Ends files w s o') : o = o' :=
  EndsWith.unique (drive_steady files w s) h h'

theorem Ends.iff_eq (h : Ends files w s o) : Ends files w s o' ↔ o' = o := by
  constructor
  · exact fun h' => h'.unique h
  · rintro rfl
    exact h

/-- A step does not change how a state ends. -/
theorem ends_next_iff (h : step files w s = .next w' s') :
    Ends files w s o ↔ Ends files w' s' o := by
  refine endsWith_succ_iff ?_ fun n => drive_succ_next h
  rw [drive_zero]
  rfl

theorem ends_halt_iff {r : Except Error Value} (h : step files w s = .halt w' r) :
    Ends files w s o ↔ o = Outcome.ofExcept w' r := by
  refine (endsWith_succ_iff ?_ fun n => drive_succ_halt h).trans (endsWith_const_iff (by simp))
  rw [drive_zero]
  rfl

/-- A state that imports a file ends as the file fails, or as it goes on after the file. -/
theorem ends_load_iff {text : List Char} (h : step files w s = .load w' text s') :
    Ends files w s o ↔
      (∃ w1 e, o = ⟨w1, .failed e⟩ ∧ BlocksEnd files w' .none (Source.normalise text) o) ∨
        (∃ w1 v, BlocksEnd files w' .none (Source.normalise text) ⟨w1, .value v⟩ ∧
          Ends files w1 s' o) := by
  refine (endsWith_succ_iff ?_ fun n => drive_succ_load h).trans
    (endsWith_andThen_iff (runBlocks_steady files _ _ _) fun w1 _ => drive_steady files w1 s')
  rw [drive_zero]
  rfl

theorem blocksEnd_nil_iff {last : Value} :
    BlocksEnd files w last [] o ↔ o = ⟨w, .value last⟩ := by
  refine (endsWith_succ_iff ?_ fun n => runBlocks_succ_nil).trans (endsWith_const_iff rfl)
  rw [runBlocks_zero]
  rfl

theorem blocksEnd_error_iff {last : Value} {cs : List Char} {e : Error} (hne : cs ≠ [])
    (h : readCall w.globals cs = .error e) :
    BlocksEnd files w last cs o ↔ o = ⟨w, .failed e⟩ := by
  refine (endsWith_succ_iff ?_ fun n => runBlocks_succ_error hne h).trans (endsWith_const_iff rfl)
  rw [runBlocks_zero]
  rfl

/-- A text ends as its first call fails, or as the rest of it ends after that call. -/
theorem blocksEnd_cons_iff {last : Value} {cs rest : List Char} {c : Call} (hne : cs ≠ [])
    (h : readCall w.globals cs = .ok (c, rest)) :
    BlocksEnd files w last cs o ↔
      (∃ w1 e, o = ⟨w1, .failed e⟩ ∧ Ends files w.startBlock (.start c []) o) ∨
        (∃ w1 v, Ends files w.startBlock (.start c []) ⟨w1, .value v⟩ ∧
          BlocksEnd files w1 v rest o) := by
  refine (endsWith_succ_iff ?_ fun n => runBlocks_succ_ok hne h).trans
    (endsWith_andThen_iff (drive_steady files _ _) fun w1 v => runBlocks_steady files w1 v rest)
  rw [runBlocks_zero]
  rfl

end Rules

end MiniLisp

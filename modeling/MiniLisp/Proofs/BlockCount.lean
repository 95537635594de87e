import Mathlib
import MiniLisp.Proofs.Composition
import MiniLisp.Proofs.Invariants
import MiniLisp.Proofs.Kinds.Application

/-!
# How many blocks are started

The world counts the blocks that have been started. A step of the machine leaves this number as it
is (`step_executes`), however deep the calls are nested: only a new machine counts, and there is one
for each block of a text. So the number grows by the blocks of the text that are read and started,
and for every file that these import by the same number for the text of the file. `blockCount` is
the number that is found in this way, and `executes_runText` says that it is what the world counts,
at any moment of a run and however the run ends.
-/

namespace MiniLisp

open Source

/-! ## Blocks and imports of a run -/

/-- The text of a file that is run during a run: the world in which it starts and the fuel that is
left for it. -/
structure Imported where
  fuel : Nat
  world : World
  text : List Char

/-- A block that is started: its call, the world in which it starts and the fuel that is left for
it. -/
structure StartedBlock where
  fuel : Nat
  world : World
  call : Call

/-- What comes behind an outcome: nothing, unless it is a value. -/
def Outcome.followedBy {α : Type} (o : Outcome) (k : World → List α) : List α :=
  match o with
  | ⟨w, .value _⟩ => k w
  | _ => []

/-- The files that are imported while the machine runs, in their order. Those that they import in
turn are not among them. -/
def importsOf (files : Files) : (fuel : Nat) → World → State → List Imported
  | 0, _, _ => []
  | fuel + 1, w, s =>
    match step files w s with
    | .next w s => importsOf files fuel w s
    | .halt _ _ => []
    | .load w text s =>
      ⟨fuel, w, text⟩ :: (runText files fuel w text).followedBy fun w => importsOf files fuel w s

/-- The blocks of a normalised text that are read and started, in their order. -/
def startedBlocks (files : Files) : (fuel : Nat) → World → List Char → List StartedBlock
  | 0, _, _ => []
  | _ + 1, _, [] => []
  | fuel + 1, w, c :: cs =>
    match readCall w.globals (c :: cs) with
    | .error _ => []
    | .ok (call, rest) =>
      ⟨fuel, w.startBlock, call⟩ :: (drive files fuel w.startBlock (.start call [])).followedBy
        fun w => startedBlocks files fuel w rest

/-- The files that are imported while a block runs. -/
def StartedBlock.imports (files : Files) (b : StartedBlock) : List Imported :=
  importsOf files b.fuel b.world (.start b.call [])

/-- The files that the blocks of a text import. -/
def importsOfText (files : Files) (n : Nat) (w : World) (text : List Char) : List Imported :=
  (startedBlocks files n w (normalise text)).flatMap (·.imports files)

section Equations

variable {files : Files} {w w' : World} {s s' : State} {n : Nat} {cs rest text : List Char}

theorem importsOf_next (h : step files w s = .next w' s') :
    importsOf files (n + 1) w s = importsOf files n w' s' := by
  rw [importsOf, h]

theorem importsOf_halt {r : Except Error Value} (h : step files w s = .halt w' r) :
    importsOf files (n + 1) w s = [] := by
  rw [importsOf, h]

theorem importsOf_load (h : step files w s = .load w' text s') :
    importsOf files (n + 1) w s = ⟨n, w', text⟩ ::
      (runText files n w' text).followedBy fun w => importsOf files n w s' := by
  rw [importsOf, h]

theorem startedBlocks_error {e : Error} (h : readCall w.globals cs = .error e) :
    startedBlocks files (n + 1) w cs = [] := by
  cases cs with
  | nil => rw [startedBlocks]
  | cons c cs => rw [startedBlocks, h]

theorem startedBlocks_ok {c : Call} (h : readCall w.globals cs = .ok (c, rest)) :
    startedBlocks files (n + 1) w cs = ⟨n, w.startBlock, c⟩ ::
      (drive files n w.startBlock (.start c [])).followedBy fun w =>
        startedBlocks files n w rest := by
  obtain ⟨d, cs, rfl⟩ := List.exists_cons_of_ne_nil (ne_nil_of_readCall h)
  rw [startedBlocks, h]

/-- What follows an outcome happens in some world. -/
theorem Outcome.mem_followedBy {α : Type} {o : Outcome} {k : World → List α} {a : α}
    (h : a ∈ o.followedBy k) : ∃ w, a ∈ k w := by
  obtain ⟨w, r⟩ := o
  cases r with
  | value v => exact ⟨w, h⟩
  | _ => cases h

end Equations

/-! ## Less and less fuel -/

/-- A file is imported on less fuel than the call that imports it. -/
theorem fuel_lt_of_mem_importsOf {files : Files} {n : Nat} {w : World} {s : State} {i : Imported}
    (hi : i ∈ importsOf files n w s) : i.fuel < n := by
  induction n generalizing w s with
  | zero => cases hi
  | succ n ih =>
    cases h : step files w s with
    | next w1 s1 =>
      rw [importsOf_next h] at hi
      exact Nat.lt_succ_of_lt (ih hi)
    | halt w1 r =>
      rw [importsOf_halt h] at hi
      cases hi
    | load w1 text s1 =>
      rw [importsOf_load h] at hi
      rcases List.mem_cons.mp hi with rfl | hi
      · exact Nat.lt_succ_self n
      · obtain ⟨w2, hi⟩ := Outcome.mem_followedBy hi
        exact Nat.lt_succ_of_lt (ih hi)

/-- A block runs on less fuel than its text. -/
theorem fuel_lt_of_mem_startedBlocks {files : Files} {n : Nat} {w : World} {cs : List Char}
    {b : StartedBlock} (hb : b ∈ startedBlocks files n w cs) : b.fuel < n := by
  induction n generalizing w cs with
  | zero => cases hb
  | succ n ih =>
    cases h : readCall w.globals cs with
    | error e =>
      rw [startedBlocks_error h] at hb
      cases hb
    | ok r =>
      rw [startedBlocks_ok h] at hb
      rcases List.mem_cons.mp hb with rfl | hb
      · exact Nat.lt_succ_self n
      · obtain ⟨w1, hb⟩ := Outcome.mem_followedBy hb
        exact Nat.lt_succ_of_lt (ih hb)

/-- A file is imported on less fuel than the text that imports it. -/
theorem fuel_lt_of_mem_importsOfText {files : Files} {n : Nat} {w : World} {text : List Char}
    {i : Imported} (hi : i ∈ importsOfText files n w text) : i.fuel < n := by
  obtain ⟨b, hb, hi⟩ := List.mem_flatMap.mp hi
  exact Nat.lt_trans (fuel_lt_of_mem_importsOf hi) (fuel_lt_of_mem_startedBlocks hb)

/-! ## The count -/

/-- The number of blocks of a text that are read and started, and for every file that they import
the same number for the text of the file. -/
def blockCount (files : Files) (n : Nat) (w : World) (text : List Char) : Nat :=
  (startedBlocks files n w (normalise text)).length +
    ((importsOfText files n w text).attach.map fun i =>
      blockCount files i.1.fuel i.1.world i.1.text).sum
termination_by n
decreasing_by exact fuel_lt_of_mem_importsOfText i.2

/-- The number of blocks that some imports start. -/
def importCount (files : Files) (imports : List Imported) : Nat :=
  (imports.map fun i => blockCount files i.fuel i.world i.text).sum

/-- The number of blocks that are started with some blocks: these and those that they import. -/
def startedCount (files : Files) (blocks : List StartedBlock) : Nat :=
  blocks.length + importCount files (blocks.flatMap (·.imports files))

/-- The count of a text is the count of the blocks it starts. -/
theorem blockCount_eq (files : Files) (n : Nat) (w : World) (text : List Char) :
    blockCount files n w text = startedCount files (startedBlocks files n w (normalise text)) := by
  have hattach : (importsOfText files n w text).attach.map (fun i =>
      blockCount files i.1.fuel i.1.world i.1.text) =
        (importsOfText files n w text).map fun i => blockCount files i.fuel i.world i.text :=
    @List.attach_map_val _ _ _ fun i : Imported => blockCount files i.fuel i.world i.text
  rw [blockCount, hattach]
  rfl

theorem importCount_cons (files : Files) (i : Imported) (imports : List Imported) :
    importCount files (i :: imports) =
      blockCount files i.fuel i.world i.text + importCount files imports := by
  rw [importCount, List.map_cons, List.sum_cons, importCount]

/-- The counts of two runs of imports add up. -/
theorem importCount_append (files : Files) (front back : List Imported) :
    importCount files (front ++ back) = importCount files front + importCount files back := by
  rw [importCount, List.map_append, List.sum_append, importCount, importCount]

/-- A block counts for itself and for the files its call imports. -/
theorem startedCount_cons (files : Files) (b : StartedBlock) (blocks : List StartedBlock) :
    startedCount files (b :: blocks) =
      1 + importCount files (b.imports files) + startedCount files blocks := by
  rw [startedCount, startedCount, List.flatMap_cons, importCount_append, List.length_cons]
  omega

/-! ## Steps -/

section Steps

variable {w w' : World} {c : Call} {scope : Scope} {args : List Value} {r : Except Error Value}

/-- Applying a function starts no block. -/
theorem Call.executes_apply (h : c.apply w scope args = (w', r)) : w'.executes = w.executes := by
  rcases Call.apply_cases h with rfl | ⟨text, rfl⟩ | ⟨k, d, globals, -, -, rfl⟩
  · rfl
  · rfl
  · rfl

/-- **A step starts no block**, whatever call is entered, prepared or applied. -/
theorem step_executes (files : Files) (w : World) (s : State) :
    (step files w s).Satisfies (fun w' => w'.executes = w.executes) fun _ => True :=
  step_satisfies (G := fun w' => w'.executes = w.executes) rfl fun _ _ _ _ _ => Call.executes_apply

end Steps

/-! ## Runs -/

/-- What two parts of a run count is counted one after the other. -/
theorem Outcome.executes_andThen {α : Type} {o : Outcome} {k : World → Value → Outcome}
    {l : World → List α} {size : List α → Nat} (hnil : size [] = 0)
    (hk : ∀ w v, (k w v).world.executes = w.executes + size (l w)) :
    (o.andThen k).world.executes = o.world.executes + size (o.followedBy l) := by
  obtain ⟨w, r⟩ := o
  cases r with
  | value v => exact hk w v
  | failed e =>
    show w.executes = w.executes + size []
    rw [hnil, Nat.add_zero]
  | outOfFuel =>
    show w.executes = w.executes + size []
    rw [hnil, Nat.add_zero]

/-- **A run starts the blocks that its imports start**, and running the blocks of a text starts
these and what they import. -/
theorem executes_drive_runBlocks (files : Files) (n : Nat) :
    (∀ w s, (drive files n w s).world.executes =
        w.executes + importCount files (importsOf files n w s)) ∧
      ∀ w last cs, (runBlocks files n w last cs).world.executes =
        w.executes + startedCount files (startedBlocks files n w cs) := by
  -- both loops at once, since each starts the other with less fuel
  induction n with
  | zero =>
    refine ⟨fun w s => ?_, fun w last cs => ?_⟩
    · rw [drive_zero]
      rfl
    · rw [runBlocks_zero]
      rfl
  | succ n ih =>
    obtain ⟨ihd, ihb⟩ := ih
    refine ⟨fun w s => ?_, fun w last cs => ?_⟩
    · have hstep := step_executes files w s
      cases h : step files w s with
      | next w1 s1 =>
        rw [h] at hstep
        rw [drive_succ_next h, importsOf_next h, ihd, hstep.1]
      | halt w1 r =>
        rw [h] at hstep
        rw [drive_succ_halt h, importsOf_halt h]
        cases r <;> exact hstep
      | load w1 text s1 =>
        rw [h] at hstep
        have hfile : (runText files n w1 text).world.executes =
            w.executes + blockCount files n w1 text := by
          rw [blockCount_eq, ← hstep.1]
          exact ihb w1 .none (normalise text)
        rw [drive_succ_load h, importsOf_load h, importCount_cons, ← Nat.add_assoc, ← hfile]
        exact Outcome.executes_andThen rfl fun w2 _ => ihd w2 s1
    · cases h : readCall w.globals cs with
      | error e =>
        rw [startedBlocks_error h]
        cases cs with
        | nil => rw [runBlocks_succ_nil]; rfl
        | cons c cs => rw [runBlocks_succ_error (List.cons_ne_nil c cs) h]; rfl
      | ok r =>
        obtain ⟨c, rest⟩ := r
        have hblock : (drive files n w.startBlock (.start c [])).world.executes =
            w.executes +
              (1 + importCount files (importsOf files n w.startBlock (.start c []))) := by
          rw [ihd, ← Nat.add_assoc]
          rfl
        rw [runBlocks_succ_ok (ne_nil_of_readCall h) h, startedBlocks_ok h, startedCount_cons,
          ← Nat.add_assoc, StartedBlock.imports, ← hblock]
        exact Outcome.executes_andThen rfl fun w1 v => ihb w1 v rest

/-! ## Texts -/

/-- The blocks that are started stand one behind the other at the beginning of the text. All of it
is run if the run has a value. -/
theorem exists_texts_of_startedBlocks (files : Files) (n : Nat) (w : World) (last : Value)
    (cs : List Char) :
    ∃ parts rest, cs = parts.flatten ++ rest ∧
      List.Forall₂ (fun b part => readCall b.world.globals part = .ok (b.call, []))
        (startedBlocks files n w cs) parts ∧
      ((runBlocks files n w last cs).isValue = true → rest = []) := by
  induction n generalizing w last cs with
  | zero =>
    refine ⟨[], cs, rfl, .nil, fun h => ?_⟩
    rw [runBlocks_zero] at h
    cases h
  | succ n ih =>
    cases h : readCall w.globals cs with
    | error e =>
      refine ⟨[], cs, rfl, ?_, fun hvalue => ?_⟩
      · rw [startedBlocks_error h]
        exact .nil
      · cases cs with
        | nil => rfl
        | cons c cs =>
          rw [runBlocks_succ_error (List.cons_ne_nil c cs) h] at hvalue
          cases hvalue
    | ok r =>
      obtain ⟨c, rest⟩ := r
      obtain ⟨part, rfl, -, hpart⟩ := readCall_append h
      have hfirst := hpart []
      rw [List.append_nil] at hfirst
      rw [startedBlocks_ok h, runBlocks_succ_ok (ne_nil_of_readCall h) h]
      generalize drive files n w.startBlock (.start c []) = o
      obtain ⟨w1, r⟩ := o
      cases r with
      | value v =>
        obtain ⟨parts, rest', rfl, hparts, hvalue⟩ := ih w1 v rest
        refine ⟨part :: parts, rest', ?_, .cons hfirst hparts, hvalue⟩
        rw [List.flatten_cons, List.append_assoc]
      | failed e =>
        refine ⟨[part], rest, ?_, .cons hfirst .nil, fun hvalue => by cases hvalue⟩
        rw [List.flatten_cons, List.flatten_nil, List.append_nil]
      | outOfFuel =>
        refine ⟨[part], rest, ?_, .cons hfirst .nil, fun hvalue => by cases hvalue⟩
        rw [List.flatten_cons, List.flatten_nil, List.append_nil]

/-- **One machine for each block, however deep the recursion.** At any moment of a run of a text,
and however it ends, the number of blocks that have been started has grown by the number of blocks
of the text that have been read and started, and for every file imported while these ran by the same
number for the text of the file. The blocks that have been started stand one behind the other at the
beginning of the text, and make up all of it if the run has a value. While one of them runs, the
number grows with its imports only. -/
theorem executes_runText (files : Files) (n : Nat) (w : World) (text : List Char) :
    (runText files n w text).world.executes = w.executes + blockCount files n w text ∧
      (∃ parts rest, normalise text = parts.flatten ++ rest ∧
        List.Forall₂ (fun b part => readCall b.world.globals part = .ok (b.call, []))
          (startedBlocks files n w (normalise text)) parts ∧
        ((runText files n w text).isValue = true → rest = [])) ∧
      ∀ b ∈ startedBlocks files n w (normalise text),
        (drive files b.fuel b.world (.start b.call [])).world.executes =
          b.world.executes + importCount files (b.imports files) := by
  refine ⟨?_, exists_texts_of_startedBlocks files n w .none (normalise text), fun b _ => ?_⟩
  · rw [blockCount_eq]
    exact (executes_drive_runBlocks files n).2 w .none (normalise text)
  · exact (executes_drive_runBlocks files b.fuel).1 b.world (.start b.call [])

-- the definition, the call, to whose recursion nothing is due, and the two blocks of the file that
-- it imports at the end; the second of these fails, and the last block of the text is not started
example :
    let files : Files := .ofList [("a", "(+ 1)(g)")]
    let text : List Char :=
      "(defun 'f 'n (if (< n 1) (import \"a\") (f (- n 1))))(f 3)(+ 2)".toList
    (runText files 120 (World.start false) text).isFinal = true ∧
      (runText files 120 (World.start false) text).world.executes = 4 := by
  decide +kernel

end MiniLisp

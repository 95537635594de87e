import MiniLisp.Proofs.Runs

/-!
# The states that a run goes through

`visits` lists the states of the machine in a run, each with its world and together with those of
the files that it loads, and `visitsBlocks` those of the blocks of a text. The lemmas here say what
it means, step by step, that all states of a run have a property.
-/

namespace MiniLisp

mutual

/-- The states that the machine goes through. -/
def visits (files : Files) : (fuel : Nat) → World → State → List (World × State)
  | 0, _, _ => []
  | fuel + 1, w, s =>
    (w, s) :: match step files w s with
      | .next w s => visits files fuel w s
      | .halt _ _ => []
      | .load w text s =>
        visitsBlocks files fuel w (Source.normalise text) ++
          match runBlocks files fuel w .none (Source.normalise text) with
          | ⟨w, .value _⟩ => visits files fuel w s
          | _ => []

/-- The states that the machine goes through when it runs the blocks of a normalised text. -/
def visitsBlocks (files : Files) : (fuel : Nat) → World → List Char → List (World × State)
  | 0, _, _ => []
  | _ + 1, _, [] => []
  | fuel + 1, w, c :: cs =>
    match readCall w.globals (c :: cs) with
    | .error _ => []
    | .ok (call, rest) =>
      visits files fuel w.startBlock (.start call []) ++
        match drive files fuel w.startBlock (.start call []) with
        | ⟨w, .value _⟩ => visitsBlocks files fuel w rest
        | _ => []

end

section Equations

variable {files : Files} {Q : World × State → Prop} {w w' : World} {s s' : State} {n : Nat}

theorem forall_visits_next (h : step files w s = .next w' s') :
    (∀ t ∈ visits files (n + 1) w s, Q t) ↔ Q (w, s) ∧ ∀ t ∈ visits files n w' s', Q t := by
  rw [visits, h, List.forall_mem_cons]

theorem forall_visits_halt {r : Except Error Value} (h : step files w s = .halt w' r) :
    (∀ t ∈ visits files (n + 1) w s, Q t) ↔ Q (w, s) := by
  rw [visits, h]
  exact List.forall_mem_singleton

/-- When the file has been run, the machine goes on. -/
theorem forall_visits_load {text : List Char} (h : step files w s = .load w' text s') :
    (∀ t ∈ visits files (n + 1) w s, Q t) ↔
      Q (w, s) ∧ (∀ t ∈ visitsBlocks files n w' (Source.normalise text), Q t) ∧
        ∀ w1 v, runBlocks files n w' .none (Source.normalise text) = ⟨w1, .value v⟩ →
          ∀ t ∈ visits files n w1 s', Q t := by
  rw [visits, h, List.forall_mem_cons, List.forall_mem_append]
  rcases runBlocks files n w' .none (Source.normalise text) with ⟨w1, r⟩
  cases r <;> simp

theorem forall_visitsBlocks_ok {cs rest : List Char} {c : Call} (hne : cs ≠ [])
    (h : readCall w.globals cs = .ok (c, rest)) :
    (∀ t ∈ visitsBlocks files (n + 1) w cs, Q t) ↔
      (∀ t ∈ visits files n w.startBlock (.start c []), Q t) ∧
        ∀ w1 v, drive files n w.startBlock (.start c []) = ⟨w1, .value v⟩ →
          ∀ t ∈ visitsBlocks files n w1 rest, Q t := by
  obtain ⟨d, cs, rfl⟩ := List.exists_cons_of_ne_nil hne
  rw [visitsBlocks, h, List.forall_mem_append]
  rcases drive files n w.startBlock (.start c []) with ⟨w1, r⟩
  cases r <;> simp

/-- The states of a run include the first one. -/
theorem of_forall_visits (h : ∀ t ∈ visits files (n + 1) w s, Q t) : Q (w, s) := by
  rw [visits] at h
  exact h _ List.mem_cons_self

end Equations

end MiniLisp

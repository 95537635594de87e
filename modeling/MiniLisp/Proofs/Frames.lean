import MiniLisp.Proofs.Calls
import MiniLisp.Proofs.Stack

/-!
# Rules for a single frame

How a call ends on the machine, told from its own frame alone: what beginning it leads to
(`step_start_error`, `step_start_ready`, `step_start_scan`), what an argument that is itself a call
means (`ends_scan_call_iff`), what the work of the function leads to (`Frame.prepare_cases`), and
how the call is concluded (`ends_scan_finish_iff`). The frames below never come in.
-/

namespace MiniLisp

section Beginning

variable {files : Files} {w : World} {c : Call} {scope globals : Scope} {args vs : List Value}
  {stack : List Frame}

/-- A call that begins looks up its arguments. -/
theorem Frame.resolve_enter (hc : c.resolved = false) :
    (Frame.enter c vs scope).resolve globals =
      (c.resolveArgs scope globals).map fun args => ⟨c.mark true c.prepared, args, 0, scope⟩ := by
  unfold Frame.resolve Call.resolveArgs Frame.enter
  rw [if_neg (by simp [hc])]
  cases c.lookupArgs scope globals with
  | error e => rfl
  | ok args =>
    cases c.fn.checksEarly with
    | false => rfl
    | true =>
      dsimp only
      rw [if_pos rfl, if_pos rfl]
      cases c.validate (c.sortArgs args) <;> rfl

theorem step_start_error {e : Error} (hc : c.resolved = false)
    (h : c.resolveArgs scope w.globals = .error e) :
    step files w (.enter (.enter c vs scope) stack) = .halt w (.error e) := by
  refine step_enter_error ?_
  rw [Frame.resolve_enter hc, h]
  rfl

theorem step_start_ready (hc : c.resolved = false) (hc' : c.prepared = false)
    (h : c.resolveArgs scope w.globals = .ok args) (hp : c.canPrepare args (-1) = true) :
    step files w (.enter (.enter c vs scope) stack) =
      Frame.prepare files w ⟨c.mark true false, args, 0, scope⟩ stack := by
  refine step_enter_ready (by rw [Frame.resolve_enter hc, h, hc']; rfl) ?_
  rw [Frame.isReady, Call.canPrepare_mark, hp]
  rfl

theorem step_start_scan (hc : c.resolved = false) (hc' : c.prepared = false)
    (h : c.resolveArgs scope w.globals = .ok args) (hp : c.canPrepare args (-1) = false) :
    step files w (.enter (.enter c vs scope) stack) =
      .next w (.scan ⟨c.mark true false, args, 0, scope⟩ stack) := by
  refine step_enter_scan (by rw [Frame.resolve_enter hc, h, hc']; rfl) ?_
  rw [Frame.isReady, Call.canPrepare_mark, hp]
  rfl

/-- Where a call has not begun, the arguments around it do not matter. -/
theorem step_enter_fresh (hc : c.resolved = false) :
    step files w (.enter (.enter c vs scope) stack) =
      step files w ((State.start c scope).under stack) := by
  unfold State.start
  rw [State.under_enter, List.nil_append, step, step, Frame.resolve_enter hc,
    Frame.resolve_enter hc]

theorem drive_enter_fresh (hc : c.resolved = false) (n : Nat) :
    drive files n w (.enter (.enter c vs scope) stack) =
      drive files n w ((State.start c scope).under stack) := by
  cases n with
  | zero => rw [drive_zero, drive_zero]
  | succ n => rw [drive, drive, step_enter_fresh hc]

/-- A call that has begun, and whose function is not to do its work, is taken up where it was
left. -/
theorem step_enter_resolved {f : Frame} (hf : f.call.resolved = true)
    (hr : f.isReady (-1) = false) :
    step files w (.enter f stack) = .next w (.scan f stack) := by
  refine step_enter_scan ?_ hr
  rw [Frame.resolve, if_pos hf]

end Beginning

section Scanning

variable {files : Files} {w : World} {f : Frame} {o : Outcome}

/-- A machine that ends with a value has finished a call. -/
theorem Ends.finishes {w' : World} {s : State} {v : Value} (h : Ends files w s ⟨w', .value v⟩) :
    ∃ c, Finishes files w s w' c v := by
  obtain ⟨-, n, hn⟩ := h
  induction n generalizing w s with
  | zero =>
    dsimp only at hn
    rw [drive_zero] at hn
    cases hn
  | succ n ih =>
    dsimp only at hn
    cases hs : step files w s with
    | next w1 s1 =>
      rw [drive_succ_next hs] at hn
      obtain ⟨c, hc⟩ := ih hn
      exact ⟨c, .next hs hc⟩
    | halt w1 r =>
      rw [drive_succ_halt hs] at hn
      cases r with
      | error e => cases hn
      | ok u =>
        cases hn
        exact ⟨_, .halt hs⟩
    | load w1 text s1 =>
      rw [drive_succ_load hs] at hn
      rcases (Outcome.andThen_eq_iff rfl).mp hn with ⟨w2, e, he, -⟩ | ⟨w2, last, hb, ht⟩
      · cases he
      · obtain ⟨c, hc⟩ := ih ht
        exact ⟨c, .load hs ⟨rfl, n, hb⟩ hc⟩

/-- Where the finished call itself does not matter, its value is all that counts. -/
theorem exists_finishes_iff {s : State} {w' : World} {P : Call → Value → Prop} {Q : Value → Prop}
    (h : ∀ c v, Finishes files w s w' c v → (P c v ↔ Q v)) :
    (∃ c v, Finishes files w s w' c v ∧ P c v) ↔ ∃ v, Ends files w s ⟨w', .value v⟩ ∧ Q v := by
  constructor
  · rintro ⟨c, v, hf, hp⟩
    exact ⟨v, hf.ends, (h c v hf).mp hp⟩
  · rintro ⟨v, hv, hq⟩
    obtain ⟨c, hf⟩ := hv.finishes
    exact ⟨c, v, hf, (h c v hf).mpr hq⟩

/-- **An argument that is a call.** The whole fails with it, or goes on with its value. -/
theorem ends_scan_call_iff {d : Call} {stack : List Frame}
    (harg : f.args[f.index]? = some (.call d)) (hd : d.resolved = false) :
    Ends files w (.scan f stack) o ↔
      (∃ w' e, o = ⟨w', .failed e⟩ ∧ Ends files w (.start d f.scope) o) ∨
        (∃ w' c v, Finishes files w (.start d f.scope) w' c v ∧
          Ends files w' (.enter (f.resume c v) stack) o) := by
  rw [ends_next_iff (step_scan_call harg), ← ends_under_iff]
  unfold Ends
  simp only [drive_enter_fresh hd]

/-- The same with the fuel that is left. -/
theorem drive_scan_call {d : Call} {n : Nat} (harg : f.args[f.index]? = some (.call d))
    (hd : d.resolved = false) (ho : o.isFinal = true)
    (h : drive files (n + 1) w (.scan f []) = o) :
    (∃ w' e, o = ⟨w', .failed e⟩ ∧ drive files n w (.start d f.scope) = o) ∨
      (∃ w' c v m, drive files n w (.start d f.scope) = ⟨w', .value v⟩ ∧
        Finishes files w (.start d f.scope) w' c v ∧ m < n ∧
          drive files m w' (.enter (f.resume c v) []) = o) := by
  rw [drive_succ_next (step_scan_call harg), drive_enter_fresh hd] at h
  exact drive_under files f [] n w (.start d f.scope) o ho h

/-- A complete call is concluded. -/
theorem Frame.finish_nil (w : World) (f : Frame) :
    ∃ w' r, f.finish w [] = .halt w' r ∧
      Outcome.ofExcept w' r = f.call.conclude w f.scope f.args := by
  unfold Frame.finish Call.conclude Frame.checkLate
  cases hv : (if f.call.fn.checksEarly then .ok () else f.call.validate f.args :
      Except Error Unit) with
  | error e => exact ⟨w, .error e, rfl, rfl⟩
  | ok u =>
    rcases f.call.apply w f.scope f.args with ⟨w', r⟩
    cases r with
    | error e => exact ⟨w', .error e, rfl, rfl⟩
    | ok v => exact ⟨w', .ok v, rfl, rfl⟩

theorem ends_scan_finish_iff (harg : f.args[f.index]? = none) :
    Ends files w (.scan f []) o ↔ o = f.call.conclude w f.scope f.args := by
  obtain ⟨w', r, hf, hr⟩ := f.finish_nil w
  rw [← hr]
  exact ends_halt_iff (by rw [step_scan_finish harg, hf])

theorem drive_scan_finish {n : Nat} (harg : f.args[f.index]? = none) :
    drive files (n + 1) w (.scan f []) = f.call.conclude w f.scope f.args := by
  obtain ⟨w', r, hf, hr⟩ := f.finish_nil w
  rw [drive_succ_halt (by rw [step_scan_finish harg, hf]), hr]

/-- What the work of a function leads to. -/
theorem Frame.prepare_cases (files : Files) (w : World) (f : Frame) (stack : List Frame) :
    (∃ e, f.call.prepare f.scope w.globals f.args = .error e ∧
        f.prepare files w stack = .halt w (.error e)) ∨
      ∃ p, f.call.prepare f.scope w.globals f.args = .ok p ∧
        ((p.load = none ∧
            f.prepare files w stack = .next w (.scan (f.continueWith p) stack)) ∨
          (∃ path, p.load = some path ∧ files.read? path = none ∧
            f.prepare files w stack = .halt w (.error (.fileNotFound path))) ∨
          ∃ path text, p.load = some path ∧ files.read? path = some text ∧
            f.prepare files w stack = .load w text (.scan (f.continueWith p) stack)) := by
  unfold Frame.prepare
  cases hp : f.call.prepare f.scope w.globals f.args with
  | error e => exact Or.inl ⟨e, rfl, rfl⟩
  | ok p =>
    refine Or.inr ⟨p, rfl, ?_⟩
    cases hl : p.load with
    | none => exact Or.inl ⟨rfl, by simp only [hl]⟩
    | some path =>
      refine Or.inr ?_
      cases ht : files.read? path with
      | none => exact Or.inl ⟨path, rfl, ht, by simp only [hl, ht]⟩
      | some text => exact Or.inr ⟨path, text, rfl, ht, by simp only [hl, ht]⟩

end Scanning

/-! ## Frames between two arguments -/

/-- The frame of a call that has begun, between the arguments `done` and `todo`. -/
def Call.frame (c : Call) (prepared : Bool) (scope : Scope) (done todo : List Value) : Frame :=
  ⟨c.mark true prepared, done ++ todo, done.length, scope⟩

section Frames

variable {files : Files} {w : World} {c d : Call} {prepared : Bool} {scope : Scope}
  {done todo : List Value} {v : Value} {stack : List Frame}

theorem Call.frame_arg_nil :
    (c.frame prepared scope done []).args[(c.frame prepared scope done []).index]? = none := by
  simp [Call.frame]

theorem Call.frame_arg_cons :
    (c.frame prepared scope done (v :: todo)).args[
      (c.frame prepared scope done (v :: todo)).index]? = some v := by
  simp [Call.frame]

/-- The moment of preparing depends on the number of the arguments only. -/
theorem Call.canPrepare_congr {args args' : List Value} (h : args.length = args'.length)
    (i : Int) : c.canPrepare args i = c.canPrepare args' i := by
  unfold Call.canPrepare
  rw [h]

theorem Call.canPrepare_replace {u : Value} {i : Int}
    (h : c.canPrepare (done ++ u :: todo) i = false) :
    c.canPrepare (done ++ v :: todo) i = false := by
  rw [← h]
  exact Call.canPrepare_congr (by simp) i

/-- A value that does not start the work of the function is passed over. -/
theorem step_frame_pass (hv : v.isCall = false)
    (hr : (c.canPrepare (done ++ v :: todo) done.length && !prepared) = false) :
    step files w (.scan (c.frame prepared scope done (v :: todo)) stack) =
      .next w (.scan (c.frame prepared scope (done ++ [v]) todo) stack) := by
  rw [step_scan_pass Call.frame_arg_cons hv hr]
  simp [Call.frame]

/-- A value that starts the work of the function. -/
theorem step_frame_ready (hv : v.isCall = false)
    (hr : c.canPrepare (done ++ v :: todo) done.length = true) :
    step files w (.scan (c.frame false scope done (v :: todo)) stack) =
      (c.frame false scope done (v :: todo)).prepare files w stack := by
  refine step_scan_ready Call.frame_arg_cons hv ?_
  show (c.canPrepare (done ++ v :: todo) done.length && !false) = true
  rw [hr]
  rfl

/-- A frame is taken up between its arguments. -/
theorem step_frame_enter (hr : (c.canPrepare (done ++ todo) (-1) && !prepared) = false) :
    step files w (.enter (c.frame prepared scope done todo) stack) =
      .next w (.scan (c.frame prepared scope done todo) stack) :=
  step_enter_resolved rfl hr

/-- The same with the fuel that is left. -/
theorem drive_frame_enter {o : Outcome} {n : Nat}
    (hr : (c.canPrepare (done ++ todo) (-1) && !prepared) = false) (ho : o.isFinal = true)
    (h : drive files n w (.enter (c.frame prepared scope done todo) []) = o) :
    ∃ m, n = m + 1 ∧ drive files m w (.scan (c.frame prepared scope done todo) []) = o := by
  cases n with
  | zero =>
    rw [drive_zero] at h
    rw [← h] at ho
    cases ho
  | succ m =>
    rw [drive_succ_next (step_frame_enter hr)] at h
    exact ⟨m, rfl, h⟩

theorem set_append_cons {α : Type} (done todo : List α) (a b : α) :
    (done ++ a :: todo).set done.length b = done ++ b :: todo := by
  simp

/-- While the function has not done its work, a result just takes the place of its call. -/
theorem Call.resume_frame_pending (finished : Call) :
    (c.frame false scope done (.call d :: todo)).resume finished v =
      c.frame false scope done (v :: todo) := by
  unfold Frame.resume Call.frame
  rw [Call.isDeferred_mark, Call.mark_prepared, Bool.and_false, if_neg (by simp)]
  simp

/-- The same holds at any time for a call that is not deferred. -/
theorem Call.resume_frame_of_not_deferred (hc : c.isDeferred = false) (finished : Call) :
    (c.frame prepared scope done (.call d :: todo)).resume finished v =
      c.frame prepared scope done (v :: todo) := by
  unfold Frame.resume Call.frame
  rw [Call.isDeferred_mark, hc, if_neg (by simp), set_append_cons]

/-- A result also just takes the place of its call if that was the last argument: no call is left
to be marked. -/
theorem Call.resume_frame_last (finished : Call) :
    (c.frame prepared scope done [.call d]).resume finished v =
      c.frame prepared scope done [v] := by
  have hmark : Frame.markDone (done ++ [v]) done.length finished = done ++ [v] := by
    unfold Frame.markDone
    rw [List.getLast?_concat]
    cases v with
    | call e => exact if_neg (by simp)
    | _ => rfl
  unfold Frame.resume Call.frame
  rw [set_append_cons]
  dsimp only
  rw [hmark, ite_self]

/-- An index behind the arguments is as good as their number. -/
theorem drive_scan_clamp (args : List Value) (i n : Nat) :
    drive files n w (.scan ⟨c, args, i, scope⟩ []) =
      drive files n w (.scan ⟨c, args, (args.take i).length, scope⟩ []) := by
  rw [List.length_take]
  by_cases hi : i ≤ args.length
  · rw [Nat.min_eq_left hi]
  · cases n with
    | zero => rw [drive_zero, drive_zero]
    | succ n =>
      rw [drive_scan_finish (List.getElem?_eq_none (by dsimp only; omega)),
        drive_scan_finish (List.getElem?_eq_none (by dsimp only; omega))]

/-- Values that do not start the work of the function are passed over. -/
theorem ends_frame_quiet_iff {vs : List Value} {o : Outcome} (hvs : ∀ v ∈ vs, v.isCall = false) :
    ∀ done, (∀ j : Nat, j < done.length + vs.length →
        (c.canPrepare (done ++ (vs ++ todo)) j && !prepared) = false) →
      (Ends files w (.scan (c.frame prepared scope done (vs ++ todo)) []) o ↔
        Ends files w (.scan (c.frame prepared scope (done ++ vs) todo) []) o) := by
  induction vs with
  | nil =>
    intro done _
    rw [List.nil_append, List.append_nil]
  | cons v vs ih =>
    intro done hquiet
    rw [List.cons_append] at hquiet ⊢
    have hv : (c.canPrepare (done ++ v :: (vs ++ todo)) done.length && !prepared) = false :=
      hquiet done.length (by rw [List.length_cons]; omega)
    rw [ends_next_iff (step_frame_pass (hvs v List.mem_cons_self) hv),
      ih (fun u hu => hvs u (List.mem_cons_of_mem v hu)), List.append_assoc,
      List.singleton_append]
    intro j hj
    rw [List.append_assoc, List.singleton_append]
    refine hquiet j ?_
    simp only [List.length_append, List.length_cons, List.length_nil] at hj ⊢
    omega

/-- After the work of the function all values that stand first are passed over. -/
theorem ends_frame_values_iff {vs : List Value} {o : Outcome}
    (hvs : ∀ v ∈ vs, v.isCall = false) (done : List Value) :
    Ends files w (.scan (c.frame true scope done (vs ++ todo)) []) o ↔
      Ends files w (.scan (c.frame true scope (done ++ vs) todo) []) o :=
  ends_frame_quiet_iff hvs done fun _ _ => Bool.and_false _

end Frames

/-! ## Preparing -/

section Preparing

variable {files : Files} {w : World} {c : Call} {scope : Scope} {args : List Value} {i n : Nat}
  {s : State} {p : Prepared}

/-- The frame with which the machine goes on after preparing. -/
theorem drive_continueWith (c : Call) (scope : Scope) (args : List Value) :
    drive files n w (.scan (Frame.continueWith ⟨c.mark true false, args, i, scope⟩
        (p.mark true false)) []) =
      drive files n w (.scan (p.call.frame true p.scope (p.args.take i) (p.args.drop i)) []) := by
  show drive files n w (.scan ⟨p.call.mark true true, p.args, i, p.scope⟩ []) = _
  rw [drive_scan_clamp, Call.frame, List.take_append_drop]

variable (hs : step files w s = Frame.prepare files w ⟨c.mark true false, args, i, scope⟩ [])
include hs

theorem drive_prepare_error {e : Error} (h : c.prepare scope w.globals args = .error e) :
    drive files (n + 1) w s = ⟨w, .failed e⟩ := by
  refine drive_succ_halt (r := .error e) (hs.trans ?_)
  rw [Frame.prepare, Call.prepare_mark, h]
  rfl

theorem drive_prepare_ok (h : c.prepare scope w.globals args = .ok p) (hl : p.load = none) :
    drive files (n + 1) w s =
      drive files n w (.scan (p.call.frame true p.scope (p.args.take i) (p.args.drop i)) []) := by
  rw [← drive_continueWith c scope args]
  refine drive_succ_next (hs.trans ?_)
  rw [Frame.prepare, Call.prepare_mark, h]
  simp only [Except.map, Prepared.mark, hl]

/-- How a call ends whose function fails at its work. -/
theorem ends_prepare_error_iff {e : Error} {o : Outcome}
    (h : c.prepare scope w.globals args = .error e) : Ends files w s o ↔ o = ⟨w, .failed e⟩ := by
  refine (endsWith_succ_iff ?_ fun n => drive_prepare_error hs h).trans (endsWith_const_iff rfl)
  rw [drive_zero]
  rfl

/-- How a call ends whose function does its work without running a file. -/
theorem ends_prepare_ok_iff {o : Outcome} (h : c.prepare scope w.globals args = .ok p)
    (hl : p.load = none) :
    Ends files w s o ↔
      Ends files w (.scan (p.call.frame true p.scope (p.args.take i) (p.args.drop i)) []) o := by
  refine endsWith_succ_iff ?_ fun n => drive_prepare_ok hs h hl
  rw [drive_zero]
  rfl

theorem drive_prepare_missing {path : String} (h : c.prepare scope w.globals args = .ok p)
    (hl : p.load = some path) (hr : files.read? path = none) :
    drive files (n + 1) w s = ⟨w, .failed (.fileNotFound path)⟩ := by
  refine drive_succ_halt (r := .error (.fileNotFound path)) (hs.trans ?_)
  rw [Frame.prepare, Call.prepare_mark, h]
  simp only [Except.map, Prepared.mark, hl, hr]

theorem drive_prepare_load {path : String} {text : List Char}
    (h : c.prepare scope w.globals args = .ok p) (hl : p.load = some path)
    (hr : files.read? path = some text) :
    drive files (n + 1) w s =
      (runBlocks files n w .none (Source.normalise text)).andThen fun w _ =>
        drive files n w
          (.scan (p.call.frame true p.scope (p.args.take i) (p.args.drop i)) []) := by
  simp only [← drive_continueWith c scope args]
  refine drive_succ_load (hs.trans ?_)
  rw [Frame.prepare, Call.prepare_mark, h]
  simp only [Except.map, Prepared.mark, hl, hr]

end Preparing

end MiniLisp

import MiniLisp.Proofs.ArgumentEvaluation

/-!
# Invoking a function

A deferred call evaluates all its arguments and then begins the call of the function that its head
stands for, with the values in the place of the arguments (`ends_deferred_iff`). A call of a defined
function evaluates its arguments and then its body (`ends_user_iff`); what the body leads to is the
same for every call of the function with these values (`ends_frame_user_iff`), and is never a call
(`Ends.isCall_of_user`).
-/

namespace MiniLisp

/-- The call of a function with some values, begun in a scope, ends with an outcome. -/
def Invokes (files : Files) (scope : Scope) (fn : Function) (w : World) (us : List Value)
    (o : Outcome) : Prop :=
  match fn.begin us with
  | .error e => o = ⟨w, .failed e⟩
  | .ok real => Ends files w (.start real scope) o

/-- The call of the function that the evaluated head of the deferred call `c` stands for, with the
values behind the head, ends with an outcome. -/
def InvokesHead (files : Files) (scope : Scope) (c : Call) (w : World) (us : List Value)
    (o : Outcome) : Prop :=
  match us with
  | [] => o = ⟨w, .failed .missingItem⟩
  | head :: us =>
    match c.headFunction scope w.globals head with
    | .error e => o = ⟨w, .failed e⟩
    | .ok fn => Invokes files scope fn w us o

/-! ## Deferred calls -/

section Deferred

variable {files : Files} {scope : Scope} {c : Call} {w : World} {o : Outcome}

/-- A deferred call that has built a call ends as the built call does. -/
theorem ends_built_iff {us : List Value} {real : Call} (hc : c.isDeferred = true)
    (hreal : real.resolved = false)
    (hvalue : ∀ w' v, Ends files w (.start real scope) ⟨w', .value v⟩ → v.isCall = false) :
    Ends files w (.scan (c.frame true scope us [.call real]) []) o ↔
      Ends files w (.start real scope) o := by
  -- the value of the built call becomes the last argument, which is the value of the whole
  have hlast : ∀ {w'} finished v, v.isCall = false →
      (Ends files w' (.enter ((c.frame true scope us [.call real]).resume finished v) []) o ↔
        o = ⟨w', .value v⟩) := by
    intro w' finished v hv
    rw [Call.resume_frame_last, ends_next_iff (step_frame_enter (Bool.and_false _)),
      ends_next_iff (step_frame_pass hv (Bool.and_false _)),
      ends_scan_finish_iff Call.frame_arg_nil]
    simp only [Call.frame, List.append_nil, Call.conclude_mark, Call.conclude_deferred hc]
  rw [ends_scan_call_iff Call.frame_arg_cons hreal]
  constructor
  · rintro (⟨w', e, -, h⟩ | ⟨w', finished, v, hf, h⟩)
    · exact h
    · rw [(hlast finished v (hvalue w' v hf.ends)).mp h]
      exact hf.ends
  · intro h
    rcases o with ⟨w', v | e | _⟩
    · obtain ⟨finished, hf⟩ := h.finishes
      exact Or.inr ⟨w', finished, v, hf, (hlast finished v (hvalue w' v h)).mpr rfl⟩
    · exact Or.inl ⟨w', e, rfl, h⟩
    · exact absurd h.1 (by simp)

/-- The work of a deferred call whose head stands for a function: it goes on with the call it has
built as its last argument, from where it is. -/
theorem ends_deferred_work_iff {fn : Function} {done us rest : List Value} {head u : Value}
    {real : Call} (hc : c.isDeferred = true) (hargs : done ++ u :: rest = head :: us)
    (hready : c.canPrepare (done ++ u :: rest) done.length = true) (hu : u.isCall = false)
    (hfn : c.headFunction scope w.globals head = .ok fn) (hb : fn.begin us = .ok real) :
    Ends files w (.scan (c.frame false scope done (u :: rest)) []) o ↔
      Ends files w (.scan (c.frame true scope (us.take done.length)
        (us.drop done.length ++ [.call real])) []) o := by
  have hstep : step files w (.scan (c.frame false scope done (u :: rest)) []) =
      Frame.prepare files w ⟨c.mark true false, done ++ u :: rest, done.length, scope⟩ [] :=
    step_frame_ready hu hready
  have hprep : c.prepare scope w.globals (done ++ u :: rest) =
      .ok ⟨c, us ++ [.call real], scope, none⟩ := by
    rw [hargs, Call.prepare_deferred hc, hfn, Except.bind, hb]
    rfl
  have hlen : done.length ≤ us.length := by
    have h := congrArg List.length hargs
    simp only [List.length_append, List.length_cons] at h
    omega
  have htake : (us ++ [Value.call real]).take done.length = us.take done.length :=
    List.take_append_of_le_length hlen
  rw [← htake, ← List.drop_append_of_le_length hlen]
  exact ends_prepare_ok_iff hstep hprep rfl

/-- If all arguments are values the built call is all that is left to run. -/
theorem ends_deferred_ready_iff {head : Value} {us : List Value} (hc : c.isDeferred = true)
    (hpos : 0 < c.args.length) (hlen : c.args.length ≤ us.length + 1)
    (hus : ∀ u ∈ head :: us, u.isCall = false)
    (hvalue : ∀ w' v, InvokesHead files scope c w (head :: us) ⟨w', .value v⟩ → v.isCall = false) :
    Ends files w (.scan (c.frame false scope ((head :: us).take (c.args.length - 1))
        ((head :: us).drop (c.args.length - 1))) []) o ↔
      InvokesHead files scope c w (head :: us) o := by
  have hm : c.args.length - 1 < (head :: us).length := by
    rw [List.length_cons]
    omega
  obtain ⟨done, u, rest, hcut, hdone⟩ : ∃ done u rest,
      head :: us = done ++ u :: rest ∧ done.length = c.args.length - 1 :=
    ⟨_, _, _, (List.take_append_drop (c.args.length - 1) _).symm.trans
      (by rw [List.drop_eq_getElem_cons hm]), List.length_take_of_le (Nat.le_of_lt hm)⟩
  have hu : u.isCall = false := hus u (by rw [hcut]; simp)
  have hready : c.canPrepare (done ++ u :: rest) done.length = true := by
    rw [Call.canPrepare_deferred hc, hdone]
    exact beq_iff_eq.mpr (by omega)
  have hframe : c.frame false scope ((head :: us).take (c.args.length - 1))
      ((head :: us).drop (c.args.length - 1)) = c.frame false scope done (u :: rest) := by
    rw [hcut, ← hdone, List.take_left, List.drop_left]
  rw [hframe]
  unfold InvokesHead at hvalue ⊢
  dsimp only at hvalue ⊢
  cases hfn : c.headFunction scope w.globals head with
  | error e =>
    refine ends_prepare_error_iff (step_frame_ready hu hready) ?_
    rw [← hcut, Call.prepare_deferred hc, hfn]
    rfl
  | ok fn =>
    rw [hfn] at hvalue
    dsimp only at hvalue ⊢
    unfold Invokes at hvalue ⊢
    cases hb : fn.begin us with
    | error e =>
      refine ends_prepare_error_iff (step_frame_ready hu hready) ?_
      rw [← hcut, Call.prepare_deferred hc, hfn, Except.bind, hb]
      rfl
    | ok real =>
      rw [hb] at hvalue
      have hreal : real.resolved = false := by
        rw [Function.eq_of_begin hb]
        rfl
      have hvalues : ∀ v ∈ us.drop done.length, v.isCall = false :=
        fun v hv => hus v (List.mem_cons_of_mem head (List.mem_of_mem_drop hv))
      rw [ends_deferred_work_iff hc hcut.symm hready hu hfn hb, ends_frame_values_iff hvalues,
        List.take_append_drop]
      exact ends_built_iff hc hreal hvalue

/-- A deferred call evaluates its arguments up to the moment when its function does its work: when
as many have been evaluated as the call was written with. What stands behind these must be
values. -/
theorem ends_deferred_until_iff {vs : List Value} (hc : c.isDeferred = true)
    (hres : c.resolved = false) (hprep : c.prepared = false) (hpos : 0 < c.args.length)
    (hargs : c.resolveArgs scope w.globals = .ok vs) (hlen : c.args.length ≤ vs.length)
    (hlate : ∀ v ∈ vs.drop c.args.length, v.isCall = false)
    (hy : EachYields files scope (fun _ v => v.isCall = false) w vs) :
    Ends files w (.start c scope) o ↔
      AfterArgs files scope w vs (fun w us o => Ends files w (.scan (c.frame false scope
        (us.take (c.args.length - 1)) (us.drop (c.args.length - 1))) []) o) o := by
  have hnot := Call.canPrepare_deferred_start hc hpos
  -- cut the arguments at the one whose evaluation starts the work of the function
  have hm : c.args.length - 1 < vs.length := by omega
  obtain ⟨front, a, rest, hcut, hfront, hrest⟩ : ∃ front a rest, vs = front ++ a :: rest ∧
      front.length = c.args.length - 1 ∧ rest = vs.drop c.args.length := by
    refine ⟨_, _, _, (List.take_append_drop (c.args.length - 1) _).symm.trans
      (by rw [List.drop_eq_getElem_cons hm]), List.length_take_of_le (Nat.le_of_lt hm), ?_⟩
    rw [Nat.sub_add_cancel hpos]
  have hyfront : EachYields files scope (fun _ v => v.isCall = false) w (front ++ [a]) := by
    have h : EachYields files scope (fun _ v => v.isCall = false) w (front ++ [a] ++ rest) := by
      rw [List.append_assoc, List.singleton_append, ← hcut]
      exact hy
    exact h.of_append
  have hquiet : ∀ j : Nat, ([] : List Value).length ≤ j →
      j < ([] : List Value).length + front.length → c.canPrepare vs j = false := by
    intro j _ hj
    rw [Call.canPrepare_deferred hc]
    rw [List.length_nil, hfront] at hj
    exact beq_false_of_ne (by omega)
  rw [State.start, ends_next_iff (step_start_scan hres hprep hargs (hnot _))]
  show Ends files w (.scan (c.frame false scope [] vs) []) o ↔ _
  rw [← hrest] at hlate
  rw [hcut, ends_pending_values_iff (by rw [hcut]; rfl) (hnot vs) hquiet hlate hyfront, hfront]
  simp only [List.nil_append]

/-- **A deferred call invokes the function that its head stands for**, with the values of its
arguments. -/
theorem ends_deferred_head_iff {vs : List Value} {Q : World → Prop} {R : Value → Prop}
    (hc : c.isDeferred = true) (hres : c.resolved = false) (hprep : c.prepared = false)
    (hpos : 0 < c.args.length) (hargs : c.resolveArgs scope w.globals = .ok vs)
    (hlen : c.args.length ≤ vs.length) (hlate : ∀ v ∈ vs.drop c.args.length, v.isCall = false)
    (hR : ∀ v, R v → v.isCall = false) (hw : Q w)
    (hy : EachYields files scope (fun w v => Q w ∧ R v) w vs)
    (hvalue : ∀ w us, Q w → (∀ u ∈ us, R u) →
      ∀ w' v, InvokesHead files scope c w us ⟨w', .value v⟩ → v.isCall = false) :
    Ends files w (.start c scope) o ↔
      AfterArgs files scope w vs (InvokesHead files scope c) o := by
  rw [ends_deferred_until_iff hc hres hprep hpos hargs hlen hlate
    (hy.mono fun _ v hv => hR v hv.2)]
  refine afterArgs_congr hy hw fun w us hw hus hR' => ?_
  cases us with
  | nil =>
    rw [List.length_nil] at hus
    omega
  | cons head us =>
    rw [List.length_cons] at hus
    exact ends_deferred_ready_iff hc hpos (by omega) (fun u hu => hR u (hR' u hu))
      (hvalue w _ hw hR')

/-- The same if the head is looked up to a function, which is invoked whatever the arguments
do. -/
theorem ends_deferred_iff {fn : Function} {vs : List Value} {Q : World → Prop} {R : Value → Prop}
    (hc : c.isDeferred = true) (hres : c.resolved = false) (hprep : c.prepared = false)
    (hpos : 0 < c.args.length)
    (hargs : c.resolveArgs scope w.globals = .ok (.function fn :: vs))
    (hlen : c.args.length ≤ vs.length + 1)
    (hlate : ∀ v ∈ vs.drop (c.args.length - 1), v.isCall = false)
    (hR : ∀ v, R v → v.isCall = false) (hw : Q w)
    (hy : EachYields files scope (fun w v => Q w ∧ R v) w vs)
    (hvalue : ∀ w us, Q w → (∀ u ∈ us, R u) →
      ∀ w' v, Invokes files scope fn w us ⟨w', .value v⟩ → v.isCall = false) :
    Ends files w (.start c scope) o ↔
      AfterArgs files scope w vs (Invokes files scope fn) o := by
  have hyall : EachYields files scope (fun _ v => v.isCall = false) w (.function fn :: vs) :=
    (eachYields_value rfl).mpr ⟨rfl, hy.mono fun _ v hv => hR v hv.2⟩
  have hlate' : ∀ v ∈ (Value.function fn :: vs).drop c.args.length, v.isCall = false := by
    obtain ⟨m, hm⟩ : ∃ m, c.args.length = m + 1 := ⟨_, (Nat.sub_add_cancel hpos).symm⟩
    rw [hm] at hlate ⊢
    exact hlate
  rw [ends_deferred_until_iff hc hres hprep hpos hargs hlen hlate' hyall, afterArgs_value rfl]
  refine afterArgs_congr hy hw fun w us hw hus hR' => ?_
  refine ends_deferred_ready_iff hc hpos (by omega) ?_ (hvalue w us hw hR')
  exact List.forall_mem_cons.mpr ⟨rfl, fun u hu => hR u (hR' u hu)⟩

end Deferred

/-! ## Calls of defined functions -/

/-- What the frame of `c` ends with, given the fuel `n`, the frame of `c'` ends with, and it is no
call. The arguments `done` have been passed over. -/
def FrameFollowed (files : Files) (c c' : Call) (n : Nat) : Prop :=
  ∀ {prepared : Bool} {scope : Scope} {w : World} {done todo : List Value} {o : Outcome},
    (∀ u ∈ done, u.isCall = false) → o.isFinal = true →
      drive files n w (.scan (c.frame prepared scope done todo) []) = o →
        Ends files w (.scan (c'.frame prepared scope done todo) []) o ∧
          ∀ w' v, o = ⟨w', .value v⟩ → v.isCall = false

namespace FrameFollowed

variable {files : Files} {c c' : Call} {d : Definition} {n : Nat} {prepared : Bool}
  {scope : Scope} {w : World} {done todo : List Value} {o : Outcome}

/-- All arguments have been passed over. -/
theorem finish (hc : c.fn = .user d) (hc' : c'.fn = .user d)
    (hdone : ∀ u ∈ done, u.isCall = false)
    (h : drive files (n + 1) w (.scan (c.frame prepared scope done []) []) = o) :
    Ends files w (.scan (c'.frame prepared scope done []) []) o ∧
      ∀ w' v, o = ⟨w', .value v⟩ → v.isCall = false := by
  rw [drive_scan_finish Call.frame_arg_nil] at h
  simp only [Call.frame, List.append_nil, Call.conclude_mark] at h
  refine ⟨(ends_scan_finish_iff Call.frame_arg_nil).mpr ?_, fun w' v hv => ?_⟩
  · simp only [Call.frame, List.append_nil, Call.conclude_mark]
    rw [← h]
    exact Call.conclude_user hc hc'
  · rw [hv] at h
    exact hdone v (Call.mem_of_conclude_user hc h)

variable (ih : ∀ m ≤ n, FrameFollowed files c c' m)
include ih

/-- The function does its work when the first `i` arguments have been passed over. -/
theorem work {s s' : State} {us : List Value} {i : Nat} (hc : c.fn = .user d)
    (hc' : c'.fn = .user d) (hi : i ≤ us.length) (hus : ∀ u ∈ us.take i, u.isCall = false)
    (ho : o.isFinal = true)
    (hs : step files w s = Frame.prepare files w ⟨c.mark true false, us, i, scope⟩ [])
    (hs' : step files w s' = Frame.prepare files w ⟨c'.mark true false, us, i, scope⟩ [])
    (h : drive files (n + 1) w s = o) :
    Ends files w s' o ∧ ∀ w' v, o = ⟨w', .value v⟩ → v.isCall = false := by
  have hprep : c.prepare scope w.globals us = c.prepareUser d us := Call.prepare_user hc
  have hprep' : c'.prepare scope w.globals us =
      (c.prepareUser d us).map fun p => { p with call := c' } :=
    (Call.prepare_user hc').trans (Call.prepareUser_congr hc hc')
  cases hp : c.prepareUser d us with
  | error e =>
    rw [hp] at hprep hprep'
    rw [drive_prepare_error hs hprep] at h
    refine ⟨(ends_prepare_error_iff hs' hprep').mpr h.symm, ?_⟩
    intro w' v hv
    rw [hv] at h
    cases h
  | ok p =>
    rw [hp] at hprep hprep'
    obtain ⟨start, scope', m, -, -, rfl⟩ := Call.prepareUser_spec hp
    rw [drive_prepare_ok hs hprep rfl] at h
    have hdone : ∀ u ∈ (us ++ List.replicate m Value.none ++ [d.body]).take i,
        u.isCall = false := by
      rw [List.append_assoc, List.take_append_of_le_length hi]
      exact hus
    obtain ⟨hend, hvalue⟩ := ih n (Nat.le_refl n) hdone ho h
    exact ⟨(ends_prepare_ok_iff hs' hprep' rfl).mpr hend, hvalue⟩

/-- The next argument is a value. -/
theorem value {v : Value} (hc : c.fn = .user d) (hc' : c'.fn = .user d)
    (hdone : ∀ u ∈ done, u.isCall = false) (hv : v.isCall = false) (ho : o.isFinal = true)
    (h : drive files (n + 1) w (.scan (c.frame prepared scope done (v :: todo)) []) = o) :
    Ends files w (.scan (c'.frame prepared scope done (v :: todo)) []) o ∧
      ∀ w' v, o = ⟨w', .value v⟩ → v.isCall = false := by
  have hsame : c'.canPrepare (done ++ v :: todo) done.length =
      c.canPrepare (done ++ v :: todo) done.length := by
    rw [Call.canPrepare_user hc', Call.canPrepare_user hc]
  cases hr : c.canPrepare (done ++ v :: todo) done.length && !prepared with
  | true =>
    obtain ⟨hready, hprepared⟩ := Bool.and_eq_true_iff.mp hr
    obtain rfl : prepared = false := by simpa using hprepared
    refine FrameFollowed.work ih hc hc' ?_ ?_ ho (step_frame_ready hv hready)
      (step_frame_ready hv (hsame.trans hready)) h
    · rw [List.length_append]
      omega
    · rw [List.take_left]
      exact hdone
  | false =>
    rw [drive_succ_next (step_frame_pass hv hr)] at h
    rw [ends_next_iff (step_frame_pass hv (by rw [hsame]; exact hr))]
    refine ih n (Nat.le_refl n) (fun u hu => ?_) ho h
    rcases List.mem_append.mp hu with hu | hu
    · exact hdone u hu
    · rw [List.mem_singleton.mp hu]
      exact hv

/-- The next argument is a call, which runs alike under both frames. -/
theorem call {e : Call} (hc : c.fn = .user d) (hc' : c'.fn = .user d)
    (hdone : ∀ u ∈ done, u.isCall = false) (ho : o.isFinal = true)
    (h : drive files (n + 1) w (.scan (c.frame prepared scope done (.call e :: todo)) []) = o) :
    Ends files w (.scan (c'.frame prepared scope done (.call e :: todo)) []) o ∧
      ∀ w' v, o = ⟨w', .value v⟩ → v.isCall = false := by
  rw [drive_succ_next (step_scan_call Call.frame_arg_cons)] at h
  rw [ends_next_iff (step_scan_call Call.frame_arg_cons)]
  rcases drive_under files _ [] n w (.enter (.enter e (done ++ .call e :: todo) scope) []) o ho h
    with ⟨w', err, he, hfail⟩ | ⟨w', finished, v, m, -, hf, hm, hrest⟩
  · refine ⟨ends_under_iff.mpr (Or.inl ⟨w', err, he, ho, n, hfail⟩), fun w1 u hu => ?_⟩
    rw [he] at hu
    cases hu
  · rw [Call.resume_frame_of_not_deferred (Call.isDeferred_user hc)] at hrest
    have hquiet : ∀ {c : Call}, c.fn = .user d →
        (c.canPrepare (done ++ v :: todo) (-1) && !prepared) = false := by
      intro c hc
      rw [Call.canPrepare_user_of_lt hc, Bool.false_and]
      rw [List.length_append, List.length_cons]
      omega
    obtain ⟨m, rfl, hscan⟩ := drive_frame_enter (hquiet hc) ho hrest
    obtain ⟨hend, hvalue⟩ := ih m (by omega) hdone ho hscan
    refine ⟨ends_under_iff.mpr (Or.inr ⟨w', finished, v, hf, ?_⟩), hvalue⟩
    rw [Call.resume_frame_of_not_deferred (Call.isDeferred_user hc'),
      ends_next_iff (step_frame_enter (hquiet hc'))]
    exact hend

end FrameFollowed

/-- **Calls of a defined function go on alike** from the same arguments. -/
theorem frameFollowed {files : Files} {c c' : Call} {d : Definition} (hc : c.fn = .user d)
    (hc' : c'.fn = .user d) (n : Nat) : FrameFollowed files c c' n := by
  -- a call among the arguments leaves less fuel than its own run took, by an unknown amount
  induction n using Nat.strongRecOn with
  | ind n ih =>
    intro prepared scope w done todo o hdone ho h
    cases n with
    | zero =>
      rw [drive_zero] at h
      rw [← h] at ho
      cases ho
    | succ n =>
      have ih' : ∀ m ≤ n, FrameFollowed files c c' m := fun m hm => ih m (Nat.lt_succ_of_le hm)
      cases todo with
      | nil => exact FrameFollowed.finish hc hc' hdone h
      | cons a todo =>
        cases ha : a.isCall with
        | false => exact FrameFollowed.value ih' hc hc' hdone ha ho h
        | true =>
          obtain ⟨e, rfl⟩ := Value.eq_call_of_isCall ha
          exact FrameFollowed.call ih' hc hc' hdone ho h

section User

variable {files : Files} {c c' : Call} {d : Definition} {scope : Scope} {w : World} {o : Outcome}

theorem ends_frame_user_iff {prepared : Bool} {done todo : List Value} (hc : c.fn = .user d)
    (hc' : c'.fn = .user d) (hdone : ∀ u ∈ done, u.isCall = false) :
    Ends files w (.scan (c.frame prepared scope done todo) []) o ↔
      Ends files w (.scan (c'.frame prepared scope done todo) []) o := by
  constructor
  · rintro ⟨ho, n, hn⟩
    exact (frameFollowed hc hc' n hdone ho hn).1
  · rintro ⟨ho, n, hn⟩
    exact (frameFollowed hc' hc n hdone ho hn).1

/-- A function without arguments does its work at once. -/
theorem ends_start_user_nil_iff (hc : c.fn = .user d) (hc' : c'.fn = .user d)
    (hfresh : c.resolved = false ∧ c.prepared = false)
    (hfresh' : c'.resolved = false ∧ c'.prepared = false)
    (hargs : c.resolveArgs scope w.globals = .ok [])
    (hargs' : c'.resolveArgs scope w.globals = .ok []) :
    Ends files w (.start c scope) o ↔ Ends files w (.start c' scope) o := by
  have hready : ∀ {c : Call}, c.fn = .user d → c.canPrepare [] (-1) = true := by
    intro c hc
    rw [Call.canPrepare_user hc]
    rfl
  -- one direction, for any two calls
  have hdir : ∀ {c c' : Call}, c.fn = .user d → c'.fn = .user d →
      (c.resolved = false ∧ c.prepared = false) → (c'.resolved = false ∧ c'.prepared = false) →
        c.resolveArgs scope w.globals = .ok [] → c'.resolveArgs scope w.globals = .ok [] →
          Ends files w (.start c scope) o → Ends files w (.start c' scope) o := by
    rintro c c' hc hc' hfresh hfresh' hargs hargs' ⟨ho, n, hn⟩
    cases n with
    | zero =>
      dsimp only at hn
      rw [drive_zero] at hn
      rw [← hn] at ho
      cases ho
    | succ n =>
      exact (FrameFollowed.work (fun m _ => frameFollowed hc hc' m) hc hc' (Nat.zero_le _)
        (by simp) ho (step_start_ready hfresh.1 hfresh.2 hargs (hready hc))
        (step_start_ready hfresh'.1 hfresh'.2 hargs' (hready hc')) hn).1
  exact ⟨hdir hc hc' hfresh hfresh' hargs hargs', hdir hc' hc hfresh' hfresh hargs' hargs⟩

/-- The value of a call of a defined function is no call. -/
theorem Ends.isCall_of_user {w' : World} {v : Value} (hc : c.fn = .user d)
    (hfresh : c.resolved = false ∧ c.prepared = false)
    (h : Ends files w (.start c scope) ⟨w', .value v⟩) : v.isCall = false := by
  cases hr : c.resolveArgs scope w.globals with
  | error e =>
    rw [State.start, ends_halt_iff (step_start_error hfresh.1 hr)] at h
    cases h
  | ok args =>
    cases hp : c.canPrepare args (-1) with
    | true =>
      obtain ⟨ho, n, hn⟩ := h
      cases n with
      | zero =>
        dsimp only at hn
        rw [drive_zero] at hn
        cases hn
      | succ n =>
        have hstep : step files w (.start c scope) = _ := step_start_ready hfresh.1 hfresh.2 hr hp
        exact (FrameFollowed.work (fun m _ => frameFollowed hc hc m) hc hc (Nat.zero_le _)
          (by simp) ho hstep hstep hn).2 w' v rfl
    | false =>
      rw [State.start, ends_next_iff (step_start_scan hfresh.1 hfresh.2 hr hp)] at h
      obtain ⟨ho, n, hn⟩ := h
      have hscan : drive files n w (.scan (c.frame false scope [] args) []) = ⟨w', .value v⟩ := hn
      exact (frameFollowed hc hc n (by simp) ho hscan).2 w' v rfl

theorem resolveArgs_begin_plain {us : List Value} (hus : ∀ u ∈ us, u.isPlain = true)
    (globals : Scope) : (Call.begin (.user d) us).resolveArgs scope globals = .ok us := by
  rw [Call.resolveArgs_user rfl]
  exact lookupAll_of_ne_symbol (fun u hu => Value.ne_symbol_of_isPlain (hus u hu)) scope globals _

/-- A defined function that is invoked with plain values passes all but the last over. -/
theorem invokes_user_iff {front : List Value} {a : Value}
    (hplain : ∀ v ∈ front ++ [a], v.isPlain = true) :
    Invokes files scope (.user d) w (front ++ [a]) o ↔
      Ends files w (.scan ((Call.begin (.user d) (front ++ [a])).frame false scope front [a]) [])
        o := by
  have hcalls : ∀ v ∈ front ++ [a], v.isCall = false :=
    fun v hv => Value.isCall_of_isPlain (hplain v hv)
  have hreal : (Call.begin (.user d) (front ++ [a])).fn = .user d := rfl
  have hlen : (front ++ [a]).length = front.length + 1 := by simp
  have hnot := Call.canPrepare_user_of_lt (i := -1) hreal (by rw [hlen]; omega)
  show Ends files w (.start (Call.begin (.user d) (front ++ [a])) scope) o ↔ _
  rw [State.start, ends_next_iff (step_start_scan rfl rfl (resolveArgs_begin_plain hplain _) hnot)]
  show Ends files w (.scan ((Call.begin (.user d) (front ++ [a])).frame false scope []
    (front ++ [a])) []) o ↔ _
  rw [ends_pending_values_iff rfl hnot ?_ (by simp) (eachYields_values hcalls hcalls),
    afterArgs_values hcalls, List.nil_append, List.take_left, List.drop_left]
  intro j _ hj
  rw [List.length_nil] at hj
  exact Call.canPrepare_user_of_lt hreal (by rw [List.nil_append, hlen]; omega)

/-- **A call of a defined function invokes it** with the values of its arguments, if these stand
for themselves. -/
theorem ends_user_iff {vs : List Value} (hc : c.fn = .user d)
    (hfresh : c.resolved = false ∧ c.prepared = false)
    (hargs : c.resolveArgs scope w.globals = .ok vs)
    (hy : EachYields files scope (fun _ v => v.isPlain = true) w vs) :
    Ends files w (.start c scope) o ↔
      AfterArgs files scope w vs (Invokes files scope (.user d)) o := by
  rcases List.eq_nil_or_concat vs with rfl | ⟨front, a, rfl⟩
  · rw [afterArgs_nil]
    exact ends_start_user_nil_iff hc rfl hfresh ⟨rfl, rfl⟩ hargs
      (resolveArgs_begin_plain (by simp) _)
  · rw [List.concat_eq_append] at *
    have hlen : (front ++ [a]).length = front.length + 1 := by simp
    have hnot := Call.canPrepare_user_of_lt (i := -1) hc (by rw [hlen]; omega)
    have hquiet : ∀ j : Nat, ([] : List Value).length ≤ j →
        j < ([] : List Value).length + front.length →
          c.canPrepare (front ++ [a]) j = false := by
      intro j _ hj
      rw [List.length_nil] at hj
      exact Call.canPrepare_user_of_lt hc (by rw [hlen]; omega)
    have hcalls : EachYields files scope (fun _ v => v.isCall = false) w (front ++ [a]) :=
      hy.mono fun _ v => Value.isCall_of_isPlain
    rw [State.start, ends_next_iff (step_start_scan hfresh.1 hfresh.2 hargs hnot)]
    show Ends files w (.scan (c.frame false scope [] (front ++ [a])) []) o ↔ _
    rw [ends_pending_values_iff rfl hnot hquiet (by simp) hcalls]
    have hy' : EachYields files scope (fun _ v => True ∧ v.isPlain = true) w (front ++ [a]) :=
      hy.mono fun _ v hv => ⟨trivial, hv⟩
    refine afterArgs_congr (Q := fun _ => True) (R := fun v => v.isPlain = true) hy' trivial
      fun w us _ hus hplain => ?_
    obtain ⟨front', u, rfl, hfront⟩ := exists_concat_of_length (hus.trans hlen)
    rw [invokes_user_iff hplain, List.nil_append, ← hfront, List.take_left, List.drop_left]
    exact ends_frame_user_iff hc rfl fun v hv =>
      Value.isCall_of_isPlain (hplain v (List.mem_append_left _ hv))

end User

end MiniLisp

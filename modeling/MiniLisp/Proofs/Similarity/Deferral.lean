import MiniLisp.Proofs.Similarity.Simulation

/-!
# Deferred calls and bound ones

A call that is deferred in one run and bound in the other. While the arguments are evaluated, the
first run has the head of the call in front of them (`follows_pending`). Then it builds a call of
the function that the head stands for (`follows_built`), and from there on it does what the second
does with the arguments that it has (`ends_frame_plain_iff`).

With this the runs can be compared call by call, to the end. A text that is run through indifferent
states ends in every similar world, with the same text written, and with the same error or a similar
value (`runBlocks_similar`).
-/

namespace MiniLisp

section Frames

variable {files : Files} {w : World} {c : Call} {scope : Scope} {done todo : List Value}
  {o : Outcome}

/-- A defined function ends with the arguments that are left as it does when it is called with all
of them, if these stand for themselves. -/
theorem ends_frame_plain_iff {d : Definition} (hc : c.fn = .user d) (hne : todo ≠ [])
    (hplain : ∀ v ∈ done ++ todo, v.isPlain = true) :
    Ends files w (.scan (c.frame false scope done todo) []) o ↔
      Ends files w (.start (.begin (.user d) (done ++ todo)) scope) o := by
  obtain ⟨mid, a, rfl⟩ : ∃ mid a, todo = mid ++ [a] :=
    ⟨todo.dropLast, todo.getLast hne, (List.dropLast_append_getLast hne).symm⟩
  have hcalls : ∀ v ∈ done ++ (mid ++ [a]), v.isCall = false :=
    fun v hv => Value.isCall_of_isPlain (hplain v hv)
  have hquiet : ∀ j : Nat, j < done.length + mid.length →
      (c.canPrepare (done ++ (mid ++ [a])) j && !false) = false := by
    intro j hj
    have hlt : (j : Int) < (done ++ (mid ++ [a])).length - 1 := by
      simp only [List.length_append, List.length_singleton]
      omega
    rw [Call.canPrepare_user_of_lt hc hlt]
    rfl
  have hfirst : ∀ v ∈ done ++ mid, v.isCall = false :=
    fun v hv => hcalls v (by rw [← List.append_assoc]; exact List.mem_append_left [a] hv)
  have hreal : (Call.begin (.user d) (done ++ mid ++ [a])).fn = .user d := rfl
  rw [ends_frame_quiet_iff (fun v hv => hcalls v (by simp [hv])) done hquiet,
    ends_frame_user_iff hc hreal hfirst]
  rw [← List.append_assoc] at hplain ⊢
  exact (invokes_user_iff hplain).symm

/-- Values that come behind the work of a function are passed over. -/
theorem RunsTo.passes {Q : World × State → Prop} {vs : List Value}
    (hvs : ∀ v ∈ vs, v.isCall = false) {n : Nat} (hw : w.IsProper)
    (hs : (State.scan (c.frame true scope done (vs ++ todo)) []).IsProper)
    (h : RunsTo Q files n w (.scan (c.frame true scope done (vs ++ todo)) []) o) :
    ∃ m ≤ n, RunsTo Q files m w (.scan (c.frame true scope (done ++ vs) todo) []) o ∧
      (State.scan (c.frame true scope (done ++ vs) todo) []).IsProper := by
  induction vs generalizing n done with
  | nil =>
    rw [List.append_nil]
    exact ⟨n, Nat.le_refl n, h, hs⟩
  | cons v vs ih =>
    have hstep : step files w (.scan (c.frame true scope done (v :: (vs ++ todo))) []) = _ :=
      step_frame_pass (hvs v List.mem_cons_self) (Bool.and_false _)
    obtain ⟨m, hm, h⟩ := h.next hstep
    obtain ⟨k, hk, h, hs⟩ :=
      ih (fun u hu => hvs u (List.mem_cons_of_mem v hu)) (IsProper.next hw hs hstep).2 h
    rw [List.append_assoc, List.singleton_append] at h hs
    exact ⟨k, Nat.le_trans hk (Nat.le_of_lt hm), h, hs⟩

/-- The work of a deferred call whose head is a defined function: the call of that function becomes
its last argument. -/
theorem step_frame_build {e : Definition} {a : Value} {vs : List Value} (hc : c.isDeferred = true)
    (hargs : done ++ a :: todo = .function (.user e) :: vs) (ha : a.isCall = false)
    (hready : c.canPrepare (done ++ a :: todo) done.length = true) :
    step files w (.scan (c.frame false scope done (a :: todo)) []) =
      .next w (.scan (c.frame true scope (vs.take done.length)
        (vs.drop done.length ++ [.call (.begin (.user e) vs)])) []) := by
  have hlen : done.length ≤ vs.length := by
    have hlen := congrArg List.length hargs
    simp only [List.length_append, List.length_cons] at hlen
    omega
  have hprep : c.prepare scope w.globals (done ++ a :: todo) =
      .ok ⟨c, vs ++ [.call (.begin (.user e) vs)], scope, none⟩ := by
    rw [hargs, Call.prepare_deferred hc]
    rfl
  rw [step_frame_ready ha hready]
  unfold Frame.prepare Call.frame
  dsimp only
  rw [Call.prepare_mark, hprep, ← List.append_assoc, List.take_append_drop,
    List.length_take_of_le hlen]
  rfl

end Frames

section Steps

variable {M : Revision} {files : Files} {n : Nat} {h : String} {d e : Definition}
  {xs ys vs us done done' todo todo' : List Value} {scope scope' : Scope}

/-- A deferred call with a target does not end before it has done its work. -/
theorem indifferent_end (hM : M.target h = some d) :
    ((Call.defer (.symbol h) xs).frame false scope done []).indifferent M.target = false := by
  rw [Bool.eq_false_iff]
  intro hgood
  have htarget :
      ((Call.defer (.symbol h) xs).frame false scope done []).call.target? M.target = some d :=
    hM
  rcases Frame.end_of_indifferent hgood Call.frame_arg_nil with hprepared | hnone
  · cases hprepared
  · rw [htarget] at hnone
    cases hnone

/-- So there are arguments left in a run through indifferent states. -/
theorem todo_ne_nil {w : World} {o : Outcome} (hM : M.target h = some d)
    (hrun : RunsIndifferently M files n w
      (.scan ((Call.defer (.symbol h) xs).frame false scope done todo) []) o) : todo ≠ [] := by
  rintro rfl
  have hgood := hrun.first
  rw [State.indifferent, indifferent_end hM] at hgood
  cases hgood

/-- The head of a deferred call with a target stands for a function like it. -/
theorem lookup_of_indifferent {w : World} (hM : M.target h = some d)
    (hself : Function.Similar M (.user d) (.user d))
    (hgood : (State.start (.defer (.symbol h) xs) scope).indifferent M.target w = true) :
    ∃ f, lookup scope w.globals (.defer (.symbol h) xs) (.symbol h) = .ok (false, .function f) ∧
      f.Similar M (.user d) := by
  have htarget : (Call.defer (.symbol h) xs).target? M.target = some d := hM
  have hkeeps : (Call.defer (.symbol h) xs).keepsTarget M.target scope w.globals = true := hgood
  unfold Call.keepsTarget at hkeeps
  rw [htarget] at hkeeps
  dsimp only at hkeeps
  split at hkeeps
  · rename_i f hlookup
    exact ⟨f, hlookup, Function.Similar.of_isCopy f hkeeps hself⟩
  · cases hkeeps

/-- A deferred call does its work with the last of the arguments that it was written with. -/
theorem canPrepare_defer (head : Value) (xs args : List Value) (i : Nat) :
    (Call.defer head xs).canPrepare args i = decide (i = xs.length) := by
  rw [Call.canPrepare_deferred rfl, Bool.eq_iff_iff, beq_iff_eq, decide_eq_true_iff]
  simp only [Call.defer, Call.begin, List.length_cons]
  omega

theorem isPlain_of_similar (h : List.Forall₂ (Value.Similar M) vs us)
    (hvs : ∀ v ∈ vs, v.isPlain = true) : ∀ u ∈ us, u.isPlain = true := by
  induction h with
  | nil => exact hvs
  | cons hvu _ ih =>
    rw [List.forall_mem_cons, hvu.isPlain_eq] at hvs
    exact List.forall_mem_cons.mpr ⟨hvs.1, ih hvs.2⟩

theorem isReady_frame {c : Call} (hready : c.canPrepare (done ++ todo) done.length = true) :
    (c.frame false scope done todo).isReady (c.frame false scope done todo).index = true := by
  show (c.canPrepare (done ++ todo) done.length && !false) = true
  rw [hready]
  rfl

variable (ih : ∀ m < n, ∀ {s s' : State}, s.Similar M s' → Follows M files m s s')
include ih

/-- The first run has built the call that the second begins. -/
theorem follows_built {c : Call} (hc : c.isDeferred = true)
    (he : Function.Similar M (.user e) (.user d)) (hargs : List.Forall₂ (Value.Similar M) vs us)
    (hscope : Scope.Similar M scope scope') :
    Follows M files n (.scan (c.frame true scope done [.call (.begin (.user e) vs)]) [])
      (.start (.begin (.user d) us) scope') := by
  intro w w' o hw hproper hs hrun
  have hends : Ends files w (.start (.begin (.user e) vs) scope) o :=
    (ends_built_iff hc rfl fun _ _ hv => Ends.isCall_of_user rfl ⟨rfl, rfl⟩ hv).mp
      ⟨hrun.final, n, hrun.ends⟩
  have hcall : (Value.call (.begin (.user e) vs)).isProper true = true :=
    hs.1.args _ (List.mem_append_right done List.mem_cons_self)
  have hstart : (State.start (.begin (.user e) vs) scope).IsProper :=
    State.start_proper (Value.isProper_call _ ▸ hcall) (Scope.isProper_iff.mpr hs.1.scope)
  have hsimilar : State.Similar M (.start (.begin (.user e) vs) scope)
      (.start (.begin (.user d) us) scope') :=
    .start (Call.Alike.begin he hargs).similar ⟨rfl, rfl⟩ ⟨rfl, rfl⟩ hscope
  obtain ⟨m, hm, ⟨-, -, -, hinner⟩ | ⟨w1, -, v, -, hinner, -⟩⟩ :=
    hrun.scanCall State.indifferent_under State.indifferent_enter Call.frame_arg_cons rfl
  · exact ih m hm hsimilar hw hproper hstart hinner
  · -- the value of the built call is the value of the whole
    rw [hends.unique ⟨rfl, m, hinner.ends⟩]
    exact ih m hm hsimilar hw hproper hstart hinner

/-- The first run is about to build the call that the second begins. -/
theorem follows_build {c : Call} {a : Value} (hc : c.isDeferred = true)
    (hvs : done ++ a :: todo = .function (.user e) :: vs) (ha : a.isCall = false)
    (hready : c.canPrepare (done ++ a :: todo) done.length = true)
    (hcalls : ∀ v ∈ vs, v.isCall = false) (he : Function.Similar M (.user e) (.user d))
    (hargs : List.Forall₂ (Value.Similar M) vs us) (hscope : Scope.Similar M scope scope') :
    Follows M files n (.scan (c.frame false scope done (a :: todo)) [])
      (.start (.begin (.user d) us) scope') := by
  intro w w' o hw hproper hs hrun
  have hstep : step files w (.scan (c.frame false scope done (a :: todo)) []) = _ :=
    step_frame_build hc hvs ha hready
  obtain ⟨m, hm, hrun⟩ := hrun.next hstep
  obtain ⟨hproper, hs⟩ := IsProper.next hproper hs hstep
  obtain ⟨k, hk, hrun, hs⟩ :=
    hrun.passes (fun v hv => hcalls v (List.mem_of_mem_drop hv)) hproper hs
  rw [List.take_append_drop] at hrun hs
  have hkn : k < n := Nat.lt_of_le_of_lt hk hm
  exact follows_built (fun l hl => ih l (Nat.lt_trans hl hkn)) hc he hargs hscope hw hproper hs hrun

section Pending

variable {f : Function} (hM : M.target h = some d) (hname : d.name = .symbol h)
  (hargs : List.Forall₂ (Value.Similar M) xs ys) (hf : f.Similar M (.user d))
  (hdone : List.Forall₂ (Value.Similar M) done done')
  (htodo : List.Forall₂ (Value.Similar M) todo todo') (hscope : Scope.Similar M scope scope')
include hM hf hdone htodo hscope

/-- Both have come to the argument with which the first run builds a call. -/
theorem follows_pending_last {a b : Value} (hab : a.Similar M b) (ha : a.isCall = false)
    (hlast : done.length + 1 = xs.length) :
    Follows M files n
      (.scan ((Call.defer (.symbol h) xs).frame false scope (.function f :: done) (a :: todo)) [])
      (.scan ((Call.begin (.user d) ys).frame false scope' done' (b :: todo')) []) := by
  intro w w' o hw hproper hs hrun
  have hcan : (Call.defer (.symbol h) xs).canPrepare (.function f :: (done ++ a :: todo))
      (Value.function f :: done).length = true := by
    rw [canPrepare_defer]
    exact decide_eq_true hlast
  have hplain : ∀ v ∈ done ++ a :: todo, v.isPlain = true :=
    Frame.ready_of_indifferent hrun.first Call.frame_arg_cons ha (isReady_frame hcan) hM
  have hall : List.Forall₂ (Value.Similar M) (done ++ a :: todo) (done' ++ b :: todo') :=
    List.rel_append hdone (.cons hab htodo)
  obtain ⟨e, rfl⟩ := hf.exists_user
  obtain ⟨o', ho', hoo'⟩ := follows_build ih rfl rfl ha hcan
    (fun v hv => Value.isCall_of_isPlain (hplain v hv)) hf hall hscope hw hproper hs hrun
  exact ⟨o', (ends_frame_plain_iff rfl (List.cons_ne_nil b todo')
    (isPlain_of_similar hall hplain)).mpr ho', hoo'⟩

include hname hargs in
/-- Both have come to an argument that is passed over in the first run. -/
theorem follows_pending_pass {a b : Value} (hab : a.Similar M b) (ha : a.isCall = false)
    (hlen : done.length + 1 < xs.length) :
    Follows M files n
      (.scan ((Call.defer (.symbol h) xs).frame false scope (.function f :: done) (a :: todo)) [])
      (.scan ((Call.begin (.user d) ys).frame false scope' done' (b :: todo')) []) := by
  intro w w' o hw hproper hs hrun
  have hquiet : ((Call.defer (.symbol h) xs).canPrepare ((.function f :: done) ++ a :: todo)
      (Value.function f :: done).length && !false) = false := by
    rw [canPrepare_defer, decide_eq_false (by rw [List.length_cons]; omega)]
    rfl
  have hstep : step files w (.scan ((Call.defer (.symbol h) xs).frame false scope
      (.function f :: done) (a :: todo)) []) = _ := step_frame_pass ha hquiet
  obtain ⟨m, hm, hrun⟩ := hrun.next hstep
  obtain ⟨hproper, hs⟩ := IsProper.next hproper hs hstep
  cases htodo with
  | nil => exact absurd rfl (todo_ne_nil hM hrun)
  | @cons x y todo todo' hxy htodo =>
    have hquiet' : ((Call.begin (.user d) ys).canPrepare (done' ++ b :: y :: todo') done'.length &&
        !false) = false := by
      have hlt : (done'.length : Int) < (done' ++ b :: y :: todo').length - 1 := by
        simp only [List.length_append, List.length_cons]
        omega
      rw [Call.canPrepare_user_of_lt rfl hlt]
      rfl
    obtain ⟨o', ho', hoo'⟩ := ih m hm (.pending hM hname hargs hf
      (List.rel_append hdone (.cons hab .nil)) (.cons hxy htodo) (by simp; omega) hscope)
      hw hproper hs hrun
    exact ⟨o', (ends_next_iff (step_frame_pass (hab.isCall_eq ▸ ha) hquiet')).mpr ho', hoo'⟩

include hname hargs in
/-- Both go through the arguments of a call that is deferred in the first run only. -/
theorem follows_pending (hlen : done.length < xs.length) :
    Follows M files n
      (.scan ((Call.defer (.symbol h) xs).frame false scope (.function f :: done) todo) [])
      (.scan ((Call.begin (.user d) ys).frame false scope' done' todo') []) := by
  intro w w' o hw hproper hs hrun
  cases htodo with
  | nil => exact absurd rfl (todo_ne_nil hM hrun)
  | @cons a b todo todo' hab htodo =>
    cases ha : a.isCall with
    | true =>
      obtain ⟨c, rfl⟩ := Value.eq_call_of_isCall ha
      cases hab with
      | atom hatom => cases hatom
      | call hcd =>
        refine follows_call ih hcd hscope Call.frame_arg_cons Call.frame_arg_cons
          (fun finished finished' v u hvu => ?_) (fun finished u => ?_) hw hproper hs hrun
        · rw [Call.resume_frame_pending, Call.resume_frame_pending]
          exact .pending hM hname hargs hf hdone (.cons hvu htodo) hlen hscope
        · rw [Call.resume_frame_pending]
          refine ⟨rfl, ?_⟩
          show ((Call.begin (.user d) ys).canPrepare (done' ++ u :: todo') (-1) && !false) = false
          rw [Call.canPrepare_user_of_lt rfl (by simp; omega)]
          rfl
    | false =>
      by_cases hlast : done.length + 1 = xs.length
      · exact follows_pending_last ih hM hf hdone htodo hscope hab ha hlast hw hproper hs hrun
      · exact follows_pending_pass ih hM hname hargs hf hdone htodo hscope hab ha
          (Nat.lt_of_le_of_ne hlen hlast) hw hproper hs hrun

end Pending

/-- Both begin a call that is deferred in the first run only. -/
theorem follows_bound (hM : M.target h = some d) (hname : d.name = .symbol h)
    (hself : Function.Similar M (.user d) (.user d)) (hargs : List.Forall₂ (Value.Similar M) xs ys)
    (hscope : Scope.Similar M scope scope') :
    Follows M files n (.start (.defer (.symbol h) xs) scope)
      (.start (.begin (.user d) ys) scope') := by
  intro w w' o hw hproper hs hrun
  obtain ⟨f, hlookup, hf⟩ := lookup_of_indifferent hM hself hrun.first
  have hleft := resolveArgs_defer hlookup
  have hright : (Call.begin (.user d) ys).resolveArgs scope' w'.globals =
      lookupAll scope' w'.globals (.begin (.user d) ys) ys := Call.resolveArgs_user rfl
  -- errors of the look-up tell the call as it is written
  have hwrite : (Call.defer (.symbol h) xs).write = (Call.begin (.user d) ys).write :=
    Call.Similar.write_eq _ (.bound hM hname hargs)
  rcases (lookupAll_similar hwrite hscope hw.globals hargs).cases with
    ⟨e, h1, h2⟩ | ⟨vs, us, h1, h2, hvs⟩
  · rw [h1] at hleft
    rw [h2] at hright
    rw [hrun.halt (step_start_error rfl hleft)]
    exact ⟨_, (ends_halt_iff (step_start_error rfl hright)).mpr rfl, hw, .failed e⟩
  · rw [h1] at hleft
    rw [h2] at hright
    have hnot : (Call.defer (.symbol h) xs).canPrepare (.function f :: vs) (-1) = false :=
      Call.canPrepare_deferred_start (c := .defer (.symbol h) xs) rfl (Nat.succ_pos _) _
    have hstart : step files w (.start (.defer (.symbol h) xs) scope) = .next w
        (.scan ((Call.defer (.symbol h) xs).frame false scope [] (.function f :: vs)) []) :=
      step_start_scan rfl rfl hleft hnot
    obtain ⟨m, hm, hrun⟩ := hrun.next hstart
    obtain ⟨hproper, hs⟩ := IsProper.next hproper hs hstart
    cases hargs with
    | nil =>
      -- without arguments the head starts the work
      cases h1
      cases hvs
      obtain ⟨e, rfl⟩ := hf.exists_user
      exact follows_build (fun l hl => ih l (Nat.lt_trans hl hm)) rfl rfl rfl
        (canPrepare_defer _ _ _ 0) (by simp) hf .nil hscope hw hproper hs hrun
    | @cons x y xs ys hxy hargs =>
      -- the head is passed over, and there are values behind it: stars have not used up all
      have hpass : step files w (.scan ((Call.defer (.symbol h) (x :: xs)).frame false scope []
          (.function f :: vs)) []) = _ :=
        step_frame_pass rfl (by rw [List.length_nil, canPrepare_defer]; rfl)
      obtain ⟨k, hk, hrun⟩ := hrun.next hpass
      obtain ⟨hproper, hs⟩ := IsProper.next hproper hs hpass
      cases hvs with
      | nil => exact absurd rfl (todo_ne_nil hM hrun)
      | @cons v u vs us hvu hvs =>
        have hstart' : step files w' (.start (.begin (.user d) (y :: ys)) scope') = .next w'
            (.scan ((Call.begin (.user d) (y :: ys)).frame false scope' [] (u :: us)) []) :=
          step_start_scan rfl rfl hright
            (Call.canPrepare_user_of_lt rfl (by rw [List.nil_append, List.length_cons]; omega))
        obtain ⟨o', ho', hoo'⟩ := ih k (Nat.lt_trans hk hm) (.pending hM hname (.cons hxy hargs) hf
          .nil (.cons hvu hvs) (Nat.succ_pos _) hscope) hw hproper hs hrun
        exact ⟨o', (ends_next_iff hstart').mpr ho', hoo'⟩

end Steps

/-! ## Whole runs -/

section Runs

variable {M : Revision} {files : Files}

/-- A text fails in both worlds with its first block or goes on with the rest. -/
theorem blocksFollow {n : Nat}
    (ih : ∀ m < n, ∀ {s s' : State}, s.Similar M s' → Follows M files m s s')
    (ihb : ∀ m < n, BlocksFollow M files m) : BlocksFollow M files n := by
  intro w w' last last' cs o hw hproper hlast hvalues hrun
  cases cs with
  | nil =>
    rw [hrun.nil]
    exact ⟨_, blocksEnd_nil_iff.mpr rfl, hw, .value hvalues⟩
  | cons x cs =>
    have hne : x :: cs ≠ [] := List.cons_ne_nil x cs
    rcases (readCall_similar hw.globals (x :: cs)).cases with
      ⟨e, h1, h2⟩ | ⟨⟨c, rest⟩, ⟨d, _⟩, h1, h2, hcd, rfl⟩
    · rw [hrun.error hne h1]
      exact ⟨_, (blocksEnd_error_iff hne h2).mpr rfl, hw, .failed e⟩
    · have hblock : State.Similar M (.start c []) (.start d []) :=
        .start hcd (readCall_fresh h1) (readCall_fresh h2) .nil
      have hstart : (State.start c []).IsProper :=
        isProper_callKind.start (isProper_callKind.readCall (Scope.isProper_iff.mp hproper) h1)
          Scope.all_nil
      have hw1 : w.startBlock.Similar M w'.startBlock :=
        ⟨hw.globals, hw.output, hw.numbers⟩
      obtain ⟨m, hm, ⟨w1, e, rfl, hrun⟩ | ⟨w1, v, hrun, hrest⟩⟩ := hrun.ok hne h1
      · obtain ⟨o', ho', hoo'⟩ := ih m hm hblock hw1 hproper hstart hrun
        obtain ⟨w2, rfl, -⟩ := hoo'.of_failed
        exact ⟨_, (blocksEnd_cons_iff hne h2).mpr (Or.inl ⟨w2, e, rfl, ho'⟩), hoo'⟩
      · obtain ⟨o', ho', hoo'⟩ := ih m hm hblock hw1 hproper hstart hrun
        obtain ⟨w2, u, rfl, hw2, hvu⟩ := hoo'.of_value
        obtain ⟨hproper1, hv⟩ := hrun.proper hproper hstart
        obtain ⟨o', hend, hoo'⟩ := ihb m hm hw2 hproper1 (hv v rfl) hvu hrest
        exact ⟨o', (blocksEnd_cons_iff hne h2).mpr (Or.inr ⟨w2, u, ho', hend⟩), hoo'⟩

variable (hself : ∀ {h d}, M.target h = some d → Function.Similar M (.user d) (.user d))
include hself

/-- A run through indifferent states has a similar run in a similar world, and so has a text. -/
theorem follows_all (n : Nat) :
    (∀ {s s' : State}, s.Similar M s' → Follows M files n s s') ∧ BlocksFollow M files n := by
  -- both at once, since each needs the other with less fuel
  induction n using Nat.strongRecOn with
  | ind n ih =>
    have ihs : ∀ m < n, ∀ {s s' : State}, s.Similar M s' → Follows M files m s s' :=
      fun m hm => (ih m hm).1
    have ihb : ∀ m < n, BlocksFollow M files m := fun m hm => (ih m hm).2
    refine ⟨fun hs => ?_, blocksFollow ihs ihb⟩
    cases hs with
    | start hcd hfresh hfresh' hscope =>
      cases hcd with
      | parts hfn hargs hresolved hprepared hbody =>
        exact follows_start ihs ihb ⟨hfn, hargs, hresolved, hprepared, hbody⟩ hfresh hfresh' hscope
      | bound hM hname hargs => exact follows_bound ihs hM hname (hself hM) hargs hscope
    | scan hfg => exact follows_scan ihs ihb hfg
    | pending hM hname hargs hf hdone htodo hlen hscope =>
      exact follows_pending ihs hM hname hargs hf hdone htodo hscope hlen

/-- **A text does the same in similar worlds**, if its run goes through indifferent states only, and
if the targets of its deferred calls do what they did. It ends in both, with the same text written,
and with the same error or similar values. -/
theorem runBlocks_similar {n : Nat} {w w' : World} {last last' : Value} {cs : List Char}
    (hw : w.Similar M w') (hproper : w.IsProper) (hlast : last.isProper false = true)
    (hvalues : last.Similar M last') (hfinal : (runBlocks files n w last cs).isFinal = true)
    (hgood : ∀ t ∈ visitsBlocks files n w cs, t.2.indifferent M.target t.1 = true) :
    ∃ o', BlocksEnd files w' last' cs o' ∧ (runBlocks files n w last cs).Similar M o' :=
  (follows_all hself n).2 hw hproper hlast hvalues ⟨hfinal, rfl, hgood⟩

end Runs

end MiniLisp

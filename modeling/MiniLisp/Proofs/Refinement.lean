import MiniLisp.Proofs.Clean.Files
import MiniLisp.Proofs.Frames

/-!
# The machine refines the recursive evaluator

The machine keeps calls on an explicit stack and marks how far each has got; the evaluator recurses
and marks nothing. On clean calls both come to the same outcome, and one comes to an end whenever
the other does.

The frame of a call whose function has not done its work stands for `evalUntil`, the frame of one
whose function has done its work for `evalRest`. Each direction is an induction on the fuel of the
side it starts from; the other side goes by its rules.
-/

namespace MiniLisp

/-! ## Clean frames -/

section Frames

variable {c d : Call} {scope : Scope} {done todo : List Value} {v : Value}

/-- Also after the work of a deferred call a result just takes the place of its call, which is the
last argument: no other call is there to be marked. -/
theorem Call.Settling.resume_frame (h : c.Settling done (.call d :: todo)) (finished : Call) :
    (c.frame true scope done (.call d :: todo)).resume finished v =
      c.frame true scope done (v :: todo) := by
  cases hd : c.isDeferred with
  | false => exact Call.resume_frame_of_not_deferred hd finished
  | true =>
    have hnil : todo = [] := by
      cases todo with
      | nil => rfl
      | cons u todo =>
        have hbuilt := h.built hd (.call d)
        rw [List.dropLast_append_of_ne_nil (by simp), List.dropLast_cons_cons] at hbuilt
        cases hbuilt (by simp)
    rw [hnil]
    exact Call.resume_frame_last finished

/-- The arguments that preparing leaves, seen from the last evaluated one. -/
theorem Prepared.IsClean.settling_from {p : Prepared} {i : Nat} (h : p.IsClean c (i + 1)) :
    p.call.Settling (p.args.take i) (p.args.drop i) := by
  have hs := h.settling
  refine ⟨hs.body, fun v hv => ?_, fun v hv => h.clean v (List.mem_of_mem_drop hv), ?_⟩
  · exact Value.isClean_value (h.clean v (List.mem_of_mem_take hv)) (h.front v hv)
  · rw [List.take_append_drop]
    exact hs.built

/-- Before any argument is evaluated no more is known than before the first is passed. -/
theorem Prepared.IsClean.first {p : Prepared} (h : p.IsClean c 0) : p.IsClean c 1 :=
  ⟨h.fn, h.args, h.body, h.scope, h.clean, h.front, h.built⟩

end Frames

/-! ## From the evaluator to the machine -/

/-- Whatever the evaluator comes to with the fuel `n`, the machine ends with. -/
structure Followed (files : Files) (n : Nat) : Prop where
  call : ∀ {w scope c o}, w.IsClean files → Scope.isClean scope = true → c.isClean = true →
    o.isFinal = true → evalCall files n w scope c = o → Ends files w (.start c scope) o
  pending : ∀ {w scope c done todo o}, w.IsClean files → Scope.isClean scope = true →
    c.Pending done todo → c.canPrepare (done ++ todo) (-1) = false → o.isFinal = true →
      evalUntil files n w scope c done todo = o →
        Ends files w (.scan (c.frame false scope done todo) []) o
  prepared : ∀ {w scope c args i s o}, w.IsClean files →
    (∀ p, c.prepare scope w.globals args = .ok p → p.IsClean c (i + 1)) →
      step files w s = Frame.prepare files w ⟨c.mark true false, args, i, scope⟩ [] →
        o.isFinal = true → evalPrepared files n w scope c args = o → Ends files w s o
  settling : ∀ {w scope c done todo o}, w.IsClean files → Scope.isClean scope = true →
    c.Settling done todo → o.isFinal = true → evalRest files n w scope c done todo = o →
      Ends files w (.scan (c.frame true scope done todo) []) o
  blocks : ∀ {w last cs o}, w.IsClean files → last.isClean false = true →
    (∀ c, Block files w cs c → c.isOrderly = true) → o.isFinal = true →
      evalBlocks files n w last cs = o → BlocksEnd files w last cs o

/-- Without fuel the evaluator has come to nothing. -/
theorem Followed.zero (files : Files) : Followed files 0 := by
  refine ⟨?_, ?_, ?_, ?_, ?_⟩
  · rintro w scope c o - - - ho rfl; rw [evalCall_zero] at ho; cases ho
  · rintro w scope c done todo o - - - - ho rfl; rw [evalUntil_zero] at ho; cases ho
  · rintro w scope c args i s o - - - ho rfl; rw [evalPrepared_zero] at ho; cases ho
  · rintro w scope c done todo o - - - ho rfl; rw [evalRest_zero] at ho; cases ho
  · rintro w last cs o - - - ho rfl; rw [evalBlocks_zero] at ho; cases ho

namespace Followed

variable {files : Files} {n : Nat} {w : World} {scope : Scope} {c : Call} {done todo : List Value}
  {o : Outcome} (ih : Followed files n)
include ih

theorem call_succ (hw : w.IsClean files) (hs : Scope.isClean scope = true)
    (hc : c.isClean = true) (ho : o.isFinal = true)
    (h : evalCall files (n + 1) w scope c = o) : Ends files w (.start c scope) o := by
  obtain ⟨hres, hprep, -⟩ := (Call.isClean_iff c).mp hc
  cases hr : c.resolveArgs scope w.globals with
  | error e =>
    rw [evalCall_succ_error hr] at h
    rw [← h]
    exact (ends_halt_iff (step_start_error hres hr)).mpr rfl
  | ok args =>
    cases hp : c.canPrepare args (-1) with
    | true =>
      rw [evalCall_succ_ready hr hp] at h
      refine ih.prepared hw (fun p hq => ?_) (step_start_ready hres hprep hr hp) ho h
      exact (Call.prepare_clean_of_resolveArgs hc hs hw.globals hr hp hq).first
    | false =>
      rw [evalCall_succ_until hr hp] at h
      refine (ends_next_iff (step_start_scan hres hprep hr hp)).mpr ?_
      exact ih.pending hw hs (Call.pending_of_resolveArgs hc hs hw.globals hr hp) hp ho h

/-- A call among the arguments: its outcome on the machine, and the frame that goes on with its
value. -/
theorem scan_call {prepared : Bool} {d : Call} {k : World → Value → Outcome}
    (hw : w.IsClean files) (hs : Scope.isClean scope = true) (hd : d.isClean = true)
    (ho : o.isFinal = true) (h : (evalCall files n w scope d).andThen k = o)
    (hk : ∀ w' v finished, World.Grows w w' → v.isClean false = true → k w' v = o →
      Ends files w'
        (.enter ((c.frame prepared scope done (.call d :: todo)).resume finished v) []) o) :
    Ends files w (.scan (c.frame prepared scope done (.call d :: todo)) []) o := by
  refine (ends_scan_call_iff Call.frame_arg_cons ((Call.isClean_iff d).mp hd).1).mpr ?_
  rcases (Outcome.andThen_eq_iff ho).mp h with ⟨w', e, he, hev⟩ | ⟨w', v, hev, hv⟩
  · exact Or.inl ⟨w', e, he, ih.call hw hs hd ho hev⟩
  · obtain ⟨hgrow, hclean⟩ := (keepsClean files n).call hw hs hd w' v hev
    obtain ⟨finished, hf⟩ := (ih.call hw hs hd rfl hev).finishes
    exact Or.inr ⟨w', finished, v, hf, hk w' v finished hgrow hclean hv⟩

theorem pending_succ (hw : w.IsClean files) (hs : Scope.isClean scope = true)
    (hc : c.Pending done todo) (hnot : c.canPrepare (done ++ todo) (-1) = false)
    (ho : o.isFinal = true) (h : evalUntil files (n + 1) w scope c done todo = o) :
    Ends files w (.scan (c.frame false scope done todo) []) o := by
  cases todo with
  | nil =>
    rw [evalUntil_succ_nil] at h
    rw [ends_scan_finish_iff Call.frame_arg_nil, ← h]
    simp [Call.frame]
  | cons arg todo =>
    rw [evalUntil_succ_cons] at h
    -- a value is looked at in the same way whether it was there or came from a call
    have hvalue : ∀ {w v}, w.IsClean files → c.Pending done (v :: todo) →
        c.canPrepare (done ++ v :: todo) (-1) = false → v.isCall = false →
          (if c.canPrepare (done ++ v :: todo) done.length then
            evalPrepared files n w scope c (done ++ v :: todo)
          else evalUntil files n w scope c (done ++ [v]) todo) = o →
            Ends files w (.scan (c.frame false scope done (v :: todo)) []) o := by
      intro w v hw hc hnot hv h
      cases hp : c.canPrepare (done ++ v :: todo) done.length with
      | true =>
        rw [hp, if_pos rfl] at h
        exact ih.prepared hw (fun p => hc.prepare hv hs hw.globals hp) (step_frame_ready hv hp)
          ho h
      | false =>
        rw [hp, if_neg (by simp)] at h
        refine (ends_next_iff (step_frame_pass hv (by rw [hp]; rfl))).mpr ?_
        refine ih.pending hw hs (hc.pass hv) ?_ ho h
        rw [List.append_assoc]
        exact hnot
    cases harg : arg.isCall with
    | false =>
      refine hvalue hw hc hnot harg ?_
      cases arg with
      | call d => cases harg
      | _ => exact h
    | true =>
      obtain ⟨d, rfl⟩ := Value.eq_call_of_isCall harg
      have hd := hc.isClean_call
      refine ih.scan_call hw hs hd ho h fun w' v finished hgrow hv hk => ?_
      rw [Call.resume_frame_pending,
        ends_next_iff (step_frame_enter (by rw [Call.canPrepare_replace hnot]; rfl))]
      exact hvalue (hw.grow hgrow) (hc.replace hv) (Call.canPrepare_replace hnot)
        (Value.isCall_eq_false hv) hk

theorem settling_succ (hw : w.IsClean files) (hs : Scope.isClean scope = true)
    (hc : c.Settling done todo) (ho : o.isFinal = true)
    (h : evalRest files (n + 1) w scope c done todo = o) :
    Ends files w (.scan (c.frame true scope done todo) []) o := by
  cases todo with
  | nil =>
    rw [evalRest_succ_nil] at h
    rw [ends_scan_finish_iff Call.frame_arg_nil, ← h]
    simp [Call.frame]
  | cons arg todo =>
    rw [evalRest_succ_cons] at h
    have hvalue : ∀ {w v}, w.IsClean files → c.Settling done (v :: todo) → v.isCall = false →
        evalRest files n w scope c (done ++ [v]) todo = o →
          Ends files w (.scan (c.frame true scope done (v :: todo)) []) o := by
      intro w v hw hc hv h
      refine (ends_next_iff (step_frame_pass hv (Bool.and_false _))).mpr ?_
      exact ih.settling hw hs (hc.pass hv) ho h
    cases harg : arg.isCall with
    | false =>
      refine hvalue hw hc harg ?_
      cases arg with
      | call d => cases harg
      | _ => exact h
    | true =>
      obtain ⟨d, rfl⟩ := Value.eq_call_of_isCall harg
      have hd := hc.isClean_call
      refine ih.scan_call hw hs hd ho h fun w' v finished hgrow hv hk => ?_
      rw [hc.resume_frame, ends_next_iff (step_frame_enter (Bool.and_false _))]
      exact hvalue (hw.grow hgrow) (hc.replace hv) (Value.isCall_eq_false hv) hk

/-- What is left to evaluate after preparing. The machine goes on from the last evaluated argument;
the values before it make no difference. -/
theorem settling_from {p : Prepared} {i : Nat} (hw : w.IsClean files) (hp : p.IsClean c (i + 1))
    (ho : o.isFinal = true) (h : evalRest files n w p.scope p.call [] p.args = o) :
    Ends files w (.scan (p.call.frame true p.scope (p.args.take i) (p.args.drop i)) []) o := by
  have hend := ih.settling hw hp.scope hp.settling ho h
  rw [← List.take_append_drop i p.args] at hend
  exact (ends_frame_values_iff hp.front []).mp hend

theorem prepared_succ {args : List Value} {i : Nat} {s : State} (hw : w.IsClean files)
    (hc : ∀ p, c.prepare scope w.globals args = .ok p → p.IsClean c (i + 1))
    (hs : step files w s = Frame.prepare files w ⟨c.mark true false, args, i, scope⟩ [])
    (ho : o.isFinal = true) (h : evalPrepared files (n + 1) w scope c args = o) :
    Ends files w s o := by
  cases hp : c.prepare scope w.globals args with
  | error e =>
    rw [evalPrepared_succ_error hp] at h
    exact (ends_prepare_error_iff hs hp).mpr h.symm
  | ok p =>
    have hclean := hc p hp
    cases hl : p.load with
    | none =>
      rw [evalPrepared_succ_ok hp hl] at h
      exact (ends_prepare_ok_iff hs hp hl).mpr (ih.settling_from hw hclean ho h)
    | some path =>
      cases ht : files.read? path with
      | none =>
        rw [evalPrepared_succ_missing hp hl ht] at h
        exact ⟨ho, 1, by rw [← h]; exact drive_prepare_missing hs hp hl ht⟩
      | some text =>
        rw [evalPrepared_succ_load hp hl ht] at h
        have hfile := hw.files path text ht w (.refl w)
        -- the blocks of the file are run before the machine goes on
        refine (endsWith_succ_iff (by rw [drive_zero]; rfl) fun m =>
          drive_prepare_load hs hp hl ht).mpr ((endsWith_andThen_iff (runBlocks_steady files _ _ _)
            fun w' _ => drive_steady files w' _).mpr ?_)
        rcases (Outcome.andThen_eq_iff ho).mp h with ⟨w', e, he, hb⟩ | ⟨w', v, hb, hrest⟩
        · exact Or.inl ⟨w', e, he, ih.blocks hw rfl hfile ho hb⟩
        · have hgrow := ((keepsClean files n).blocks hw rfl hfile w' v hb).1
          exact Or.inr ⟨w', v, ih.blocks hw rfl hfile rfl hb,
            ih.settling_from (hw.grow hgrow) hclean ho hrest⟩

theorem blocks_succ {last : Value} {cs : List Char} (hw : w.IsClean files)
    (hcs : ∀ c, Block files w cs c → c.isOrderly = true) (ho : o.isFinal = true)
    (h : evalBlocks files (n + 1) w last cs = o) : BlocksEnd files w last cs o := by
  cases cs with
  | nil =>
    rw [evalBlocks_succ_nil] at h
    rw [blocksEnd_nil_iff, h]
  | cons x cs =>
    cases hr : readCall w.globals (x :: cs) with
    | error e =>
      rw [evalBlocks_succ_error (by simp) hr] at h
      rw [blocksEnd_error_iff (by simp) hr, h]
    | ok r =>
      obtain ⟨d, rest⟩ := r
      rw [evalBlocks_succ_ok (by simp) hr] at h
      have hd := readCall_clean hw.globals hr (hcs d (.first hr))
      have hw0 := hw.grow w.grows_startBlock
      refine (blocksEnd_cons_iff (by simp) hr).mpr ?_
      rcases (Outcome.andThen_eq_iff ho).mp h with ⟨w', e, he, hev⟩ | ⟨w', v, hev, hrest⟩
      · exact Or.inl ⟨w', e, he, ih.call hw0 rfl hd ho hev⟩
      · obtain ⟨hgrow, hv⟩ := (keepsClean files n).call hw0 rfl hd w' v hev
        refine Or.inr ⟨w', v, ih.call hw0 rfl hd rfl hev, ?_⟩
        exact ih.blocks (hw0.grow hgrow) hv (fun c hc => hcs c (.later hr ⟨rfl, n, hev⟩ hc)) ho
          hrest

theorem succ : Followed files (n + 1) :=
  ⟨ih.call_succ, ih.pending_succ, ih.prepared_succ, ih.settling_succ, fun hw _ => ih.blocks_succ hw⟩

end Followed

/-- Whatever the evaluator comes to, the machine ends with. -/
theorem followed (files : Files) (n : Nat) : Followed files n := by
  induction n with
  | zero => exact .zero files
  | succ n ih => exact ih.succ

/-! ## From the machine to the evaluator -/

/-- Whatever the machine ends with, given the fuel `n`, the evaluator comes to. -/
structure Explained (files : Files) (n : Nat) : Prop where
  call : ∀ {w scope c o}, w.IsClean files → Scope.isClean scope = true → c.isClean = true →
    o.isFinal = true → drive files n w (.start c scope) = o → Evaluates files w scope c o
  pending : ∀ {w scope c done todo o}, w.IsClean files → Scope.isClean scope = true →
    c.Pending done todo → c.canPrepare (done ++ todo) (-1) = false → o.isFinal = true →
      drive files n w (.scan (c.frame false scope done todo) []) = o →
        EvaluatesUntil files w scope c done todo o
  settling : ∀ {w scope c done todo o}, w.IsClean files → Scope.isClean scope = true →
    c.Settling done todo → o.isFinal = true →
      drive files n w (.scan (c.frame true scope done todo) []) = o →
        EvaluatesRest files w scope c done todo o
  blocks : ∀ {w last cs o}, w.IsClean files →
    (∀ c, Block files w cs c → c.isOrderly = true) → o.isFinal = true →
      runBlocks files n w last cs = o → BlocksEvaluate files w last cs o

/-- Without fuel the machine has come to nothing. -/
theorem Explained.zero (files : Files) : Explained files 0 := by
  refine ⟨?_, ?_, ?_, ?_⟩
  · rintro w scope c o - - - ho rfl; rw [drive_zero] at ho; cases ho
  · rintro w scope c done todo o - - - - ho rfl; rw [drive_zero] at ho; cases ho
  · rintro w scope c done todo o - - - ho rfl; rw [drive_zero] at ho; cases ho
  · rintro w last cs o - - ho rfl; rw [runBlocks_zero] at ho; cases ho

namespace Explained

variable {files : Files} {n : Nat} {w : World} {scope : Scope} {c : Call} {done todo : List Value}
  {o : Outcome} (ih : ∀ m ≤ n, Explained files m)
include ih

theorem prepared_succ {args : List Value} {i : Nat} {s : State} (hw : w.IsClean files)
    (hc : ∀ p, c.prepare scope w.globals args = .ok p → p.IsClean c (i + 1))
    (hs : step files w s = Frame.prepare files w ⟨c.mark true false, args, i, scope⟩ [])
    (ho : o.isFinal = true) (h : drive files (n + 1) w s = o) :
    EvaluatesPrepared files w scope c args o := by
  have hrest : ∀ {w : World} {p : Prepared}, w.IsClean files → p.IsClean c (i + 1) →
      drive files n w (.scan (p.call.frame true p.scope (p.args.take i) (p.args.drop i)) []) = o →
        EvaluatesRest files w p.scope p.call [] p.args o := by
    intro w p hw hp h
    have hend := (ih n (Nat.le_refl n)).settling hw hp.scope hp.settling_from ho h
    rw [← List.take_append_drop i p.args]
    exact (evaluatesRest_values_iff hp.front []).mpr hend
  cases hp : c.prepare scope w.globals args with
  | error e =>
    rw [drive_prepare_error hs hp] at h
    rw [evaluatesPrepared_error_iff hp, h]
  | ok p =>
    have hclean := hc p hp
    cases hl : p.load with
    | none =>
      rw [drive_prepare_ok hs hp hl] at h
      exact (evaluatesPrepared_ok_iff hp hl).mpr (hrest hw hclean h)
    | some path =>
      cases ht : files.read? path with
      | none =>
        rw [drive_prepare_missing hs hp hl ht] at h
        rw [evaluatesPrepared_missing_iff hp hl ht, h]
      | some text =>
        rw [drive_prepare_load hs hp hl ht] at h
        have hfile := hw.files path text ht w (.refl w)
        refine (evaluatesPrepared_load_iff hp hl ht).mpr ?_
        rcases (Outcome.andThen_eq_iff ho).mp h with ⟨w', e, he, hb⟩ | ⟨w', v, hb, hd⟩
        · exact Or.inl ⟨w', e, he, (ih n (Nat.le_refl n)).blocks hw hfile ho hb⟩
        · have hev := (ih n (Nat.le_refl n)).blocks hw hfile rfl hb
          exact Or.inr ⟨w', v, hev, hrest (hw.grow (hev.clean hw rfl hfile).1) hclean hd⟩

theorem call_succ (hw : w.IsClean files) (hs : Scope.isClean scope = true)
    (hc : c.isClean = true) (ho : o.isFinal = true)
    (h : drive files (n + 1) w (.start c scope) = o) : Evaluates files w scope c o := by
  obtain ⟨hres, hprep, -⟩ := (Call.isClean_iff c).mp hc
  cases hr : c.resolveArgs scope w.globals with
  | error e =>
    rw [State.start, drive_succ_halt (step_start_error hres hr)] at h
    rw [evaluates_error_iff hr, ← h]
    rfl
  | ok args =>
    cases hp : c.canPrepare args (-1) with
    | true =>
      refine (evaluates_ready_iff hr hp).mpr ?_
      refine prepared_succ ih hw (fun p hq => ?_) (step_start_ready hres hprep hr hp) ho h
      exact (Call.prepare_clean_of_resolveArgs hc hs hw.globals hr hp hq).first
    | false =>
      rw [State.start, drive_succ_next (step_start_scan hres hprep hr hp)] at h
      refine (evaluates_until_iff hr hp).mpr ?_
      have hpending := Call.pending_of_resolveArgs hc hs hw.globals hr hp
      exact (ih n (Nat.le_refl n)).pending hw hs hpending hp ho h

/-- A call among the arguments: what the evaluator makes of it, and the frame that goes on with its
value and less fuel. -/
theorem scan_call {prepared : Bool} {d : Call} (hw : w.IsClean files)
    (hs : Scope.isClean scope = true) (hd : d.isClean = true) (ho : o.isFinal = true)
    (h : drive files (n + 1) w (.scan (c.frame prepared scope done (.call d :: todo)) []) = o) :
    (∃ w' e, o = ⟨w', .failed e⟩ ∧ Evaluates files w scope d o) ∨
      (∃ w' v finished m, Evaluates files w scope d ⟨w', .value v⟩ ∧ m < n ∧
        drive files m w'
          (.enter ((c.frame prepared scope done (.call d :: todo)).resume finished v) []) = o) := by
  rcases drive_scan_call Call.frame_arg_cons ((Call.isClean_iff d).mp hd).1 ho h with
    ⟨w', e, he, hdr⟩ | ⟨w', finished, v, m, hdr, -, hm, hrest⟩
  · exact Or.inl ⟨w', e, he, (ih n (Nat.le_refl n)).call hw hs hd ho hdr⟩
  · exact Or.inr ⟨w', v, finished, m, (ih n (Nat.le_refl n)).call hw hs hd rfl hdr, hm, hrest⟩

theorem pending_succ (hw : w.IsClean files) (hs : Scope.isClean scope = true)
    (hc : c.Pending done todo) (hnot : c.canPrepare (done ++ todo) (-1) = false)
    (ho : o.isFinal = true)
    (h : drive files (n + 1) w (.scan (c.frame false scope done todo) []) = o) :
    EvaluatesUntil files w scope c done todo o := by
  cases todo with
  | nil =>
    rw [drive_scan_finish Call.frame_arg_nil] at h
    rw [evaluatesUntil_nil_iff, ← h]
    simp [Call.frame]
  | cons arg todo =>
    cases harg : arg.isCall with
    | false =>
      rw [evaluatesUntil_value_iff harg]
      cases hp : c.canPrepare (done ++ arg :: todo) done.length with
      | true =>
        rw [if_pos rfl]
        exact prepared_succ ih hw (fun p => hc.prepare harg hs hw.globals hp)
          (step_frame_ready harg hp) ho h
      | false =>
        rw [if_neg (by simp)]
        rw [drive_succ_next (step_frame_pass harg (by rw [hp]; rfl))] at h
        refine (ih n (Nat.le_refl n)).pending hw hs (hc.pass harg) ?_ ho h
        rw [List.append_assoc]
        exact hnot
    | true =>
      obtain ⟨d, rfl⟩ := Value.eq_call_of_isCall harg
      have hd := hc.isClean_call
      refine (evaluatesUntil_call_iff fun w' v hev =>
        Value.isCall_eq_false (hev.clean hw hs hd).2).mpr ?_
      rcases scan_call ih hw hs hd ho h with hfail | ⟨w', v, finished, m, hev, hm, hrest⟩
      · exact Or.inl hfail
      · obtain ⟨hgrow, hv⟩ := hev.clean hw hs hd
        have hnot' := Call.canPrepare_replace (v := v) hnot
        -- the run of the call has left the fuel `m`, and taking up the frame costs one more
        rw [Call.resume_frame_pending] at hrest
        obtain ⟨m, rfl, hscan⟩ := drive_frame_enter (by rw [hnot']; rfl) ho hrest
        exact Or.inr ⟨w', v, hev,
          (ih m (by omega)).pending (hw.grow hgrow) hs (hc.replace hv) hnot' ho hscan⟩

theorem settling_succ (hw : w.IsClean files) (hs : Scope.isClean scope = true)
    (hc : c.Settling done todo) (ho : o.isFinal = true)
    (h : drive files (n + 1) w (.scan (c.frame true scope done todo) []) = o) :
    EvaluatesRest files w scope c done todo o := by
  cases todo with
  | nil =>
    rw [drive_scan_finish Call.frame_arg_nil] at h
    rw [evaluatesRest_nil_iff, ← h]
    simp [Call.frame]
  | cons arg todo =>
    cases harg : arg.isCall with
    | false =>
      rw [drive_succ_next (step_frame_pass harg (Bool.and_false _))] at h
      exact (evaluatesRest_value_iff harg).mpr
        ((ih n (Nat.le_refl n)).settling hw hs (hc.pass harg) ho h)
    | true =>
      obtain ⟨d, rfl⟩ := Value.eq_call_of_isCall harg
      have hd := hc.isClean_call
      refine (evaluatesRest_call_iff fun w' v hev =>
        Value.isCall_eq_false (hev.clean hw hs hd).2).mpr ?_
      rcases scan_call ih hw hs hd ho h with hfail | ⟨w', v, finished, m, hev, hm, hrest⟩
      · exact Or.inl hfail
      · obtain ⟨hgrow, hv⟩ := hev.clean hw hs hd
        rw [hc.resume_frame] at hrest
        obtain ⟨m, rfl, hscan⟩ := drive_frame_enter (Bool.and_false _) ho hrest
        exact Or.inr ⟨w', v, hev,
          (ih m (by omega)).settling (hw.grow hgrow) hs (hc.replace hv) ho hscan⟩

theorem blocks_succ {last : Value} {cs : List Char} (hw : w.IsClean files)
    (hcs : ∀ c, Block files w cs c → c.isOrderly = true) (ho : o.isFinal = true)
    (h : runBlocks files (n + 1) w last cs = o) : BlocksEvaluate files w last cs o := by
  cases cs with
  | nil =>
    rw [runBlocks_succ_nil] at h
    rw [blocksEvaluate_nil_iff, h]
  | cons x cs =>
    cases hr : readCall w.globals (x :: cs) with
    | error e =>
      rw [runBlocks_succ_error (by simp) hr] at h
      rw [blocksEvaluate_error_iff (by simp) hr, h]
    | ok r =>
      obtain ⟨d, rest⟩ := r
      rw [runBlocks_succ_ok (by simp) hr] at h
      have hd := readCall_clean hw.globals hr (hcs d (.first hr))
      have hw0 := hw.grow w.grows_startBlock
      refine (blocksEvaluate_cons_iff (by simp) hr).mpr ?_
      rcases (Outcome.andThen_eq_iff ho).mp h with ⟨w', e, he, hdr⟩ | ⟨w', v, hdr, hrest⟩
      · exact Or.inl ⟨w', e, he, (ih n (Nat.le_refl n)).call hw0 rfl hd ho hdr⟩
      · have hev := (ih n (Nat.le_refl n)).call hw0 rfl hd rfl hdr
        have hgrow := (hev.clean hw0 rfl hd).1
        exact Or.inr ⟨w', v, hev, (ih n (Nat.le_refl n)).blocks (hw0.grow hgrow)
          (fun c hc => hcs c (.later hr hev hc)) ho hrest⟩

theorem succ : Explained files (n + 1) :=
  ⟨call_succ ih, pending_succ ih, settling_succ ih, blocks_succ ih⟩

end Explained

/-- Whatever the machine ends with, the evaluator comes to. -/
theorem explained (files : Files) (n : Nat) : Explained files n := by
  -- a call inside a call leaves less fuel than its own run took, by an unknown amount
  induction n using Nat.strongRecOn with
  | ind n ih =>
    cases n with
    | zero => exact .zero files
    | succ n => exact .succ fun m hm => ih m (Nat.lt_succ_of_le hm)

/-! ## Refinement -/

/-- A clean call ends on the machine with what the evaluator comes to. -/
theorem ends_start_iff_evaluates {files : Files} {w : World} {scope : Scope} {c : Call}
    {o : Outcome} (hw : w.IsClean files) (hs : Scope.isClean scope = true)
    (hc : c.isClean = true) : Ends files w (.start c scope) o ↔ Evaluates files w scope c o := by
  constructor
  · rintro ⟨ho, n, hn⟩
    exact (explained files n).call hw hs hc ho hn
  · rintro ⟨ho, n, hn⟩
    exact (followed files n).call hw hs hc ho hn

/-- **The machine refines the evaluator.** A call that has not begun, with nothing but clean values
in scope and no call behind a star in a deferred call, ends on the machine exactly when evaluating
it recursively does, and with the same value or error, the same text written and the same
globals. -/
theorem execute_endAlike_evalCall (files : Files) (w : World) (scope : Scope) (c : Call)
    (hc : c.isClean = true) (hs : Scope.isClean scope = true)
    (hg : Scope.isClean w.globals = true) (hf : files.Orderly w) :
    EndAlike (fun n => execute files n w scope c)
      (fun n => evalCall files n w.startBlock scope c) := by
  intro o
  have hw : w.startBlock.IsClean files := ⟨hg, hf.grow w.grows_startBlock⟩
  exact ends_start_iff_evaluates hw hs hc

/-- A deferred call of a local function with an argument that is a call:
`(f (+ 1 2))`, where the body of `f` is `(- x 4)`. In the one file a call stands behind a star, but
neither that call nor the one around it is deferred. -/
theorem execute_endAlike_evalCall_deferred :
    let f : Definition := ⟨0, .symbol "f", [.symbol "x"], false,
      .call (.begin (.builtin .difference) [.symbol "x", .int 4]), []⟩
    let scope : Scope := [(.symbol "f", .function (.user f))]
    let c : Call := .defer (.symbol "f") [.call (.begin (.builtin .sum) [.int 1, .int 2])]
    let files : Files := .ofList [("a.ls", "(defun 'g 'x (g x))\n(print *x (+ 1 2))")]
    c.isClean = true ∧ Scope.isClean scope = true ∧ files.Orderly (World.start false) ∧
      EndAlike (fun n => execute files n (World.start false) scope c)
        (fun n => evalCall files n (World.start false).startBlock scope c) := by
  intro f scope c files
  have hc : c.isClean = true := by decide
  have hs : Scope.isClean scope = true := by decide
  have hg : Scope.isClean (World.start false).globals = true := by decide
  have hf : files.Orderly (World.start false) := by
    refine Files.orderly_of_settled (by unfold Scope.All; decide) fun e he => ⟨3, ?_⟩
    rw [List.mem_singleton.mp he]
    decide +kernel
  exact ⟨hc, hs, hf, execute_endAlike_evalCall files (World.start false) scope c hc hs hg hf⟩

end MiniLisp

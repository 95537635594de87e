import MiniLisp.Proofs.Binding
import MiniLisp.Proofs.Completion

/-!
# Stars in deferred calls

A deferred call lets its function do its work when as many arguments have been evaluated as the call
was *written* with. A star that stands for several items moves the arguments behind it, so that the
last of them come after that moment; a star that stands for nothing leaves too few arguments for the
moment ever to come. The main statement says when the star may be replaced by its items and what
happens when it may not: the function is not invoked (`ends_deferred_short_iff`), or a finished call
is entered again and again (`ends_deferred_late_iff`).
-/

namespace MiniLisp

/-! ## Looking up -/

section Lookup

variable {scope globals : Scope} {c : Call} {xs ys xs' ys' : List Value}

theorem lookupAll_append (hx : lookupAll scope globals c xs = .ok xs')
    (hy : lookupAll scope globals c ys = .ok ys') :
    lookupAll scope globals c (xs ++ ys) = .ok (xs' ++ ys') := by
  induction xs generalizing xs' with
  | nil =>
    cases hx
    exact hy
  | cons a xs ih =>
    obtain ⟨front, rest, rfl, hrest, hfront⟩ := lookupAll_cons_iff.mp hx
    rw [List.append_assoc]
    exact lookupAll_cons_iff.mpr ⟨front, rest ++ ys', rfl, ih hrest, hfront⟩

/-- The items take the place of the star. -/
theorem lookupAll_star {star : Value} {items : List Value}
    (hx : lookupAll scope globals c xs = .ok xs')
    (hstar : lookup scope globals c star = .ok (true, .tuple items))
    (hy : lookupAll scope globals c ys = .ok ys') :
    lookupAll scope globals c (xs ++ star :: ys) = .ok (xs' ++ items ++ ys') := by
  rw [List.append_assoc]
  exact lookupAll_append hx
    (lookupAll_cons_iff.mpr ⟨items, ys', rfl, hy, Or.inr ⟨.tuple items, hstar, rfl⟩⟩)

end Lookup

/-! ## Too few arguments -/

/-- The last of some arguments behind a head, which is the head itself if there are none. -/
theorem cons_eq_concat (head : Value) (vs : List Value) :
    ∃ front, head :: vs = front ++ [vs.getLastD head] ∧ front.length = vs.length := by
  refine ⟨(head :: vs).dropLast, ?_, by simp⟩
  rw [← List.getLast_eq_getLastD (List.cons_ne_nil head vs)]
  exact (List.dropLast_concat_getLast (List.cons_ne_nil head vs)).symm

theorem isCall_getLastD {head : Value} {vs : List Value} (hhead : head.isCall = false)
    (hvs : ∀ v ∈ vs, v.isCall = false) : (vs.getLastD head).isCall = false := by
  have hmem : vs.getLastD head ∈ head :: vs := List.getLastD_mem_cons
  rcases List.mem_cons.mp hmem with h | h
  · rw [h]
    exact hhead
  · exact hvs _ h

section Short

variable {files : Files} {scope : Scope} {c : Call} {w : World} {o : Outcome}

/-- A deferred call with fewer arguments than it was written with invokes nothing: it evaluates
them and has the value of the last. -/
theorem ends_deferred_short_iff {head : Value} {vs : List Value} (hc : c.isDeferred = true)
    (hres : c.resolved = false) (hprep : c.prepared = false)
    (hargs : c.resolveArgs scope w.globals = .ok (head :: vs))
    (hlen : vs.length + 1 < c.args.length) (hhead : head.isCall = false)
    (hy : EachYields files scope (fun _ v => v.isCall = false) w vs) :
    Ends files w (.start c scope) o ↔
      AfterArgs files scope w vs (fun w us o => o = ⟨w, .value (us.getLastD head)⟩) o := by
  have hnot := Call.canPrepare_deferred_start hc (by omega)
  have hquiet : ∀ args (j : Nat), j ≤ vs.length → c.canPrepare args j = false := by
    intro args j hj
    rw [Call.canPrepare_deferred hc]
    exact beq_false_of_ne (by omega)
  have hyall : EachYields files scope (fun _ v => v.isCall = false) w (head :: vs) :=
    (eachYields_value hhead).mpr ⟨hhead, hy⟩
  obtain ⟨front, hcut, hfront⟩ := cons_eq_concat head vs
  rw [State.start, ends_next_iff (step_start_scan hres hprep hargs (hnot _))]
  show Ends files w (.scan (c.frame false scope [] (head :: vs)) []) o ↔ _
  rw [hcut, ends_pending_values_iff (by rw [hcut]; rfl) (hnot (head :: vs))
    (fun j _ hj => hquiet _ j (by rw [List.length_nil] at hj; omega)) (by simp) (hcut ▸ hyall),
    ← hcut, afterArgs_value hhead]
  refine afterArgs_congr (Q := fun _ => True) (R := fun v => v.isCall = false)
    (hy.mono fun _ v hv => ⟨trivial, hv⟩) trivial fun w us _ hus hvalues => ?_
  -- the last value is passed over too, and nothing is left
  obtain ⟨front', hcut', hfront'⟩ := cons_eq_concat head us
  have hpass : (c.canPrepare (front' ++ [us.getLastD head]) front'.length && !false) = false := by
    rw [hquiet _ _ (by omega)]
    rfl
  have hsame : front.length = front'.length := by omega
  rw [hcut', List.nil_append, hsame, List.take_left, List.drop_left,
    ends_next_iff (step_frame_pass (isCall_getLastD hhead hvalues) hpass),
    ends_scan_finish_iff Call.frame_arg_nil]
  simp only [Call.frame, List.append_nil, Call.conclude_mark, Call.conclude_deferred hc]

end Short

/-! ## Entering a finished call again -/

/-- Arguments that have been passed over, among them a call that is finished, and no call before
it. -/
def HoldsFinished (passed : List Value) : Prop :=
  (∀ v ∈ passed, ∀ s, v ≠ .symbol s) ∧ ∃ front finished rest,
    passed = front ++ .call finished :: rest ∧ (∀ v ∈ front, v.isCall = false) ∧
      finished.resolved = true ∧ finished.prepared = true

theorem HoldsFinished.concat {passed : List Value} {v : Value} (h : HoldsFinished passed)
    (hv : ∀ s, v ≠ .symbol s) : HoldsFinished (passed ++ [v]) := by
  obtain ⟨hsymbols, front, finished, rest, rfl, hmarks⟩ := h
  refine ⟨fun u hu => ?_, front, finished, rest ++ [v], by simp, hmarks⟩
  rcases List.mem_append.mp hu with hu | hu
  · exact hsymbols u hu
  · rw [List.mem_singleton.mp hu]
    exact hv

section Finished

variable {files : Files} {scope : Scope} {w : World}

/-- A finished call that is entered again goes through the arguments around it, finds itself, and is
entered again. So the machine never ends. -/
theorem drive_finished {front rest : List Value} {finished : Call} (hres : finished.resolved = true)
    (hprep : finished.prepared = true) (hfront : ∀ v ∈ front, v.isCall = false) (n : Nat) :
    ∀ stack, (drive files n w
        (.enter ⟨finished, front ++ .call finished :: rest, 0, scope⟩ stack)).isFinal = false ∧
      ∀ i ≤ front.length, (drive files n w
        (.scan ⟨finished, front ++ .call finished :: rest, i, scope⟩ stack)).isFinal = false := by
  have hready : ∀ (args : List Value) (i : Nat) (j : Int),
      Frame.isReady ⟨finished, args, i, scope⟩ j = false := by
    intro args i j
    rw [Frame.isReady, hprep]
    exact Bool.and_false _
  -- each round leaves one more frame on the stack, so the stack is arbitrary
  induction n with
  | zero =>
    intro stack
    refine ⟨by rw [drive_zero]; rfl, fun i _ => by rw [drive_zero]; rfl⟩
  | succ n ih =>
    intro stack
    refine ⟨?_, fun i hi => ?_⟩
    · rw [drive_succ_next (step_enter_resolved hres (hready _ _ _))]
      exact (ih stack).2 0 (Nat.zero_le _)
    · by_cases hlt : i < front.length
      · have harg : (front ++ .call finished :: rest)[i]? = some front[i] := by
          rw [List.getElem?_append_left hlt, List.getElem?_eq_getElem hlt]
        rw [drive_succ_next (step_scan_pass harg (hfront _ (List.getElem_mem hlt)) (hready _ _ _))]
        exact (ih stack).2 (i + 1) hlt
      · obtain rfl : i = front.length := by omega
        rw [drive_succ_next (step_scan_call (c := finished) (by simp))]
        exact (ih _).1

/-- A call of a defined function that holds a finished call never ends. -/
theorem not_ends_holdsFinished {d : Definition} {args : List Value} {o : Outcome}
    (h : HoldsFinished args) : ¬ Ends files w (.start (.begin (.user d) args) scope) o := by
  obtain ⟨hsymbols, front, finished, rest, rfl, hfront, hres, hprep⟩ := h
  have hargs : (Call.begin (.user d) (front ++ .call finished :: rest)).resolveArgs scope
      w.globals = .ok (front ++ .call finished :: rest) :=
    (Call.resolveArgs_user rfl).trans (lookupAll_of_ne_symbol hsymbols scope w.globals _)
  have hnot : ∀ i : Int, i < front.length →
      (Call.begin (.user d) (front ++ .call finished :: rest)).canPrepare
        (front ++ .call finished :: rest) i = false := by
    intro i hi
    refine Call.canPrepare_user_of_lt rfl ?_
    rw [List.length_append, List.length_cons]
    omega
  rw [State.start, ends_next_iff (step_start_scan rfl rfl hargs (hnot (-1) (by omega)))]
  show ¬ Ends files w (.scan ((Call.begin (.user d) (front ++ .call finished :: rest)).frame false
    scope [] (front ++ .call finished :: rest)) []) o
  rw [ends_frame_quiet_iff hfront [], List.nil_append,
    ends_next_iff (step_scan_call Call.frame_arg_cons)]
  · rintro ⟨ho, n, hn⟩
    rw [← hn] at ho
    exact absurd (ho.symm.trans (drive_finished hres hprep hfront n _).1) Bool.noConfusion
  · intro j hj
    rw [List.nil_append, hnot j (by simpa using hj)]
    rfl

end Finished

/-! ## Calls behind the work of the function -/

/-- Without stars a deferred call has as many arguments as it was written with. -/
theorem length_of_resolveArgs_deferred {scope globals : Scope} {c : Call} {args : List Value}
    (hc : c.isDeferred = true) (hstars : ∀ a ∈ c.args, a.isStar = false)
    (h : c.resolveArgs scope globals = .ok args) : args.length = c.args.length := by
  rw [Call.resolveArgs_deferred hc] at h
  exact length_lookupAll hstars h

section Late

variable {files : Files} {scope : Scope} {c e : Call} {d : Definition} {w : World} {o : Outcome}

/-- A result that comes after the work of a deferred call also puts its finished call in the place
of the argument of the built call. -/
theorem Call.resume_frame_built {fn : Function} {done todo args : List Value} {v : Value}
    (hc : c.isDeferred = true) (finished : Call) :
    (c.frame true scope done (.call e :: (todo ++ [.call (.begin fn args)]))).resume finished v =
      c.frame true scope done
        (v :: (todo ++ [.call (.begin fn (args.set done.length (.call finished)))])) := by
  have hmark : Frame.markDone (done ++ v :: (todo ++ [.call (.begin fn args)])) done.length
      finished =
        done ++ v :: (todo ++ [.call (.begin fn (args.set done.length (.call finished)))]) := by
    have hsplit : ∀ u : Value, done ++ v :: (todo ++ [u]) = done ++ v :: todo ++ [u] := by simp
    unfold Frame.markDone
    rw [hsplit, hsplit, List.getLast?_concat]
    dsimp only
    rw [if_pos (by simp), List.dropLast_concat]
    rfl
  unfold Frame.resume Call.frame
  rw [Call.isDeferred_mark, hc, set_append_cons]
  dsimp only
  rw [hmark]
  rfl

/-- A call behind the work of a deferred call is run in its place, and put where the built call had
it. -/
theorem ends_late_call_iff {fn : Function} {done passed todo : List Value}
    (hc : c.isDeferred = true) (he : e.resolved = false) (hlen : passed.length = done.length)
    (hvalue : ∀ w' v, Ends files w (.start e scope) ⟨w', .value v⟩ → v.isCall = false) :
    Ends files w (.scan (c.frame true scope done
        (.call e :: (todo ++ [.call (.begin fn (passed ++ .call e :: todo))]))) []) o ↔
      (∃ w' err, o = ⟨w', .failed err⟩ ∧ Ends files w (.start e scope) o) ∨
        ∃ w' finished v, Finishes files w (.start e scope) w' finished v ∧
          Ends files w' (.scan (c.frame true scope (done ++ [v]) (todo ++
            [.call (.begin fn (passed ++ [.call finished] ++ todo))])) []) o := by
  rw [ends_scan_call_iff Call.frame_arg_cons he]
  refine or_congr Iff.rfl (exists_congr fun w' => exists_congr fun finished =>
    exists_congr fun v => and_congr_right fun hf => ?_)
  rw [Call.resume_frame_built hc, ← hlen, set_append_cons, List.append_assoc,
    List.singleton_append, ends_next_iff (step_frame_enter (Bool.and_false _)),
    ends_next_iff (step_frame_pass (hvalue w' v hf.ends) (Bool.and_false _))]

/-- Once the built call holds a finished call, what is left of the arguments is evaluated and the
built call then never ends. -/
theorem ends_late_iff {done passed todo : List Value} (hc : c.isDeferred = true)
    (hpassed : HoldsFinished passed) (hlen : passed.length = done.length)
    (hy : EachYields files scope (fun _ v => v.isPlain = true) w todo) :
    Ends files w (.scan (c.frame true scope done
        (todo ++ [.call (.begin (.user d) (passed ++ todo))])) []) o ↔
      AfterArgs files scope w todo (fun _ _ _ => False) o := by
  -- `passed` is what the built call holds where the frame has the values `done`
  induction todo generalizing w done passed with
  | nil =>
    rw [List.nil_append, List.append_nil, afterArgs_nil, ends_scan_call_iff Call.frame_arg_cons rfl,
      iff_false]
    rintro (⟨w', err, -, h⟩ | ⟨w', finished, v, hf, -⟩)
    · exact not_ends_holdsFinished hpassed h
    · exact not_ends_holdsFinished hpassed hf.ends
  | cons a todo ih =>
    cases ha : a.isCall with
    | false =>
      rw [eachYields_value ha] at hy
      have hsplit : passed ++ a :: todo = passed ++ [a] ++ todo := by simp
      rw [List.cons_append, ends_next_iff (step_frame_pass ha (Bool.and_false _)), hsplit,
        afterArgs_value ha]
      exact ih (hpassed.concat (Value.ne_symbol_of_isPlain hy.1)) (by simp [hlen]) hy.2
    | true =>
      obtain ⟨e, rfl⟩ := Value.eq_call_of_isCall ha
      rw [eachYields_call] at hy
      rw [List.cons_append, ends_late_call_iff hc hy.1 hlen
        (fun w' v hv => Value.isCall_of_isPlain (hy.2 w' v hv).1), afterArgs_call]
      refine or_congr Iff.rfl (exists_congr fun w' => exists_finishes_iff fun finished v hf => ?_)
      exact ih (hpassed.concat fun s => by simp) (by simp [hlen]) (hy.2 w' v hf.ends).2

/-- A call behind the work of the function spoils the built call. -/
theorem ends_late_first_iff {done values more : List Value} (hc : c.isDeferred = true)
    (hdone : ∀ v ∈ done, v.isPlain = true) (hvalues : ∀ v ∈ values, v.isCall = false)
    (he : e.prepared = false)
    (hstars : e.isDeferred = true → ∀ a ∈ e.args, a.isStar = false)
    (hy : EachYields files scope (fun _ v => v.isPlain = true) w (values ++ .call e :: more)) :
    Ends files w (.scan (c.frame true scope done (values ++ .call e :: more ++
        [.call (.begin (.user d) (done ++ (values ++ .call e :: more)))])) []) o ↔
      AfterArgs files scope w (values ++ .call e :: more) (fun _ _ _ => False) o := by
  obtain ⟨hplain, hrest⟩ := (eachYields_append_of_values hvalues).mp hy
  rw [eachYields_call] at hrest
  rw [List.append_assoc, ends_frame_values_iff hvalues, List.cons_append,
    ← List.append_assoc done values, ends_late_call_iff hc hrest.1 rfl
      (fun w' v hv => Value.isCall_of_isPlain (hrest.2 w' v hv).1),
    afterArgs_append, afterArgs_values hvalues, afterArgs_call]
  refine or_congr Iff.rfl (exists_congr fun w' => exists_finishes_iff fun finished v hf => ?_)
  -- the built call now holds a call that is finished, and no call before it
  obtain ⟨hres, hprep⟩ := hf.marked ⟨hrest.1, he⟩ fun hd args hargs =>
    Nat.le_of_eq (length_of_resolveArgs_deferred hd (hstars hd) hargs).symm
  have hfront : ∀ u ∈ done ++ values, u.isPlain = true := by
    intro u hu
    rcases List.mem_append.mp hu with hu | hu
    · exact hdone u hu
    · exact hplain u hu
  have hpassed : HoldsFinished (done ++ values ++ [.call finished]) := by
    refine ⟨fun u hu s => ?_, done ++ values, finished, [], rfl,
      fun u hu => Value.isCall_of_isPlain (hfront u hu), hres, hprep⟩
    rcases List.mem_append.mp hu with hu | hu
    · exact Value.ne_symbol_of_isPlain (hfront u hu) s
    · rw [List.mem_singleton.mp hu]
      simp
  exact ends_late_iff hc hpassed (by simp) (hrest.2 w' v hf.ends).2

/-- **A deferred call with a call behind the work of its function never ends**, unless an argument
fails. -/
theorem ends_deferred_late_iff {vs values more : List Value} (hc : c.isDeferred = true)
    (hres : c.resolved = false) (hprep : c.prepared = false)
    (hlen : c.args.length = vs.length + 1)
    (hargs : c.resolveArgs scope w.globals =
      .ok (.function (.user d) :: (vs ++ (values ++ .call e :: more))))
    (hvalues : ∀ v ∈ values, v.isCall = false) (he : e.prepared = false)
    (hstars : e.isDeferred = true → ∀ a ∈ e.args, a.isStar = false)
    (hy : EachYields files scope (fun _ v => v.isPlain = true) w
      (vs ++ (values ++ .call e :: more))) :
    Ends files w (.start c scope) o ↔
      AfterArgs files scope w (vs ++ (values ++ .call e :: more)) (fun _ _ _ => False) o := by
  have hnot := Call.canPrepare_deferred_start hc (by omega)
  -- the last of `vs`, or the head if there are none, is where the function does its work
  obtain ⟨front, hcut, hfront⟩ := cons_eq_concat (.function (.user d)) vs
  have hsplit : ∀ {xs front : List Value} {x y : Value} (rest), x :: xs = front ++ [y] →
      x :: (xs ++ rest) = front ++ y :: rest := by
    intro xs front x y rest h
    rw [← List.cons_append, h, List.append_assoc, List.singleton_append]
  have hyall : EachYields files scope (fun _ v => v.isCall = false) w
      (front ++ [vs.getLastD (.function (.user d))]) := by
    rw [← hcut, eachYields_value rfl]
    exact ⟨rfl, hy.of_append.mono fun _ v => Value.isCall_of_isPlain⟩
  rw [State.start, ends_next_iff (step_start_scan hres hprep hargs (hnot _)), afterArgs_append]
  show Ends files w (.scan (c.frame false scope []
    (.function (.user d) :: (vs ++ (values ++ .call e :: more)))) []) o ↔ _
  rw [hsplit _ hcut, ends_pending_iff rfl (hnot _) ?_ hyall, ← hcut, afterArgs_value rfl]
  · refine afterArgs_congr_append (Q := fun _ => True) (R := fun v => v.isPlain = true)
      (hy.mono fun _ v hv => ⟨trivial, hv⟩) trivial fun w us _ hus hplain hrest => ?_
    obtain ⟨front', hcut', hfront'⟩ := cons_eq_concat (.function (.user d)) us
    have hlast : (us.getLastD (.function (.user d))).isCall = false :=
      isCall_getLastD rfl fun u hu => Value.isCall_of_isPlain (hplain u hu)
    have hready : c.canPrepare (front' ++ us.getLastD (.function (.user d)) ::
        (values ++ .call e :: more)) front'.length = true := by
      rw [Call.canPrepare_deferred hc]
      exact beq_iff_eq.mpr (by omega)
    have hsame : front.length = front'.length := by omega
    rw [hcut', List.nil_append, hsame, List.take_left, List.drop_left, List.singleton_append,
      ends_deferred_work_iff hc (hsplit _ hcut').symm hready hlast rfl rfl, hfront', List.take_left,
      List.drop_left]
    exact ends_late_first_iff hc hplain hvalues he hstars (hrest.mono fun _ v hv => hv.2)
  · intro j _ hj
    rw [Call.canPrepare_deferred hc]
    rw [List.length_nil] at hj
    exact beq_false_of_ne (by omega)

end Late

/-! ## Deferred calls with a star -/

/-- The arguments behind a star for `count` items that come after the work of the function. -/
def lateArgs (count : Nat) (post : List Value) : List Value :=
  post.drop (post.length - (count - 1))

section Star

variable {files : Files} {scope : Scope} {w : World} {f : String} {d : Definition}
  {head star : Value} {pre post pre' post' items : List Value} {o : Outcome}

/-- What comes after the work of the function: items that are more than the arguments behind the
star, and some of these arguments. -/
theorem drop_star (hpre : pre'.length = pre.length) (hpost : post'.length = post.length)
    (hitems : items ≠ []) :
    (pre' ++ items ++ post').drop (pre ++ star :: post).length =
      items.drop (post'.length + 1) ++ lateArgs items.length post' := by
  have hpos : 0 < items.length := List.length_pos_iff.mpr hitems
  have hn : (pre ++ star :: post).length = pre'.length + (post'.length + 1) := by
    rw [List.length_append, List.length_cons, hpre, hpost]
  have hm : post'.length + 1 - items.length = post'.length - (items.length - 1) := by omega
  rw [hn, List.append_assoc, List.drop_append, Nat.add_sub_cancel_left,
    List.drop_of_length_le (Nat.le_add_right _ _), List.nil_append, List.drop_append, hm, lateArgs]

section Expanded

variable (hpre : pre'.length = pre.length) (hpost : post'.length = post.length)
  (hargs : (Call.defer head (pre ++ star :: post)).resolveArgs scope w.globals =
    .ok (.function (.user d) :: (pre' ++ items ++ post')))
include hpre hpost hargs

/-- A star that stands for items, with no call after the work of the function. -/
theorem ends_star_values_iff (hitems : ∀ v ∈ items, v.isCall = false) (hne : items ≠ [])
    (hlate : ∀ v ∈ lateArgs items.length post', v.isCall = false)
    (hy : EachYields files scope (fun _ v => v.isCall = false) w (pre' ++ items ++ post')) :
    Ends files w (.start (.defer head (pre ++ star :: post)) scope) o ↔
      AfterArgs files scope w (pre' ++ items ++ post') (Invokes files scope (.user d)) o := by
  have hpos : 0 < items.length := List.length_pos_iff.mpr hne
  refine ends_defer_user_iff hargs ⟨?_, fun v hv => ?_⟩ hy
  · simp only [List.length_append, List.length_cons]
    omega
  · rw [drop_star hpre hpost hne] at hv
    rcases List.mem_append.mp hv with hv | hv
    · exact hitems v (List.mem_of_mem_drop hv)
    · exact hlate v hv

/-- A star that stands for nothing. -/
theorem ends_star_nothing_iff (hnil : items = [])
    (hy : EachYields files scope (fun _ v => v.isCall = false) w (pre' ++ items ++ post')) :
    Ends files w (.start (.defer head (pre ++ star :: post)) scope) o ↔
      AfterArgs files scope w (pre' ++ post')
        (fun w us o => o = ⟨w, .value (us.getLastD (.function (.user d)))⟩) o := by
  subst hnil
  rw [List.append_nil] at hargs hy
  refine ends_deferred_short_iff rfl rfl rfl hargs ?_ rfl hy
  show (pre' ++ post').length + 1 < (pre ++ star :: post).length + 1
  simp only [List.length_append, List.length_cons]
  omega

/-- A star with a call after the work of the function. -/
theorem ends_star_late_iff {values more : List Value} {e : Call}
    (hitems : ∀ v ∈ items, v.isCall = false)
    (hcut : lateArgs items.length post' = values ++ .call e :: more)
    (hvalues : ∀ v ∈ values, v.isCall = false) (he : e.prepared = false)
    (hstars : e.isDeferred = true → ∀ a ∈ e.args, a.isStar = false)
    (hy : EachYields files scope (fun _ v => v.isPlain = true) w (pre' ++ items ++ post')) :
    Ends files w (.start (.defer head (pre ++ star :: post)) scope) o ↔
      AfterArgs files scope w (pre' ++ items ++ post') (fun _ _ _ => False) o := by
  have hne : items ≠ [] := by
    rintro rfl
    simp [lateArgs] at hcut
  have hpos : 0 < items.length := List.length_pos_iff.mpr hne
  -- the arguments up to the work of the function, and those after it
  have hsplit : pre' ++ items ++ post' =
      (pre' ++ items ++ post').take (pre ++ star :: post).length ++
        (items.drop (post'.length + 1) ++ values ++ .call e :: more) := by
    rw [List.append_assoc (items.drop _), ← hcut, ← drop_star hpre hpost hne,
      List.take_append_drop]
  have hlen : ((pre' ++ items ++ post').take (pre ++ star :: post).length).length =
      (pre ++ star :: post).length := by
    refine List.length_take_of_le ?_
    simp only [List.length_append, List.length_cons]
    omega
  have hvalues' : ∀ v ∈ items.drop (post'.length + 1) ++ values, v.isCall = false := by
    intro v hv
    rcases List.mem_append.mp hv with hv | hv
    · exact hitems v (List.mem_of_mem_drop hv)
    · exact hvalues v hv
  generalize (pre' ++ items ++ post').take (pre ++ star :: post).length = vs at hsplit hlen
  rw [hsplit] at hargs hy ⊢
  exact ends_deferred_late_iff rfl rfl rfl (congrArg Nat.succ hlen.symm) hargs hvalues' he hstars hy

end Expanded

/-- The call with the items written out in the place of the star. -/
theorem ends_written_iff {c : Call}
    (hhead : lookup scope w.globals c head = .ok (false, .function (.user d)))
    (hitems : ∀ v ∈ items, v.isPlain = true)
    (hpre : lookupAll scope w.globals c pre = .ok pre') (hpre' : pre'.length = pre.length)
    (hpost : lookupAll scope w.globals c post = .ok post') (hpost' : post'.length = post.length)
    (hy : EachYields files scope (fun _ v => v.isCall = false) w (pre' ++ items ++ post')) :
    Ends files w (.start (.defer head (pre ++ items ++ post)) scope) o ↔
      AfterArgs files scope w (pre' ++ items ++ post') (Invokes files scope (.user d)) o := by
  have hself : lookupAll scope w.globals c items = .ok items :=
    lookupAll_of_ne_symbol (fun v hv => Value.ne_symbol_of_isPlain (hitems v hv)) _ _ _
  have hargs : (Call.defer head (pre ++ items ++ post)).resolveArgs scope w.globals =
      .ok (.function (.user d) :: (pre' ++ items ++ post')) := by
    rw [resolveArgs_defer (lookup_ok_congr hhead),
      lookupAll_ok_congr (lookupAll_append (lookupAll_append hpre hself) hpost)]
    rfl
  refine ends_defer_user_iff hargs (inTime_of_length ?_) hy
  simp only [List.length_append, hpre', hpost']

/-- **A star in a deferred call.** Let the head of the call stand for a defined function and one of
its arguments be a star that stands for a tuple of items. Written out, the call invokes the function
with the values of its arguments. With the star it does the same if the star stands for at least one
item and no call is among the last arguments behind it, one less than there are items. If the star
stands for nothing the function is not invoked and the value is that of the last argument, or the
function itself. If there is a call among these last arguments the call with the star never ends,
unless an argument fails. -/
theorem deferred_call_with_star
    (hf : lookup scope w.globals (.defer (.symbol f) (pre ++ star :: post)) (.symbol f) =
      .ok (false, .function (.user d)))
    (hstar : lookup scope w.globals (.defer (.symbol f) (pre ++ star :: post)) star =
      .ok (true, .tuple items)) (hitems : ∀ v ∈ items, v.isPlain = true)
    (hstars : ∀ a ∈ pre ++ post, a.isStar = false)
    (hpre : lookupAll scope w.globals (.defer (.symbol f) (pre ++ star :: post)) pre = .ok pre')
    (hpost : lookupAll scope w.globals (.defer (.symbol f) (pre ++ star :: post)) post = .ok post')
    (hy : EachYields files scope (fun _ v => v.isCall = false) w.startBlock
      (pre' ++ items ++ post')) :
    let starred := fun n => execute files n w scope (.defer (.symbol f) (pre ++ star :: post))
    let written := fun n => execute files n w scope (.defer (.symbol f) (pre ++ items ++ post))
    (∀ o, EndsWith written o ↔ AfterArgs files scope w.startBlock (pre' ++ items ++ post')
        (Invokes files scope (.user d)) o) ∧
      (items ≠ [] → (∀ v ∈ lateArgs items.length post', v.isCall = false) →
        EndAlike starred written) ∧
      (items = [] → ∀ o, EndsWith starred o ↔ AfterArgs files scope w.startBlock (pre' ++ post')
        (fun w us o => o = ⟨w, .value (us.getLastD (.function (.user d)))⟩) o) ∧
      ∀ values e more, lateArgs items.length post' = values ++ .call e :: more →
        (∀ v ∈ values, v.isCall = false) → e.prepared = false →
        (e.isDeferred = true → ∀ a ∈ e.args, a.isStar = false) →
        EachYields files scope (fun _ v => v.isPlain = true) w.startBlock
          (pre' ++ items ++ post') →
        ∀ o, EndsWith starred o ↔ AfterArgs files scope w.startBlock (pre' ++ items ++ post')
          (fun _ _ _ => False) o := by
  intro starred written
  have hcalls : ∀ v ∈ items, v.isCall = false := fun v hv => Value.isCall_of_isPlain (hitems v hv)
  have hpre' := length_lookupAll (fun a ha => hstars a (List.mem_append_left _ ha)) hpre
  have hpost' := length_lookupAll (fun a ha => hstars a (List.mem_append_right _ ha)) hpost
  have hargs : (Call.defer (.symbol f) (pre ++ star :: post)).resolveArgs scope
      w.startBlock.globals = .ok (.function (.user d) :: (pre' ++ items ++ post')) := by
    refine (resolveArgs_defer hf).trans ?_
    rw [lookupAll_star hpre hstar hpost]
    rfl
  have hwritten : ∀ o, EndsWith written o ↔ AfterArgs files scope w.startBlock
      (pre' ++ items ++ post') (Invokes files scope (.user d)) o :=
    fun o => ends_written_iff hf hitems hpre hpre' hpost hpost' hy
  refine ⟨hwritten, fun hne hlate o => ?_, fun hnil o => ?_, ?_⟩
  · rw [hwritten]
    exact ends_star_values_iff hpre' hpost' hargs hcalls hne hlate hy
  · exact ends_star_nothing_iff hpre' hpost' hargs hnil hy
  · intro values e more hcut hvalues he hdef hplain o
    exact ends_star_late_iff hpre' hpost' hargs hcalls hcut hvalues he hdef hplain

/-- `(f *v (+ 3))`: if `v` stands for nothing the function is not invoked, and if it stands for two
items the call never ends. With the items written out the function is invoked. -/
theorem deferred_call_with_star_before_call :
    let d : Definition := ⟨0, .symbol "f", [.symbol "*"], true,
      .call (.begin (.builtin .sum) [.int 7]), []⟩
    let e : Call := .begin (.builtin .sum) [.int 3]
    let w : World := World.start false
    let scope : List Value → Scope := fun items =>
      [(.symbol "f", .function (.user d)), (.symbol "v", .tuple items)]
    let starred : Call := .defer (.symbol "f") [.symbol "*v", .call e]
    (EndsWith (fun n => execute (Files.ofList []) n w (scope []) starred)
        ⟨w.startBlock, .value (.int 3)⟩ ∧
      EndsWith (fun n => execute (Files.ofList []) n w (scope [])
        (.defer (.symbol "f") [.call e])) ⟨w.startBlock, .value (.int 7)⟩) ∧
      (∀ o, ¬ EndsWith (fun n => execute (Files.ofList []) n w (scope [.int 1, .int 2]) starred)
        o) ∧
      EndsWith (fun n => execute (Files.ofList []) n w (scope [.int 1, .int 2])
        (.defer (.symbol "f") [.int 1, .int 2, .call e])) ⟨w.startBlock, .value (.int 7)⟩ := by
  intro d e w scope starred
  have hsum : ∀ items, Ends (Files.ofList []) w.startBlock (.start e (scope items))
      ⟨w.startBlock, .value (.int 3)⟩ := fun items => ⟨rfl, 5, rfl⟩
  have hyields : ∀ items, EachYields (Files.ofList []) (scope items) (fun _ v => v.isPlain = true)
      w.startBlock [.call e] := by
    intro items
    rw [eachYields_call]
    refine ⟨rfl, fun w' v hv => ?_⟩
    cases hv.unique (hsum items)
    exact ⟨rfl, trivial⟩
  refine ⟨⟨?_, ⟨rfl, 30, rfl⟩⟩, fun o h => ?_, ⟨rfl, 30, rfl⟩⟩
  · have hstar := @deferred_call_with_star (Files.ofList []) (scope []) w "f" d (.symbol "*v")
      [] [.call e] [] [.call e] [] rfl rfl (by simp) (by decide) rfl rfl
      ((hyields []).mono fun _ v => Value.isCall_of_isPlain)
    refine (hstar.2.2.1 rfl _).mpr (afterArgs_call.mpr (Or.inr ⟨_, _, hsum [], ?_⟩))
    exact afterArgs_nil.mpr rfl
  · have hy : EachYields (Files.ofList []) (scope [.int 1, .int 2]) (fun _ v => v.isPlain = true)
        w.startBlock [.int 1, .int 2, .call e] := ⟨rfl, rfl, hyields _⟩
    have hstar := @deferred_call_with_star (Files.ofList []) (scope [.int 1, .int 2]) w "f" d
      (.symbol "*v") [] [.call e] [] [.call e] [.int 1, .int 2] rfl rfl (by decide) (by decide) rfl
      rfl (hy.mono fun _ v => Value.isCall_of_isPlain)
    have hnever : AfterArgs (Files.ofList []) (scope [.int 1, .int 2]) w.startBlock
        [.int 1, .int 2, .call e] (fun _ _ _ => False) o :=
      (hstar.2.2.2 [] e [] rfl (by simp) rfl (fun h => by cases h) hy o).mp h
    rw [afterArgs_value rfl, afterArgs_value rfl, afterArgs_call] at hnever
    rcases hnever with ⟨w', err, rfl, hfail⟩ | ⟨w', v, -, hafter⟩
    · cases hfail.unique (hsum _)
    · exact afterArgs_nil.mp hafter

end Star

end MiniLisp

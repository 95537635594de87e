import MiniLisp.Proofs.ArgumentValues

/-!
# Special forms

A special form evaluates some of its arguments and then looks at their values. They tell it in which
scope it goes on and which of the other arguments it evaluates there; those that it does not choose
are never touched. What is particular to a form is how it chooses (`Form`). That a call of the form
does nothing else is the same for all of them (`Form.ends_iff`).
-/

namespace MiniLisp

/-- The items of pairs, pair after pair. -/
def inTurn {α : Type} : List (α × α) → List α
  | [] => []
  | (a, b) :: pairs => a :: b :: inTurn pairs

@[simp] theorem length_inTurn {α : Type} (pairs : List (α × α)) :
    (inTurn pairs).length = 2 * pairs.length := by
  induction pairs with
  | nil => rfl
  | cons p pairs ih =>
    rw [inTurn, List.length_cons, List.length_cons, ih, List.length_cons]
    omega

/-! ## Forms -/

/-- The call `c` is one of a special form. It evaluates `count` arguments in front of `rest`. From
their values `choose` gets the scope to go on in and the arguments of `rest` to go on with. -/
structure Form (c : Call) (scope : Scope) (count : Nat) (rest : List Value)
    (choose : List Value → Except Error (Scope × List Value)) : Prop where
  direct : c.isDeferred = false
  pos : 0 < count
  ready : ∀ (args : List Value) (i : Int), args.length = count + rest.length →
    (c.canPrepare args i = true ↔ i + 1 = count)
  prepare : ∀ (globals : Scope) (us : List Value), us.length = count →
    c.prepare scope globals (us ++ rest) =
      (choose us).map fun r => ⟨c, us ++ r.2, r.1, none⟩
  scope : ∀ us r, (∀ u ∈ us, u.isProper false = true) → Scope.isProper scope = true →
    choose us = .ok r → Scope.isProper r.1 = true
  chosen : ∀ us r, choose us = .ok r → ∀ v ∈ r.2, v ∈ rest

/-- What a special form comes to when the arguments that it evaluates have the values `us`. -/
def Form.GoesOn (files : Files) (c : Call)
    (choose : List Value → Except Error (Scope × List Value)) (w : World) (us : List Value)
    (o : Outcome) : Prop :=
  match choose us with
  | .error e => o = ⟨w, .failed e⟩
  | .ok r => AfterArgs files r.1 w r.2 (fun w vs o => o = c.conclude w r.1 (us ++ vs)) o

section Forms

variable {files : Files} {scope scope' : Scope} {c : Call} {w : World} {count : Nat}
  {choose : List Value → Except Error (Scope × List Value)} {u : Value}
  {args done more rest vs : List Value} {o : Outcome}

/-- The arguments of a call whose number is checked early. -/
theorem Call.resolveArgs_early {globals : Scope} (hearly : c.fn.checksEarly = true)
    (hvs : lookupAll scope globals c c.args = .ok vs)
    (hvalid : c.validate (c.sortArgs vs) = .ok ()) :
    c.resolveArgs scope globals = .ok (c.sortArgs vs) := by
  have hlook : c.lookupArgs scope globals = .ok vs := hvs
  rw [Call.resolveArgs, hlook]
  dsimp only
  rw [if_pos hearly, hvalid]
  rfl

theorem Form.goesOn_error_iff {e : Error} {us : List Value} (h : choose us = .error e) :
    Form.GoesOn files c choose w us o ↔ o = ⟨w, .failed e⟩ := by
  rw [Form.GoesOn, h]

theorem Form.goesOn_ok_iff {us : List Value} (h : choose us = .ok (scope, more)) :
    Form.GoesOn files c choose w us o ↔
      AfterArgs files scope w more (fun w vs o => o = c.conclude w scope (us ++ vs)) o := by
  rw [Form.GoesOn, h]

/-- The work of a function that leaves the evaluated arguments as they are. -/
theorem ends_frame_work_iff (hc : c.isDeferred = false) (hu : u.isCall = false)
    (hready : c.canPrepare (done ++ u :: rest) done.length = true)
    (hprep : c.prepare scope w.globals (done ++ u :: rest) =
      .ok ⟨c, done ++ u :: more, scope', none⟩)
    (hy : EachYields files scope' (fun _ v => v.isCall = false) w more) :
    Ends files w (.scan (c.frame false scope done (u :: rest)) []) o ↔
      AfterArgs files scope' w more
        (fun w vs o => o = c.conclude w scope' (done ++ u :: vs)) o := by
  refine (ends_prepare_ok_iff (step_frame_ready hu hready) hprep rfl).trans ?_
  dsimp only
  rw [List.take_left, List.drop_left]
  show Ends files w (.scan (c.frame true scope' done (u :: more)) []) o ↔ _
  rw [ends_frame_rest_iff hc ((eachYields_value hu).mpr ⟨hu, hy⟩), afterArgs_value hu]

/-- The last of the evaluated arguments starts the work of the form. -/
theorem Form.ends_ready_iff (hform : Form c scope count rest choose)
    (hlen : done.length + 1 = count) (hvalues : ∀ v ∈ done ++ [u], v.isProper false = true)
    (hplace : Place scope w rest) :
    Ends files w (.scan (c.frame false scope done (u :: rest)) []) o ↔
      Form.GoesOn files c choose w (done ++ [u]) o := by
  have hu : u.isCall = false := isProper_kind.value (hvalues u (by simp))
  have hready : c.canPrepare (done ++ u :: rest) done.length = true := by
    rw [hform.ready _ _ (by simp only [List.length_append, List.length_cons]; omega)]
    omega
  have hprep := hform.prepare w.globals (done ++ [u]) (by simpa using hlen)
  rw [List.append_assoc, List.singleton_append] at hprep
  cases hr : choose (done ++ [u]) with
  | error e =>
    rw [hr] at hprep
    rw [Form.goesOn_error_iff hr]
    exact ends_prepare_error_iff (step_frame_ready hu hready) hprep
  | ok r =>
    obtain ⟨scope', more⟩ := r
    rw [hr] at hprep
    simp only [Except.map, List.append_assoc, List.singleton_append] at hprep
    have hscope : Scope.isProper scope' = true := hform.scope _ _ hvalues hplace.locals hr
    have hmore := hplace.mono (hform.chosen _ _ hr)
    have hy : EachYields files scope' (fun w v => w.IsProper ∧ v.isProper false = true) w more :=
      eachYields_of_proper hplace.globals hscope hmore.proper hmore.fresh
    rw [Form.goesOn_ok_iff hr, ends_frame_work_iff hform.direct hu hready hprep
      (hy.mono fun _ v hv => isProper_kind.value hv.2)]
    simp only [List.append_assoc, List.singleton_append]

/-- Before the last of the arguments in front there is nothing to do but to evaluate them. -/
theorem Form.ends_pending_iff {front : List Value} {a : Value}
    (hform : Form c scope count rest choose)
    (hfresh : c.resolved = false ∧ c.prepared = false)
    (hargs : c.resolveArgs scope w.globals = .ok (front ++ a :: rest))
    (hlen : front.length + 1 = count)
    (hy : EachYields files scope (fun _ v => v.isCall = false) w (front ++ [a])) :
    Ends files w (.start c scope) o ↔
      AfterArgs files scope w (front ++ [a]) (fun w us o => Ends files w (.scan (c.frame false scope
        (us.take front.length) (us.drop front.length ++ rest)) []) o) o := by
  have hquiet : ∀ i : Int, i < front.length → c.canPrepare (front ++ a :: rest) i = false := by
    intro i hi
    refine Bool.eq_false_iff.mpr fun hready => ?_
    rw [hform.ready _ _ (by simp only [List.length_append, List.length_cons]; omega)] at hready
    omega
  have hnot := hquiet (-1) (by omega)
  rw [State.start, ends_next_iff (step_start_scan hfresh.1 hfresh.2 hargs hnot)]
  show Ends files w (.scan (c.frame false scope [] (front ++ a :: rest)) []) o ↔ _
  rw [MiniLisp.ends_pending_iff rfl hnot
    (fun j _ hj => hquiet j (by rw [List.length_nil] at hj; omega)) hy]
  simp only [List.nil_append]

/-- **A call of a special form** evaluates the arguments in front, and then only those that it
chooses by their values. -/
theorem Form.ends_iff (hform : Form c scope count rest choose)
    (hfresh : c.resolved = false ∧ c.prepared = false)
    (hargs : c.resolveArgs scope w.globals = .ok (vs ++ rest)) (hlen : vs.length = count)
    (hplace : Place scope w (vs ++ rest)) :
    Ends files w (.start c scope) o ↔
      AfterArgs files scope w vs (Form.GoesOn files c choose) o := by
  obtain ⟨n, rfl⟩ := Nat.exists_eq_succ_of_ne_zero (Nat.ne_of_gt hform.pos)
  obtain ⟨front, a, rfl, rfl⟩ := exists_concat_of_length hlen
  have hsplit : front ++ [a] ++ rest = front ++ a :: rest := by simp
  rw [hsplit] at hargs
  have hy : EachYields files scope (fun w v => w.IsProper ∧ v.isProper false = true) w
      (front ++ [a] ++ rest) := hplace.eachYields
  rw [hform.ends_pending_iff hfresh hargs rfl
    (hy.of_append.mono fun _ v hv => isProper_kind.value hv.2)]
  refine afterArgs_congr hy.of_append hplace.globals fun w us hw hus hproper => ?_
  obtain ⟨done, u, rfl, hdone⟩ := exists_concat_of_length (hus.trans hlen)
  rw [← hdone, List.take_left, List.drop_left, List.singleton_append]
  refine hform.ends_ready_iff (by rw [hdone]) hproper ⟨hw, hplace.locals, ?_, ?_⟩
  · exact fun v hv => hplace.proper v (List.mem_append_right _ hv)
  · exact fun c hc => hplace.fresh c (List.mem_append_right _ hc)

end Forms

end MiniLisp

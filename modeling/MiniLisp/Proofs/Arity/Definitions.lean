import Mathlib.Data.List.Forall2
import MiniLisp.Proofs.Arity.Parameters
import MiniLisp.Proofs.Invariants

/-!
# Definitions that are run

A definition looks up its arguments, sets the last one aside as the body, and evaluates the others.
The arguments that were no calls stay as they were found; the frame of a definition carries this
along (`Frame.SetAside`), and every step keeps it (`step_ordered`). The one exception is a finished
call that a deferred call has put in the place of an argument. It is not looked up again, but then
it meets itself among the arguments around it, so that the machine does nothing but enter it
(`step_meetsItself`).
-/

namespace MiniLisp

/-! ## Definitions that are run -/

/-- The rest parameter of a definition is where it belongs, and its body is set aside as soon as its
arguments have been looked up. -/
def Call.DefinesInOrder (c : Call) : Prop :=
  c.fn.isDefining = true → RestFits c.args ∧ c.prepared = c.resolved

theorem Call.canPrepare_defining {c : Call} (hc : c.fn.isDefining = true) (args : List Value)
    (i : Int) : c.canPrepare args i = true := by
  unfold Call.canPrepare
  rcases Function.eq_of_isDefining hc with hfn | hfn <;> rw [hfn]

theorem definesInOrder_callProperty : CallProperty Call.DefinesInOrder where
  begun {fn args c} h := by
    rw [Function.eq_of_begin h]
    exact fun hc => ⟨restFits_of_begin hc h, rfl⟩
  again h hc := ⟨(h hc).1, rfl⟩
  finished {f} h hres hquiet hc := by
    refine ⟨(h hc).1, ?_⟩
    rw [Frame.isReady, Call.canPrepare_defining hc, Bool.true_and] at hquiet
    rw [hres]
    simpa using hquiet
  marked h hc := ⟨(h hc).1.set _ _, (h hc).2⟩

/-- The values all of whose definitions are in order. -/
abbrev Value.IsOrdered (arg : Bool) (v : Value) : Prop :=
  v.Holds Call.DefinesInOrder arg

/-- The frame of a definition that has set its body aside. What its written arguments stood for are
its arguments, with the body behind them, as far as they were no calls. -/
structure Frame.SetAside (f : Frame) : Prop where
  resolved : f.call.resolved = true
  prepared : f.call.prepared = true
  looked : ∃ scope globals c looked body,
    lookupAll scope globals c f.call.args = .ok (looked ++ [body]) ∧
      List.Forall₂ (fun a v => a.isCall = false → v = a) looked f.args

/-- A frame that waits for the value of a call among its arguments. -/
structure Frame.Waits (f : Frame) : Prop where
  setAside : f.call.fn.isDefining = true → f.SetAside
  call : ∃ c, f.args[f.index]? = some (.call c)

/-- All definitions that are being run have set their bodies aside, but for one that is about to
begin. -/
def State.IsOrdered : State → Prop
  | .enter f stack =>
    (f.call.fn.isDefining = true →
      f.call.resolved = false ∧ f.call.prepared = false ∨ f.SetAside) ∧ ∀ g ∈ stack, g.Waits
  | .scan f stack => (f.call.fn.isDefining = true → f.SetAside) ∧ ∀ g ∈ stack, g.Waits

section Frames

variable {files : Files} {w : World} {f : Frame} {stack : List Frame}

theorem Frame.resume_call (finished : Call) (v : Value) :
    (f.resume finished v).call = f.call := by
  unfold Frame.resume
  dsimp only
  split <;> rfl

/-- A value in the place of a call. -/
theorem Frame.SetAside.resume (h : f.SetAside) (hc : f.call.fn.isDefining = true)
    (hcall : ∃ c, f.args[f.index]? = some (.call c)) (finished : Call) (v : Value) :
    (f.resume finished v).SetAside := by
  have hdeferred : f.call.isDeferred = false := by
    unfold Call.isDeferred
    rcases Function.eq_of_isDefining hc with hfn | hfn <;> rw [hfn]
  have hresume : f.resume finished v = { f with args := f.args.set f.index v } := by
    rw [Frame.resume, hdeferred, Bool.false_and, if_neg Bool.false_ne_true]
  obtain ⟨scope, globals, c, looked, body, hlook, hall⟩ := h.looked
  rw [hresume]
  refine ⟨h.resolved, h.prepared, scope, globals, c, looked, body, hlook, ?_⟩
  rw [List.forall₂_iff_get] at hall ⊢
  obtain ⟨hlen, hget⟩ := hall
  refine ⟨by rw [List.length_set]; exact hlen, fun i hi hi' ha => ?_⟩
  dsimp only at hi' ⊢
  rw [List.length_set] at hi'
  have hsame := hget i hi hi' ha
  -- the place of the call is not one of a value that was found
  have hne : f.index ≠ i := by
    rintro rfl
    obtain ⟨d, hd⟩ := hcall
    obtain ⟨hlt, hd⟩ := List.getElem?_eq_some_iff.mp hd
    rw [List.get_eq_getElem, hd] at hsame
    rw [← hsame] at ha
    cases ha
  rw [List.get_eq_getElem, List.getElem_set_ne hne]
  exact hsame

/-- The first step of a definition looks up its arguments and sets its body aside. -/
theorem Frame.setAside_of_prepare (hc : f.call.fn.isDefining = true) {scope globals : Scope}
    {c : Call} (hres : f.call.resolved = true)
    (hlook : lookupAll scope globals c f.call.args = .ok f.args) {globals' : Scope} {p : Prepared}
    (hp : f.call.prepare f.scope globals' f.args = .ok p) : (f.continueWith p).SetAside := by
  rcases List.eq_nil_or_concat f.args with hnil | ⟨looked, body, hargs⟩
  · have hprep : f.call.prepare f.scope globals' f.args =
        f.call.prepareDefinition f.scope f.args := by
      unfold Call.prepare
      rcases Function.eq_of_isDefining hc with hfn | hfn <;> rw [hfn]
    rw [hprep, hnil] at hp
    cases hp
  · rw [List.concat_eq_append] at hargs
    rw [hargs, Call.prepare_defining hc] at hp
    cases hp
    rw [hargs] at hlook
    refine ⟨hres, rfl, scope, globals, c, looked, body, hlook, ?_⟩
    exact List.forall₂_same.mpr fun v _ _ => rfl

end Frames

/-! ## Steps -/

/-- The frame of a finished call that has been entered again: it finds itself among the arguments
around it, with no call before. -/
structure Frame.MeetsItself (f : Frame) : Prop where
  resolved : f.call.resolved = true
  prepared : f.call.prepared = true
  meets : ∃ k, f.index ≤ k ∧ f.args[k]? = some (.call f.call) ∧
    ∀ v ∈ f.args.take k, v.isCall = false

/-- The machine has entered a finished call again. -/
def State.MeetsItself : State → Prop
  | .enter f _ => f.MeetsItself
  | .scan f _ => f.MeetsItself

section Steps

variable {files : Files} {w : World} {s : State}

theorem Frame.isReady_of_prepared {f : Frame} (h : f.call.prepared = true) (i : Int) :
    f.isReady i = false := by
  rw [Frame.isReady, h]
  exact Bool.and_false _

/-- A finished call that is entered again is entered again and again, and nothing else happens. -/
theorem step_meetsItself (h : s.MeetsItself) :
    (step files w s).Satisfies (fun w' => w' = w) State.MeetsItself := by
  cases s with
  | enter f stack =>
    have hf : f.MeetsItself := h
    rw [step_enter_resolved hf.resolved (Frame.isReady_of_prepared hf.prepared _)]
    exact ⟨rfl, hf⟩
  | scan f stack =>
    have hf : f.MeetsItself := h
    obtain ⟨k, hle, hk, hfront⟩ := hf.meets
    rcases Nat.lt_or_eq_of_le hle with hlt | heq
    · have hlen : k < f.args.length := (List.getElem?_eq_some_iff.mp hk).1
      have harg : f.args[f.index]? = some f.args[f.index] := List.getElem?_eq_getElem _
      have hvalue : f.args[f.index].isCall = false := by
        refine hfront _ (List.mem_of_getElem? (i := f.index) ?_)
        rw [List.getElem?_take_of_lt hlt]
        exact harg
      rw [step_scan_pass harg hvalue (Frame.isReady_of_prepared hf.prepared _)]
      exact ⟨rfl, hf.resolved, hf.prepared, k, hlt, hk, hfront⟩
    · rw [← heq] at hk hfront
      rw [step_scan_call hk]
      exact ⟨rfl, hf.resolved, hf.prepared, f.index, Nat.zero_le _, hk, hfront⟩

theorem Frame.fn_continueWith {f : Frame} {globals : Scope} {p : Prepared}
    (h : f.call.prepare f.scope globals f.args = .ok p) :
    (f.continueWith p).call.fn = f.call.fn := by
  unfold Frame.continueWith
  rcases Call.prepare_call h with hcall | ⟨body, hcall⟩ <;> rw [hcall]

/-- What a call that begins looks up. -/
theorem Frame.resolve_cases {f g : Frame} {globals : Scope} (h : f.resolve globals = .ok g) :
    g.call.fn = f.call.fn ∧ g.call.args = f.call.args ∧ g.call.prepared = f.call.prepared ∧
      g.call.resolved = true ∧
        (f.call.resolved = false → ∃ args, f.call.lookupArgs f.scope globals = .ok args ∧
          g.args = f.call.sortArgs args) := by
  unfold Frame.resolve at h
  split at h
  · rename_i hres
    cases h
    exact ⟨rfl, rfl, rfl, hres, fun hfalse => absurd (hres.symm.trans hfalse) Bool.noConfusion⟩
  · cases hl : f.call.lookupArgs f.scope globals with
    | error e => rw [hl] at h; cases h
    | ok args =>
      rw [hl] at h
      dsimp only at h
      split at h
      · obtain ⟨-, -, rfl⟩ := map_eq_ok_iff.mp h
        exact ⟨rfl, rfl, rfl, rfl, fun _ => ⟨args, rfl, rfl⟩⟩
      · cases h
        exact ⟨rfl, rfl, rfl, rfl, fun _ => ⟨args, rfl, rfl⟩⟩

/-- A definition that begins sets its body aside in its first step. -/
theorem step_enter_defining {f : Frame} {stack : List Frame} (hc : f.call.fn.isDefining = true)
    (hres : f.call.resolved = false) (hprep : f.call.prepared = false)
    (hstack : ∀ g ∈ stack, g.Waits) :
    (step files w (.enter f stack)).Satisfies (fun _ => True) State.IsOrdered := by
  cases hr : f.resolve w.globals with
  | error e =>
    rw [step_enter_error hr]
    trivial
  | ok g =>
    obtain ⟨hfn, hargs, hprep', hres', hlook⟩ := Frame.resolve_cases hr
    obtain ⟨args, hl, hsort⟩ := hlook hres
    have hdef : g.call.fn.isDefining = true := by
      rw [hfn]
      exact hc
    have hsame : f.call.sortArgs args = args := by
      unfold Call.sortArgs
      rcases Function.eq_of_isDefining hc with h | h <;> rw [h]
    have hready : g.isReady (-1) = true := by
      rw [Frame.isReady, Call.canPrepare_defining hdef, hprep', hprep]
      rfl
    rw [step_enter_ready hr hready]
    refine Frame.prepare_satisfies trivial fun p hp => ⟨fun _ => ?_, hstack⟩
    have hlooked : lookupAll f.scope w.globals f.call g.call.args = .ok g.args := by
      rw [hargs, hsort, hsame]
      exact hl
    exact Frame.setAside_of_prepare hdef hres' hlooked hp

/-- Another call that begins is no definition in its later steps either. -/
theorem step_enter_other {f : Frame} {stack : List Frame} (hc : f.call.fn.isDefining = false)
    (hstack : ∀ g ∈ stack, g.Waits) :
    (step files w (.enter f stack)).Satisfies (fun _ => True) State.IsOrdered := by
  cases hr : f.resolve w.globals with
  | error e =>
    rw [step_enter_error hr]
    trivial
  | ok g =>
    have hfn := (Frame.resolve_cases hr).1
    cases hready : g.isReady (-1) with
    | true =>
      rw [step_enter_ready hr hready]
      refine Frame.prepare_satisfies trivial fun p hp => ⟨fun hdef => ?_, hstack⟩
      rw [Frame.fn_continueWith hp, hfn, hc] at hdef
      cases hdef
    | false =>
      rw [step_enter_scan hr hready]
      refine ⟨trivial, fun hdef => ?_, hstack⟩
      rw [hfn, hc] at hdef
      cases hdef

/-- **One step** leads from definitions that have set their bodies aside to such definitions, unless
it enters a finished call again. -/
theorem step_ordered
    (hs : s.Keeps (Value.IsOrdered false) (Value.IsOrdered true) Call.DefinesInOrder)
    (h : s.IsOrdered) :
    (step files w s).Satisfies (fun _ => True) fun t => t.IsOrdered ∨ t.MeetsItself := by
  cases s with
  | enter f stack =>
    obtain ⟨hf, hstack⟩ := h
    cases hc : f.call.fn.isDefining with
    | false => exact (step_enter_other hc hstack).mono (fun _ => id) fun _ => Or.inl
    | true =>
      rcases hf hc with ⟨hres, hprep⟩ | hset
      · exact (step_enter_defining hc hres hprep hstack).mono (fun _ => id) fun _ => Or.inl
      · rw [step_enter_resolved hset.resolved (Frame.isReady_of_prepared hset.prepared _)]
        exact ⟨trivial, Or.inl ⟨fun _ => hset, hstack⟩⟩
  | scan f stack =>
    obtain ⟨hf, hstack⟩ := h
    cases harg : f.args[f.index]? with
    | none =>
      rw [step_scan_finish harg]
      refine Frame.finish_satisfies trivial (fun _ _ _ => trivial) ?_
      -- the frame below gets the value in the place of the call that it waits for
      rintro outer rest v rfl
      have houter := hstack outer List.mem_cons_self
      refine Or.inl ⟨fun hc => Or.inr ?_, fun g hg => hstack g (List.mem_cons_of_mem outer hg)⟩
      rw [Frame.resume_call] at hc
      exact (houter.setAside hc).resume hc houter.call _ v
    | some v =>
      cases hv : v.isCall with
      | true =>
        obtain ⟨c, rfl⟩ := Value.eq_call_of_isCall hv
        rw [step_scan_call harg]
        have hwaits : ∀ g ∈ f :: stack, g.Waits :=
          List.forall_mem_cons.mpr ⟨⟨hf, c, harg⟩, hstack⟩
        have hA : c.DefinesInOrder :=
          (definesInOrder_callProperty.kind.call.mp (hs.1.args _ (List.mem_of_getElem? harg))).2
        cases hc : c.fn.isDefining with
        | false =>
          exact ⟨trivial, Or.inl ⟨fun hdef => absurd (hc.symm.trans hdef) Bool.noConfusion, hwaits⟩⟩
        | true =>
          -- a definition among the arguments has not begun, or it is finished and meets itself
          have hsame := (hA hc).2
          cases hres : c.resolved with
          | false => exact ⟨trivial, Or.inl ⟨fun _ => Or.inl ⟨hres, hsame.trans hres⟩, hwaits⟩⟩
          | true =>
            exact ⟨trivial, Or.inr ⟨hres, hsame.trans hres, f.index, Nat.zero_le _, harg,
              hs.1.done⟩⟩
      | false =>
        cases hready : f.isReady f.index with
        | true =>
          rw [step_scan_ready harg hv hready]
          refine Frame.prepare_satisfies trivial fun p hp => Or.inl ⟨fun hc => ?_, hstack⟩
          rw [Frame.fn_continueWith hp] at hc
          rw [Frame.isReady_of_prepared (hf hc).prepared] at hready
          cases hready
        | false =>
          rw [step_scan_pass harg hv hready]
          exact ⟨trivial, Or.inl ⟨fun hc => ⟨(hf hc).resolved, (hf hc).prepared, (hf hc).looked⟩,
            hstack⟩⟩

end Steps

end MiniLisp

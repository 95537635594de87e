import MiniLisp.Proofs.Invariants
import MiniLisp.Proofs.Similarity.Application
import MiniLisp.Proofs.Similarity.Copies
import MiniLisp.Proofs.Similarity.Reading
import MiniLisp.Proofs.Soundness

/-!
# Similar frames

A state of the machine is indifferent if what the machine does there does not depend on whether a
call is deferred or bound to its target (`State.indifferent`). The head of the deferred call must
stand for a copy of the target, and the arguments must not be symbols, which would be looked up
again, nor come too late or be too few for the function to be called. All other states are
indifferent.

In similar frames the functions are ready at the same time (`Frame.Similar.isReady_eq`), and the
calls end alike (`Call.Alike.conclude`).
-/

namespace MiniLisp

/-! ## Indifferent states -/

/-- The target of a deferred call: the function that is given to its head. -/
def Call.target? (target : String → Option Definition) (c : Call) : Option Definition :=
  match c.fn, c.args with
  | .builtin .deferred, .symbol h :: _ => target h
  | _, _ => none

/-- Whether the head of a deferred call stands for a copy of its target. -/
def Call.keepsTarget (target : String → Option Definition) (c : Call) (scope globals : Scope) :
    Bool :=
  match c.target? target with
  | none => true
  | some d =>
    match lookup scope globals c (c.args.headD .none) with
    | .ok (false, .function f) => f.isCopy (.user d)
    | _ => false

/-- Whether the machine does the same with similar arguments at the place where it is. A call among
them has not begun and does not come behind the work of a deferred call. A deferred call with a
target hands it no symbols and does not end before it. -/
def Frame.indifferent (target : String → Option Definition) (f : Frame) : Bool :=
  match f.args[f.index]? with
  | some (.call c) =>
    !c.resolved && !c.prepared &&
      (!(f.call.isDeferred && f.call.prepared) || f.index + 1 == f.args.length)
  | some _ =>
    !f.isReady f.index || (f.call.target? target).isNone || f.args.tail.all Value.isPlain
  | none => f.call.prepared || (f.call.target? target).isNone

/-- Whether the machine does the same in similar worlds. -/
def State.indifferent (target : String → Option Definition) (w : World) : State → Bool
  | .enter f _ => f.call.resolved || f.call.keepsTarget target f.scope w.globals
  | .scan f _ => f.indifferent target

section Indifferent

variable {target : String → Option Definition} {f : Frame} (h : f.indifferent target = true)
include h

/-- A call among the arguments has not begun, and behind the work of a deferred call it is the last
argument. -/
theorem Frame.call_of_indifferent {c : Call} (hx : f.args[f.index]? = some (.call c)) :
    (c.resolved = false ∧ c.prepared = false) ∧
      (f.call.isDeferred = true → f.call.prepared = true → f.index + 1 = f.args.length) := by
  rw [Frame.indifferent, hx] at h
  simp only [Bool.and_eq_true, Bool.not_eq_true', Bool.or_eq_true, Bool.and_eq_false_imp,
    beq_iff_eq] at h
  refine ⟨h.1, fun hd hp => h.2.resolve_left fun hnot => ?_⟩
  rw [hnot hd] at hp
  cases hp

/-- A deferred call hands plain values to its target. -/
theorem Frame.ready_of_indifferent {v : Value} (hx : f.args[f.index]? = some v)
    (hv : v.isCall = false) (hr : f.isReady f.index = true) {d : Definition}
    (hd : f.call.target? target = some d) : ∀ u ∈ f.args.tail, u.isPlain = true := by
  rw [Frame.indifferent, hx] at h
  cases v with
  | call c => cases hv
  | _ =>
    dsimp only at h
    rw [hr, hd] at h
    exact List.all_eq_true.mp h

/-- A deferred call with a target does not end before its work. -/
theorem Frame.end_of_indifferent (hx : f.args[f.index]? = none) :
    f.call.prepared = true ∨ f.call.target? target = none := by
  rw [Frame.indifferent, hx] at h
  rwa [Bool.or_eq_true, Option.isNone_iff_eq_none] at h

end Indifferent

/-- Whether a state is indifferent does not depend on the frames below it. -/
theorem State.indifferent_under {target : String → Option Definition} (w : World) (s : State)
    (below : List Frame) (h : (s.under below).indifferent target w = true) :
    s.indifferent target w = true := by
  cases s <;> exact h

/-- Where a call begins, the arguments around it do not matter. -/
theorem State.indifferent_enter {target : String → Option Definition} (w : World) (c : Call)
    (args : List Value) (scope : Scope) (stack : List Frame)
    (h : (State.enter (.enter c args scope) stack).indifferent target w = true) :
    ((State.start c scope).under stack).indifferent target w = true :=
  h

/-- A run goes through indifferent states only. -/
abbrev RunsIndifferently (M : Revision) :=
  RunsTo fun t => t.2.indifferent M.target t.1 = true

/-! ## Similar outcomes and frames -/

/-- Similar results: similar values, or the same error. -/
inductive Result.Similar (M : Revision) : Result → Result → Prop where
  | value {v u : Value} (h : v.Similar M u) : Result.Similar M (.value v) (.value u)
  | failed (e : Error) : Result.Similar M (.failed e) (.failed e)

/-- Similar outcomes: similar worlds and results. -/
structure Outcome.Similar (M : Revision) (o o' : Outcome) : Prop where
  world : o.world.Similar M o'.world
  result : o.result.Similar M o'.result

/-- Similar frames: of calls that are alike, at the same place. -/
structure Frame.Similar (M : Revision) (f g : Frame) : Prop where
  call : f.call.Alike M g.call
  args : List.Forall₂ (Value.Similar M) f.args g.args
  index : f.index = g.index
  scope : Scope.Similar M f.scope g.scope

section Similarity

variable {M : Revision} {c d : Call} {scope scope' : Scope} {w w' : World}
  {vs us : List Value} {f g : Frame}

/-- Of similar calls both have begun or neither. -/
theorem Call.Similar.fresh (h : c.Similar M d) (hc : c.resolved = false ∧ c.prepared = false) :
    d.resolved = false ∧ d.prepared = false := by
  cases h with
  | parts _ _ hresolved hprepared _ => exact ⟨hresolved ▸ hc.1, hprepared ▸ hc.2⟩
  | bound _ _ _ => exact ⟨rfl, rfl⟩

theorem Call.Alike.mark (h : c.Alike M d) (r p : Bool) : (c.mark r p).Alike M (d.mark r p) :=
  ⟨h.fn, h.args, rfl, rfl, h.body⟩

/-- Results that agree in similar worlds are similar outcomes. -/
theorem Outcome.Similar.ofExcept {r r' : Except Error Value} (hw : w.Similar M w')
    (h : Agree (Value.Similar M) r r') :
    (Outcome.ofExcept w r).Similar M (Outcome.ofExcept w' r') := by
  cases h with
  | error e => exact ⟨hw, .failed e⟩
  | ok h => exact ⟨hw, .value h⟩

theorem Result.Similar.eq_failed {e : Error} {r : Result} (h : Result.Similar M (.failed e) r) :
    r = .failed e := by
  cases h
  rfl

theorem Result.Similar.exists_value {v : Value} {r : Result} (h : Result.Similar M (.value v) r) :
    ∃ u, r = .value u ∧ v.Similar M u := by
  cases h with
  | value h => exact ⟨_, rfl, h⟩

/-- An outcome that is similar to a failure is a failure. -/
theorem Outcome.Similar.of_failed {e : Error} {o : Outcome}
    (h : Outcome.Similar M ⟨w, .failed e⟩ o) : ∃ w', o = ⟨w', .failed e⟩ ∧ w.Similar M w' := by
  obtain ⟨w', r⟩ := o
  obtain rfl : r = .failed e := h.result.eq_failed
  exact ⟨w', rfl, h.world⟩

/-- An outcome that is similar to a value is a similar value. -/
theorem Outcome.Similar.of_value {v : Value} {o : Outcome}
    (h : Outcome.Similar M ⟨w, .value v⟩ o) :
    ∃ w' u, o = ⟨w', .value u⟩ ∧ w.Similar M w' ∧ v.Similar M u := by
  obtain ⟨w', r⟩ := o
  obtain ⟨u, rfl, hvu⟩ : ∃ u, r = .value u ∧ v.Similar M u := h.result.exists_value
  exact ⟨w', u, rfl, h.world, hvu⟩

/-- Calls that are alike end alike, once their arguments have been evaluated. -/
theorem Call.Alike.conclude (h : c.Alike M d) (hw : w.Similar M w')
    (hs : Scope.Similar M scope scope') (hargs : List.Forall₂ (Value.Similar M) vs us) :
    (c.conclude w scope vs).Similar M (d.conclude w' scope' us) := by
  have happly := h.apply hw hs hargs
  unfold Call.conclude
  rw [h.fn.checksEarly_eq, h.validate_eq hargs.length_eq]
  generalize (if d.fn.checksEarly then .ok () else d.validate us : Except Error Unit) = r
  cases r with
  | error e => exact ⟨hw, .failed e⟩
  | ok u => exact .ofExcept happly.1 happly.2

/-- In similar frames the functions do their work at the same time. -/
theorem Frame.Similar.isReady_eq (h : f.Similar M g) (i : Int) : f.isReady i = g.isReady i := by
  unfold Frame.isReady
  rw [h.call.canPrepare_eq h.args.length_eq, h.call.prepared]

/-- Similar frames stay similar when their functions do their work. -/
theorem Frame.Similar.continueWith (h : f.Similar M g) {p q : Prepared} (hp : p.Similar M q) :
    (f.continueWith p).Similar M (g.continueWith q) :=
  ⟨⟨hp.call.fn, hp.call.args, hp.call.resolved, rfl, hp.call.body⟩, hp.args, h.index, hp.scope⟩

/-- A deferred call that is ready before its first argument has none. -/
theorem eq_nil_of_start {globals : Scope} (h : c.fn = .builtin .deferred)
    (hargs : c.resolveArgs scope globals = .ok vs) (hready : c.canPrepare vs (-1) = true) :
    vs = [] := by
  have hc : c.isDeferred = true := by rw [Call.isDeferred, h]
  rw [Call.canPrepare_deferred hc] at hready
  have hlen : (-1 : Int) = c.args.length - 1 := eq_of_beq hready
  have hnil : c.args = [] := List.length_eq_zero_iff.mp (by omega)
  rw [Call.resolveArgs_deferred hc, Call.lookupArgs, hnil] at hargs
  cases hargs
  rfl

/-- The result of a call takes its place, and nothing else changes if the call was the last argument
of a deferred call or one before the work of its function. -/
theorem Frame.resume_eq (finished : Call) (v : Value)
    (h : f.call.isDeferred = true → f.call.prepared = true → f.index + 1 = f.args.length) :
    f.resume finished v = { f with args := f.args.set f.index v } := by
  unfold Frame.resume
  dsimp only
  split
  · rename_i hdeferred
    obtain ⟨hd, hp⟩ := Bool.and_eq_true_iff.mp hdeferred
    have hlast := h hd hp
    have hmark : Frame.markDone (f.args.set f.index v) f.index finished =
        f.args.set f.index v := by
      unfold Frame.markDone
      split
      · rw [if_neg (by rw [List.length_set]; omega)]
      · rfl
    rw [hmark]
  · rfl

end Similarity

end MiniLisp

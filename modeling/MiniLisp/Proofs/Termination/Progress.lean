import Mathlib.Data.List.Permutation
import Mathlib.Data.Multiset.OrderedMonoid
import MiniLisp.Proofs.Kinds.Machine
import MiniLisp.Proofs.Termination.Trees

/-!
# The machine on trees

What the machine still has to do on a tree is held by its frames: the calls among the arguments that
are left, and what is left of the call of each frame. Three things happen to a call: its arguments
are looked up, its function does its work on them, and it is applied (`Phase`). For each of them
`State.due` collects the nodes to which it can still happen.

`step_progress` says what one step does. The node to which something happens is taken out of what is
due, and nothing comes in. If no node is looked up, the work that is left in the frames gets less
(`State.left`). From this it follows for whole runs that they end (`exists_final`), and that nothing
happens more often than there are nodes (`events_le_due`).
-/

namespace MiniLisp

/-! ## What happens to a call -/

/-- The three things that happen to a call: its arguments are looked up, its function does its work
on them, and it is applied. -/
inductive Phase where
  | resolve
  | prepare
  | apply

namespace Phase

/-- The call to which something happens in the step from a state. -/
def subject? (globals : Scope) : Phase → State → Option Call
  | resolve, .enter f _ => if f.call.resolved then none else some f.call
  | prepare, .enter f _ =>
    match f.resolve globals with
    | .ok g => if g.isReady (-1) then some g.call else none
    | .error _ => none
  | prepare, .scan f _ =>
    match f.args[f.index]? with
    | some v => if !v.isCall && f.isReady f.index then some f.call else none
    | none => none
  | apply, .scan f _ =>
    match f.args[f.index]? with
    | some _ => none
    | none => some f.call
  | _, _ => none

/-- The nodes to which something happens in a run, one after the other. -/
def events (phase : Phase) (files : Files) (n : Nat) (w : World) (s : State) : List Call :=
  (visits files n w s).filterMap fun t => (phase.subject? t.1.globals t.2).map Call.node

/-- The node to which something happens in the step from a state. -/
def happens (phase : Phase) (globals : Scope) (s : State) : Multiset Call :=
  ((phase.subject? globals s).map Call.node).toList

/-- A call that is being run, if something can still happen to it. -/
def own : Phase → Call → Multiset Call
  | resolve, c => if c.resolved then 0 else {c.node}
  | prepare, c => if c.prepared then 0 else {c.node}
  | apply, c => {c.node}

end Phase

/-- The nodes of the trees among some arguments. -/
def pending (vs : List Value) : Multiset Call :=
  ((Value.nodesOf vs).map Call.node : List Call)

/-- What can still happen in a frame that is being run. -/
def Frame.due (phase : Phase) (f : Frame) : Multiset Call :=
  phase.own f.call + pending f.args

/-- What can still happen in a frame on the stack: the argument at its index is being run
elsewhere. -/
def Frame.dueAround (phase : Phase) (f : Frame) : Multiset Call :=
  phase.own f.call + pending (f.args.set f.index .none)

/-- What can still happen in the frames of a stack. -/
def dueBelow (phase : Phase) (stack : List Frame) : Multiset Call :=
  (stack.map (Frame.dueAround phase)).sum

/-- The nodes to which something can still happen. A call that has not begun has all its nodes
left. -/
def State.due (phase : Phase) : State → Multiset Call
  | .enter f stack =>
    (if f.call.resolved then f.due phase else pending [.call f.call]) + dueBelow phase stack
  | .scan f stack => f.due phase + dueBelow phase stack

/-- The work that is left in a frame apart from its calls. -/
def Frame.left (f : Frame) : Nat :=
  2 * (f.args.length - f.index) + (if f.call.prepared then 0 else 1) + 2

/-- The work that is left in the frames of a stack. -/
def leftBelow : List Frame → Nat
  | [] => 0
  | f :: stack => f.left + leftBelow stack

/-- The work that is left in the frames of a state apart from their calls. -/
def State.left : State → Nat
  | .enter f stack => (if f.call.resolved then f.left + 2 else 0) + leftBelow stack
  | .scan f stack => f.left + 1 + leftBelow stack

section Due

variable {phase : Phase} {c : Call} {f : Frame} {stack : List Frame} {vs us : List Value}

theorem pending_call : pending [.call c] = {c.node} + pending c.args := by
  rw [pending, Value.nodesOf, Value.nodesOf, List.append_nil, Value.nodes, Call.nodes_eq,
    List.map_cons, pending]
  rfl

theorem pending_perm (h : vs.Perm us) : pending vs = pending us :=
  Multiset.coe_eq_coe.mpr ((nodesOf_perm h).map Call.node)

theorem pending_le (h : vs.Sublist us) : pending vs ≤ pending us :=
  Multiset.coe_le.mpr ((nodesOf_sublist h).map Call.node).subperm

/-- A call among the arguments has its share of what is due there. -/
theorem pending_eq_add {i : Nat} (h : vs[i]? = some (.call c)) :
    pending vs = pending [.call c] + pending (vs.set i .none) := by
  have hnone : Value.none.isCall = false := rfl
  rw [pending, pending, pending, Multiset.coe_add, ← List.map_append]
  refine Multiset.coe_eq_coe.mpr (((nodesOf_perm_set h hnone).trans ?_).map Call.node)
  rw [Value.nodesOf, Value.nodesOf, List.append_nil]

theorem pending_set {i : Nat} {v : Value} (hv : v.isCall = false) :
    pending (vs.set i v) = pending (vs.set i .none) := by
  have hnone : Value.none.isCall = false := rfl
  rw [pending, nodesOf_set hv hnone, pending]

theorem dueBelow_cons : dueBelow phase (f :: stack) = f.dueAround phase + dueBelow phase stack :=
  List.sum_cons

theorem Phase.own_congr {d : Call} (hnode : c.node = d.node) (hres : c.resolved = d.resolved)
    (hprep : c.prepared = d.prepared) : phase.own c = phase.own d := by
  cases phase with
  | resolve => rw [Phase.own, Phase.own, hnode, hres]
  | prepare => rw [Phase.own, Phase.own, hnode, hprep]
  | apply => rw [Phase.own, Phase.own, hnode]

end Due

/-! ## States on a tree -/

/-- The frame of a call of a tree whose arguments have been looked up. -/
structure Frame.OnTree (f : Frame) : Prop where
  fn : f.call.fn.isOrdinary = true
  body : f.call.body.isBranch = true
  resolved : f.call.resolved = true
  scope : f.scope.All (·.isCallFree = true)
  args : AreBranches f.args
  done : ∀ v ∈ f.args.take f.index, v.isCall = false

/-- The frame of a call of a tree that has begun: going on with it does not start the work of its
function. -/
structure Frame.Underway (f : Frame) : Prop extends f.OnTree where
  quiet : f.isReady (-1) = false

/-- A tree that is about to begin. -/
structure Frame.IsFresh (f : Frame) : Prop where
  tree : f.call.isTree = true
  index : f.index = 0
  scope : f.scope.All (·.isCallFree = true)

/-- A state in which the machine runs a tree. Only the innermost call can be one that has not
begun. -/
def State.OnTree : State → Prop
  | .enter f stack => (f.IsFresh ∨ f.Underway) ∧ ∀ g ∈ stack, g.Underway
  | .scan f stack => f.Underway ∧ ∀ g ∈ stack, g.Underway

/-- What a step leads to from a state on a tree. What happens is due. The machine halts, or it goes
on with what is still due: with less of it to look up, or with less work left in the frames. -/
inductive Progress (w : World) (s : State) : Step → Prop where
  | halt {w' : World} {r : Except Error Value}
      (hdue : ∀ phase : Phase, phase.happens w.globals s ≤ s.due phase) :
      Progress w s (.halt w' r)
  | next {w' : World} {s' : State} (hw : w'.globals.All (·.isCallFree = true)) (hs : s'.OnTree)
      (hdue : ∀ phase : Phase, phase.happens w.globals s + s'.due phase ≤ s.due phase)
      (hless : 0 < Multiset.card (Phase.resolve.happens w.globals s) ∨ s'.left < s.left) :
      Progress w s (.next w' s')

section Frames

variable {w : World} {f : Frame} {k : Nat} {p : Prepared}

theorem Function.not_user_of_isOrdinary {fn : Function} (h : fn.isOrdinary = true)
    (d : Definition) : fn ≠ .user d := by
  rintro rfl
  cases h

theorem Call.isDeferred_of_isOrdinary {c : Call} (h : c.fn.isOrdinary = true) :
    c.isDeferred = false := by
  unfold Call.isDeferred
  split
  · rename_i hfn
    rw [hfn] at h
    cases h
  · rfl

/-- The arguments of a call of a tree are looked up to such that share its nodes. -/
theorem Call.resolveArgs_tree {c : Call} {scope : Scope} {args : List Value} (hc : c.isTree = true)
    (hs : scope.All (·.isCallFree = true)) (hw : w.globals.All (·.isCallFree = true))
    (h : c.resolveArgs scope w.globals = .ok args) :
    AreBranches args ∧ pending args = pending c.args := by
  obtain ⟨-, hargs⟩ := Call.isTree_iff.mp hc
  obtain ⟨vs, hl, rfl, -⟩ := Call.resolveArgs_spec h
  have hnodes : Value.nodesOf vs = Value.nodesOf c.args :=
    nodesOf_lookupAll hs hw hargs.branch hl
  have hperm : (c.sortArgs vs).Perm vs := Call.sortArgs_perm
  refine ⟨⟨fun v hv => ?_, fun d hd => ?_⟩, ?_⟩
  · rcases isCallFree_kind.lookupAll hs hw hargs.branch hl v (hperm.mem_iff.mp hv) with hv | ⟨hv, -⟩
    · exact isCallFree_kind.ofValue hv
    · exact hargs.branch v hv
  · refine hargs.nodes d ?_
    rw [← hnodes]
    exact (nodesOf_perm hperm).mem_iff.mp hd
  · rw [pending_perm hperm, pending, hnodes, pending]

/-- The work of a function of a tree, when the first `k` arguments have been evaluated. -/
theorem Frame.OnTree.continueWith (h : f.OnTree) (hw : w.globals.All (·.isCallFree = true))
    (hi : f.index = k - 1) (hk : k ≤ f.args.length)
    (hdone : ∀ v ∈ f.args.take k, v.isCall = false)
    (hready : f.call.canPrepare f.args ((k : Int) - 1) = true)
    (hp : f.call.prepare f.scope w.globals f.args = .ok p) :
    (f.continueWith p).Underway ∧ p.args.Sublist f.args ∧
      ∀ phase : Phase, phase.own (f.continueWith p).call = phase.own (f.call.mark true true) := by
  have hkeeps := isCallFree_kind.prepare
    (fun d hd => absurd hd (Function.not_user_of_isOrdinary h.fn d)) h.scope hw h.args.branch hk
    hdone hready (fun hdef => by rw [Call.isDeferred_of_isOrdinary h.fn] at hdef; cases hdef) hp
  obtain ⟨hnode, hsub, -⟩ := Call.prepare_ordinary h.fn hp
  have hres : (f.continueWith p).call.resolved = true :=
    (Frame.tracked_continueWith h.resolved hp).resolved
  have hbody : p.call.body.isBranch = true := by
    rcases hkeeps.body with hb | ⟨-, hb⟩
    · exact hb
    · rw [hb]
      exact h.body
  refine ⟨⟨⟨?_, hbody, hres, hkeeps.scope, h.args.sublist hsub, ?_⟩, Bool.and_false _⟩, hsub,
    fun phase => ?_⟩
  · have hfn : (f.continueWith p).call.fn = f.call.fn := hkeeps.fn
    rw [hfn]
    exact h.fn
  · have hindex : (f.continueWith p).index = k - 1 := hi
    rw [hindex]
    exact hkeeps.front
  · exact Phase.own_congr hnode hres rfl

end Frames

/-! ## What happens in a step -/

section Happening

variable {phase : Phase} {globals : Scope} {f g : Frame} {stack : List Frame}

/-- To a call that has begun nothing happens when it is taken up again. -/
theorem Phase.happens_resumed (hres : f.call.resolved = true) (hquiet : f.isReady (-1) = false) :
    phase.happens globals (.enter f stack) = 0 := by
  have hresolve : f.resolve globals = .ok f := by rw [Frame.resolve, if_pos hres]
  cases phase <;> simp [Phase.happens, Phase.subject?, hres, hquiet, hresolve]

/-- When a call begins it is looked up, and its function may do its work at once. Neither can happen
again. -/
theorem Phase.happens_fresh {c : Call} {around args : List Value} {scope : Scope}
    (hres : c.resolved = false) (hprep : c.prepared = false)
    (h : c.resolveArgs scope globals = .ok args) :
    phase.happens globals (.enter (.enter c around scope) stack) +
      phase.own (c.mark true (c.canPrepare args (-1))) = {c.node} := by
  have hcall : (Frame.enter c around scope).call = c := rfl
  have hnode : ∀ b, (c.mark true b).node = c.node := fun _ => rfl
  cases phase with
  | resolve => simp [Phase.happens, Phase.subject?, Phase.own, hcall, hres]
  | prepare =>
    cases hready : c.canPrepare args (-1) <;>
      simp [Phase.happens, Phase.subject?, Phase.own, Frame.resolve_enter hres, h, Except.map,
        Frame.isReady, hready, hprep, hnode]
  | apply => simp [Phase.happens, Phase.subject?, Phase.own, hnode]

/-- A call whose arguments cannot be looked up goes no further. -/
theorem Phase.happens_error {c : Call} {around : List Value} {scope : Scope} {e : Error}
    (hres : c.resolved = false) (h : c.resolveArgs scope globals = .error e) :
    phase.happens globals (.enter (.enter c around scope) stack) ≤ {c.node} := by
  have hcall : (Frame.enter c around scope).call = c := rfl
  cases phase <;>
    simp [Phase.happens, Phase.subject?, hcall, hres, Frame.resolve_enter hres, h, Except.map]

theorem Phase.happens_call {c : Call} (h : f.args[f.index]? = some (.call c)) :
    phase.happens globals (.scan f stack) = 0 := by
  have hcall : (Value.call c).isCall = true := rfl
  cases phase <;> simp [Phase.happens, Phase.subject?, h, hcall]

theorem Phase.happens_pass {v : Value} (h : f.args[f.index]? = some v)
    (hready : f.isReady f.index = false) : phase.happens globals (.scan f stack) = 0 := by
  cases phase <;> simp [Phase.happens, Phase.subject?, h, hready]

/-- When the function does its work this cannot happen again. -/
theorem Phase.happens_ready {v : Value} (h : f.args[f.index]? = some v) (hv : v.isCall = false)
    (hres : f.call.resolved = true) (hprep : f.call.prepared = false)
    (hready : f.isReady f.index = true) :
    phase.happens globals (.scan f stack) + phase.own (f.call.mark true true) =
      phase.own f.call := by
  have hnode : (f.call.mark true true).node = f.call.node := rfl
  cases phase <;> simp [Phase.happens, Phase.subject?, Phase.own, h, hv, hready, hres, hprep, hnode]

theorem Phase.happens_end (h : f.args[f.index]? = none) :
    phase.happens globals (.scan f stack) ≤ phase.own f.call := by
  cases phase <;> simp [Phase.happens, Phase.subject?, Phase.own, h]

end Happening

/-! ## One step -/

section Step

variable {files : Files} {w : World} {s : State} {f : Frame} {stack : List Frame}

/-- The work of a function makes progress from a state in which it can be done. -/
theorem Frame.OnTree.prepare_progress (h : f.OnTree) (hw : w.globals.All (·.isCallFree = true))
    {k : Nat} (hi : f.index = k - 1) (hk : k ≤ f.args.length)
    (hdone : ∀ v ∈ f.args.take k, v.isCall = false)
    (hready : f.call.canPrepare f.args ((k : Int) - 1) = true)
    (hstack : ∀ g ∈ stack, g.Underway)
    (hdue : ∀ phase : Phase, phase.happens w.globals s +
      (phase.own (f.call.mark true true) + pending f.args + dueBelow phase stack) ≤ s.due phase)
    (hless : 0 < Multiset.card (Phase.resolve.happens w.globals s) ∨
      f.call.prepared = false ∧ s = .scan f stack) :
    Progress w s (f.prepare files w stack) := by
  rcases Frame.prepare_cases files w f stack with ⟨e, -, hf⟩ | ⟨p, hp, hcases⟩
  · rw [hf]
    exact .halt fun phase => (Multiset.le_add_right _ _).trans (hdue phase)
  · obtain ⟨-, -, hload⟩ := Call.prepare_ordinary h.fn hp
    obtain ⟨hnext, hsub, hown⟩ := h.continueWith hw hi hk hdone hready hp
    rcases hcases with ⟨-, hf⟩ | ⟨path, hl, -⟩ | ⟨path, text, hl, -⟩
    · rw [hf]
      refine .next hw ⟨hnext, hstack⟩ (fun phase => le_trans ?_ (hdue phase)) (hless.imp_right ?_)
      · rw [State.due, Frame.due, hown]
        gcongr
        exact pending_le hsub
      · rintro ⟨hprep, rfl⟩
        have hlen : p.args.length ≤ f.args.length := hsub.length_le
        simp only [State.left, Frame.left, Frame.continueWith, hprep, if_true, Bool.false_eq_true,
          if_false]
        omega
    · rw [hload] at hl
      cases hl
    · rw [hload] at hl
      cases hl

/-- A call begins: its arguments are looked up, and its function may do its work at once. -/
theorem Call.progress_of_isTree {c : Call} {around : List Value} {scope : Scope}
    (hc : c.isTree = true) (hs : scope.All (·.isCallFree = true))
    (hw : w.globals.All (·.isCallFree = true)) (hstack : ∀ g ∈ stack, g.Underway) :
    Progress w (.enter (.enter c around scope) stack)
      (step files w (.enter (.enter c around scope) stack)) := by
  obtain ⟨⟨hres, hprep, hfn, hbody⟩, -⟩ := Call.isTree_iff.mp hc
  have hdue : ∀ phase : Phase, State.due phase (.enter (.enter c around scope) stack) =
      {c.node} + (pending c.args + dueBelow phase stack) := by
    intro phase
    have hcall : (Frame.enter c around scope).call = c := rfl
    simp [State.due, hcall, hres, pending_call]
  cases hr : c.resolveArgs scope w.globals with
  | error e =>
    rw [step_start_error hres hr]
    refine .halt fun phase => ?_
    rw [hdue]
    exact (Phase.happens_error hres hr).trans (Multiset.le_add_right _ _)
  | ok args =>
    obtain ⟨hargs, hpending⟩ := Call.resolveArgs_tree hc hs hw hr
    have hnext : Frame.OnTree ⟨c.mark true false, args, 0, scope⟩ :=
      ⟨hfn, hbody, rfl, hs, hargs, by simp⟩
    have hhappens : ∀ phase : Phase,
        phase.happens w.globals (.enter (.enter c around scope) stack) +
          phase.own (c.mark true (c.canPrepare args (-1))) = {c.node} :=
      fun phase => Phase.happens_fresh hres hprep hr
    -- the arguments are looked up in any case
    have hless : 0 < Multiset.card
        (Phase.resolve.happens w.globals (.enter (.enter c around scope) stack)) := by
      have hown : Phase.resolve.own (c.mark true (c.canPrepare args (-1))) = 0 := rfl
      have hall := hhappens .resolve
      rw [hown, add_zero] at hall
      simp [hall]
    cases hready : c.canPrepare args (-1) with
    | true =>
      rw [step_start_ready hres hprep hr hready]
      refine hnext.prepare_progress hw (k := 0) rfl (Nat.zero_le _) (by simp) hready hstack
        (fun phase => ?_) (Or.inl hless)
      have hall := hhappens phase
      rw [hready] at hall
      rw [hdue, ← hall, ← hpending, add_assoc, add_assoc]
      exact le_rfl
    | false =>
      rw [step_start_scan hres hprep hr hready]
      refine .next hw ⟨⟨hnext, ?_⟩, hstack⟩ (fun phase => ?_) (Or.inl hless)
      · rw [Frame.isReady, Call.canPrepare_mark, hready]
        rfl
      · have hall := hhappens phase
        rw [hready] at hall
        rw [hdue, ← hall, ← hpending, add_assoc, State.due, Frame.due, add_assoc]

/-- A finished call leaves its value in the frame around it. -/
theorem Frame.Underway.resume (h : f.Underway) (finished : Call) {v : Value}
    (hv : v.isCallFree = true) :
    (f.resume finished v).Underway ∧ (f.resume finished v).left = f.left ∧
      ∀ phase : Phase, (f.resume finished v).due phase = f.dueAround phase := by
  have hresume : f.resume finished v = { f with args := f.args.set f.index v } := by
    rw [Frame.resume, Call.isDeferred_of_isOrdinary h.fn, Bool.false_and]
    rfl
  have hcall : v.isCall = false := isCallFree_kind.value hv
  rw [hresume]
  refine ⟨⟨⟨h.fn, h.body, h.resolved, h.scope, ⟨fun u hu => ?_, fun c hc => ?_⟩, ?_⟩, ?_⟩, ?_,
    fun phase => ?_⟩
  · rcases List.mem_or_eq_of_mem_set hu with hu | rfl
    · exact h.args.branch u hu
    · exact isCallFree_kind.ofValue hv
  · rw [nodesOf_eq_flatMap] at hc
    obtain ⟨u, hu, hmem⟩ := List.mem_flatMap.mp hc
    rcases List.mem_or_eq_of_mem_set hu with hu | rfl
    · refine h.args.nodes c ?_
      rw [nodesOf_eq_flatMap]
      exact List.mem_flatMap.mpr ⟨u, hu, hmem⟩
    · rw [Value.nodes_eq_nil hcall] at hmem
      cases hmem
  · dsimp only
    rw [List.take_set_of_le (Nat.le_refl _)]
    exact h.done
  · have hquiet := h.quiet
    rw [Frame.isReady] at hquiet ⊢
    rw [← hquiet, Call.canPrepare_congr List.length_set]
  · rw [Frame.left, Frame.left, List.length_set]
  · rw [Frame.due, Frame.dueAround, pending_set hcall]

/-- A call whose arguments have all been evaluated is applied, and its value handed on. -/
theorem Frame.Underway.finish_progress (h : f.Underway) (hw : w.globals.All (·.isCallFree = true))
    (hend : f.args[f.index]? = none) (hstack : ∀ g ∈ stack, g.Underway) :
    Progress w (.scan f stack) (f.finish w stack) := by
  have hvalues : ∀ v ∈ f.args, v.isCallFree = true := by
    intro v hv
    have hmem : v ∈ f.args.take f.index := by
      rw [List.take_of_length_le (List.getElem?_eq_none_iff.mp hend)]
      exact hv
    exact (isCallFree_kind.arg (h.done v hmem)).mp (h.args.branch v hv)
  have hhalt : ∀ phase : Phase,
      phase.happens w.globals (.scan f stack) ≤ State.due phase (.scan f stack) := by
    intro phase
    rw [State.due, Frame.due, add_assoc]
    exact (Phase.happens_end hend).trans (Multiset.le_add_right _ _)
  unfold Frame.finish
  split
  · exact .halt hhalt
  · rcases ha : f.call.apply w f.scope f.args with ⟨w', r⟩
    obtain ⟨hw', hr⟩ := isCallFree_kind.apply h.scope hw (fun _ => h.body) hvalues ha
    cases r with
    | error e => exact .halt hhalt
    | ok v =>
      cases stack with
      | nil => exact .halt hhalt
      | cons outer stack =>
        rw [List.forall_mem_cons] at hstack
        obtain ⟨hnext, hleft, hdue⟩ := hstack.1.resume f.call (hr v rfl)
        refine .next hw' ⟨Or.inr hnext, hstack.2⟩ (fun phase => ?_) (Or.inr ?_)
        · rw [State.due, State.due, if_pos hnext.resolved, hdue, dueBelow_cons]
          gcongr
          exact (Phase.happens_end hend).trans (Multiset.le_add_right _ _)
        · rw [State.left, State.left, if_pos hnext.resolved, hleft, leftBelow]
          have htwo : 2 ≤ f.left := Nat.le_add_left _ _
          omega

/-- A call among the arguments is begun. -/
theorem Frame.Underway.call_progress {c : Call} (h : f.Underway)
    (hw : w.globals.All (·.isCallFree = true)) (harg : f.args[f.index]? = some (.call c))
    (hstack : ∀ g ∈ stack, g.Underway) :
    Progress w (.scan f stack) (.next w (.enter (.enter c f.args f.scope) (f :: stack))) := by
  have htree : c.isTree = true := h.args.isTree (List.mem_of_getElem? harg)
  have hcall : (Frame.enter c f.args f.scope).call = c := rfl
  have hres : c.resolved = false := (Call.isTree_iff.mp htree).1.1
  refine .next hw ⟨Or.inl ⟨htree, rfl, h.scope⟩, List.forall_mem_cons.mpr ⟨h, hstack⟩⟩
    (fun phase => ?_) (Or.inr ?_)
  · rw [Phase.happens_call harg, zero_add, State.due, State.due, hcall, hres, if_neg (by simp),
      dueBelow_cons, Frame.due, Frame.dueAround, pending_eq_add harg, add_assoc, add_assoc,
      add_assoc, add_left_comm]
  · rw [State.left, State.left, hcall, hres, if_neg (by simp), leftBelow]
    omega

/-- The function does its work behind an argument that has been evaluated. -/
theorem Frame.Underway.ready_progress {v : Value} (h : f.Underway)
    (hw : w.globals.All (·.isCallFree = true)) (harg : f.args[f.index]? = some v)
    (hv : v.isCall = false) (hready : f.isReady f.index = true)
    (hstack : ∀ g ∈ stack, g.Underway) :
    Progress w (.scan f stack) (f.prepare files w stack) := by
  have hlt : f.index < f.args.length := (List.getElem?_eq_some_iff.mp harg).1
  obtain ⟨hcan, hprep⟩ := Bool.and_eq_true_iff.mp hready
  rw [Bool.not_eq_true'] at hprep
  refine h.toOnTree.prepare_progress hw (k := f.index + 1) rfl hlt
    (isCall_of_take_succ harg hv h.done) ?_ hstack (fun phase => ?_) (Or.inr ⟨hprep, rfl⟩)
  · rw [Int.natCast_succ, Int.add_sub_cancel]
    exact hcan
  · have hhappens : phase.happens w.globals (.scan f stack) +
        phase.own (f.call.mark true true) = phase.own f.call :=
      Phase.happens_ready harg hv h.resolved hprep hready
    rw [State.due, Frame.due, ← hhappens, add_assoc, add_assoc, add_assoc]

/-- An argument that has been evaluated is passed over. -/
theorem Frame.Underway.pass_progress {v : Value} (h : f.Underway)
    (hw : w.globals.All (·.isCallFree = true)) (harg : f.args[f.index]? = some v)
    (hv : v.isCall = false) (hready : f.isReady f.index = false)
    (hstack : ∀ g ∈ stack, g.Underway) :
    Progress w (.scan f stack) (.next w (.scan { f with index := f.index + 1 } stack)) := by
  have hlt : f.index < f.args.length := (List.getElem?_eq_some_iff.mp harg).1
  have hdone := isCall_of_take_succ harg hv h.done
  refine .next hw ⟨⟨⟨h.fn, h.body, h.resolved, h.scope, h.args, hdone⟩, h.quiet⟩, hstack⟩
    (fun phase => ?_) (Or.inr ?_)
  · rw [Phase.happens_pass harg hready, zero_add]
    exact le_rfl
  · simp only [State.left, Frame.left]
    omega

/-- A call that has begun is taken up again. -/
theorem Frame.Underway.resumed_progress (h : f.Underway)
    (hw : w.globals.All (·.isCallFree = true)) (hstack : ∀ g ∈ stack, g.Underway) :
    Progress w (.enter f stack) (.next w (.scan f stack)) := by
  refine .next hw ⟨h, hstack⟩ (fun phase => ?_) (Or.inr ?_)
  · rw [Phase.happens_resumed h.resolved h.quiet, zero_add, State.due, State.due,
      if_pos h.resolved]
  · rw [State.left, State.left, if_pos h.resolved]
    omega

/-- **One step on a tree makes progress.** -/
theorem step_progress (hw : w.globals.All (·.isCallFree = true)) (hs : s.OnTree) :
    Progress w s (step files w s) := by
  cases s with
  | enter f stack =>
    obtain ⟨hf | hf, hstack⟩ := hs
    · obtain ⟨c, around, index, scope⟩ := f
      obtain ⟨htree, rfl, hscope⟩ := hf
      exact Call.progress_of_isTree htree hscope hw hstack
    · rw [step_enter_resolved hf.resolved hf.quiet]
      exact hf.resumed_progress hw hstack
  | scan f stack =>
    obtain ⟨hf, hstack⟩ := hs
    cases harg : f.args[f.index]? with
    | none =>
      rw [step_scan_finish harg]
      exact hf.finish_progress hw harg hstack
    | some v =>
      cases hcall : v.isCall with
      | true =>
        obtain ⟨c, rfl⟩ := Value.eq_call_of_isCall hcall
        rw [step_scan_call harg]
        exact hf.call_progress hw harg hstack
      | false =>
        cases hready : f.isReady f.index with
        | true =>
          rw [step_scan_ready harg hcall hready]
          exact hf.ready_progress hw harg hcall hready hstack
        | false =>
          rw [step_scan_pass harg hcall hready]
          exact hf.pass_progress hw harg hcall hready hstack

end Step

/-! ## Whole runs -/

section Runs

variable {files : Files} {w w' : World} {s s' : State} {phase : Phase} {n : Nat}

theorem Phase.events_next (h : step files w s = .next w' s') :
    (phase.events files (n + 1) w s : Multiset Call) =
      phase.happens w.globals s + (phase.events files n w' s' : Multiset Call) := by
  rw [Phase.events, visits, h, Phase.happens, Multiset.coe_add, Phase.events]
  cases hsubject : phase.subject? w.globals s <;> simp [hsubject]

theorem Phase.events_halt {r : Except Error Value} (h : step files w s = .halt w' r) :
    (phase.events files (n + 1) w s : Multiset Call) = phase.happens w.globals s := by
  rw [Phase.events, visits, h, Phase.happens]
  cases hsubject : phase.subject? w.globals s <;> simp [hsubject]

/-- **What happens in a run on a tree is due at its beginning.** -/
theorem events_le_due (phase : Phase) (n : Nat) : ∀ {w : World} {s : State},
    w.globals.All (·.isCallFree = true) → s.OnTree →
      (phase.events files n w s : Multiset Call) ≤ s.due phase := by
  induction n with
  | zero =>
    intro w s _ _
    rw [Phase.events, visits]
    exact Multiset.zero_le _
  | succ n ih =>
    intro w s hw hs
    have hstep : Progress w s (step files w s) := step_progress hw hs
    cases h : step files w s with
    | next w' s' =>
      rw [h] at hstep
      cases hstep with
      | next hw' hs' hdue _ =>
        rw [Phase.events_next h]
        exact (add_le_add_right (ih hw' hs') _).trans (hdue phase)
    | halt w' r =>
      rw [h] at hstep
      cases hstep with
      | halt hdue =>
        rw [Phase.events_halt h]
        exact hdue phase
    | load w' text s' =>
      rw [h] at hstep
      cases hstep

/-- **A run on a tree ends.** -/
theorem exists_final (m l : Nat) : ∀ {w : World} {s : State},
    w.globals.All (·.isCallFree = true) → s.OnTree → Multiset.card (s.due .resolve) = m →
      s.left = l → ∃ n, (drive files n w s).isFinal = true := by
  -- fewer nodes are left to look up, or as many and less work in the frames
  induction m using Nat.strong_induction_on generalizing l with
  | _ m ihm =>
    induction l using Nat.strong_induction_on with
    | _ l ihl =>
      intro w s hw hs hm hl
      have hstep : Progress w s (step files w s) := step_progress hw hs
      cases h : step files w s with
      | halt w' r => exact ⟨1, by rw [drive_succ_halt h, Outcome.isFinal_ofExcept]⟩
      | load w' text s' =>
        rw [h] at hstep
        cases hstep
      | next w' s' =>
        rw [h] at hstep
        cases hstep with
        | next hw' hs' hdue hless =>
          have hcard := Multiset.card_le_card (hdue .resolve)
          rw [Multiset.card_add, hm] at hcard
          have hnext : ∃ n, (drive files n w' s').isFinal = true := by
            by_cases hfewer : Multiset.card (s'.due .resolve) < m
            · exact ihm _ hfewer _ hw' hs' rfl rfl
            · exact ihl s'.left (by omega) hw' hs' (by omega) rfl
          obtain ⟨n, hn⟩ := hnext
          exact ⟨n + 1, by rw [drive_succ_next h]; exact hn⟩

end Runs

/-! ## Trees of builtin calls -/

section Trees

variable {files : Files} {c : Call} {scope : Scope} {w : World}

theorem State.onTree_start (hc : c.isTree = true) (hs : scope.All (·.isCallFree = true)) :
    (State.start c scope).OnTree :=
  ⟨Or.inl ⟨hc, rfl, hs⟩, by simp⟩

/-- At the beginning everything is due for every node. -/
theorem State.due_start (phase : Phase) (hc : c.isTree = true) :
    (State.start c scope).due phase = (c.nodes.map Call.node : List Call) := by
  have hres : (Frame.enter c [] scope).call.resolved = false := (Call.isTree_iff.mp hc).1.1
  rw [State.start, State.due, hres, if_neg (by simp), dueBelow, List.map_nil, List.sum_nil,
    add_zero, pending, Value.nodesOf, Value.nodesOf, List.append_nil]
  rfl

/-- What is read is its own node. -/
theorem map_node_of_readCall {script : Bool} {cs rest : List Char}
    (h : readCall (builtinScope script) cs = .ok (c, rest)) : c.nodes.map Call.node = c.nodes := by
  refine (List.map_congr_left fun d hd => ?_).trans (List.map_id c.nodes)
  obtain ⟨b, args, rfl, -⟩ := (areRead_of_readCall h).nodes d
    (by simpa [Value.nodesOf, Value.nodes] using hd)
  exact congrArg (Call.mk _ _ _ _) (ite_self Value.none)

/-- **Trees of builtin calls terminate.** A call that is read while only builtins are bound, with no
head that is looked up later and no file to run, ends with a value or an error, in every scope whose
values hold no calls and under all globals that are functions. On the way each of its nodes is
looked up, prepared and applied at most once: the calls to which this happens stand at different
places of the tree. -/
theorem builtin_tree_terminates (files : Files) (script : Bool) (text rest : List Char) (c : Call)
    (scope : Scope) (w : World) (hread : readCall (builtinScope script) text = .ok (c, rest))
    (hplain : ∀ d ∈ c.nodes, d.fn ≠ .builtin .deferred ∧ ∀ script, d.fn ≠ .builtin (.load script))
    (hscope : scope.All (·.isCallFree = true))
    (hglobals : ∀ e ∈ w.globals, ∃ fn, e.2 = .function fn) :
    (∃ n, (execute files n w scope c).isFinal = true) ∧
      ∀ (phase : Phase) (n : Nat), ∃ places : List (List Nat), places.Nodup ∧
        places.map c.at? = (phase.events files n w.startBlock (.start c scope)).map some := by
  have htree : c.isTree = true := Call.isTree_of_readCall hread hplain
  have hstart : (State.start c scope).OnTree := State.onTree_start htree hscope
  have hw : w.startBlock.globals.All (·.isCallFree = true) := by
    intro e he
    obtain ⟨fn, hfn⟩ := hglobals e he
    rw [hfn]
    rfl
  refine ⟨exists_final _ _ hw hstart rfl rfl, fun phase n => ?_⟩
  have hevents : (phase.events files n w.startBlock (.start c scope) : Multiset Call) ≤
      (State.start c scope).due phase := events_le_due phase n hw hstart
  rw [State.due_start phase htree, map_node_of_readCall hread] at hevents
  exact Call.exists_places (Multiset.coe_le.mp hevents)

/-- Three nodes of this tree are equal and are run, each at its own place. The node that prints is
not. -/
theorem builtin_tree_terminates_equal_nodes :
    let sum : Call := .begin (.builtin .sum) [.symbol "*xs"]
    let c : Call := .begin (.builtin .branch) [
      .call (.begin (.builtin .equality) [.call sum, .call sum]),
      .call (.begin (.builtin .binding) [.symbol "'y", .call sum,
        .call (.begin (.builtin .sum) [.symbol "y"])]),
      .call (.begin (.builtin .print) [.symbol "y"])]
    let scope : Scope := [(.symbol "xs", .tuple [.int 1, .int 2])]
    let w := World.start true
    let s := State.start c scope
    readCall (builtinScope true)
        "(if (eq (+ *xs) (+ *xs)) (let 'y (+ *xs) (+ y)) (print y))".toList = .ok (c, []) ∧
      (∃ n, (execute (Files.ofList []) n w scope c).isFinal = true) ∧
      (∀ (phase : Phase) (n : Nat), ∃ places : List (List Nat), places.Nodup ∧
        places.map c.at? = (phase.events (Files.ofList []) n w.startBlock s).map some) ∧
      c.nodes.length = 8 ∧ (Phase.apply.events (Files.ofList []) 60 w.startBlock s).length = 7 := by
  intro sum c scope w s
  have hread : readCall (builtinScope true)
      "(if (eq (+ *xs) (+ *xs)) (let 'y (+ *xs) (+ y)) (print y))".toList = .ok (c, []) := by cbv
  obtain ⟨hends, honce⟩ := builtin_tree_terminates (Files.ofList []) true _ [] c scope w hread
    (by simp [c, sum, Call.nodes, Value.nodesOf, Value.nodes, Call.begin])
    (by simp [scope, Scope.All, Value.isCallFree, Value.allCallFree])
    (fun e he => by
      obtain ⟨b, -, rfl⟩ := List.mem_map.mp he
      exact ⟨_, rfl⟩)
  exact ⟨hread, hends, honce, rfl, by decide +kernel⟩

end Trees

end MiniLisp

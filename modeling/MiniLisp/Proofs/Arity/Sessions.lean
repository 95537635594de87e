import MiniLisp.Proofs.Arity.Definitions

/-!
# The arity data of functions

The arity data of a function can part from its parameters: a function whose name is that of the rest
parameter counts one parameter less than it has. It fits for every function that was made by a plain
definition. `arity_of_reachable` says so for every world that a session can reach; each function
there was made by a definition that was run in the session (`runBlocks_made`).
-/

namespace MiniLisp

/-! ## Functions and the definitions that made them -/

/-- A function was made by a definition: it takes further arguments exactly if the rest parameter
was written, and if the definition was plain its arity data fits. -/
structure Definition.MadeBy (d : Definition) (c : Call) : Prop where
  defining : c.fn.isDefining = true
  variadic : d.variadic = hasRest c.args
  fits : c.isPlainDefinition = true → d.ArityFits

/-- A function that, unless it is a builtin, was made by a definition with a property. -/
def IsMade (P : Call → Prop) (v : Value) : Prop :=
  ∃ fn, v = .function fn ∧ ∀ d, fn = .user d → ∃ c, P c ∧ d.MadeBy c

/-- The definition that makes a function in the next step, if there is one. -/
def State.definition? : State → Option Call
  | .scan f _ => if f.args[f.index]?.isNone && f.call.fn.isDefining then some f.call else none
  | .enter _ _ => none

section Making

variable {files : Files} {w w' : World} {s : State} {c : Call} {scope : Scope} {args : List Value}
  {r : Except Error Value} {P : Call → Prop}

/-- Applying another function than a definition leaves the functions as they are. -/
theorem Call.globals_apply_of_not_defining (hc : c.fn.isDefining = false)
    (h : c.apply w scope args = (w', r)) : w'.globals = w.globals := by
  unfold Call.apply at h
  split at h
  · rw [← World.globals_print w args, h]
  · rename_i hfn
    rw [hfn] at hc
    cases hc
  · rename_i hfn
    rw [hfn] at hc
    cases hc
  · cases h
    rfl
  · cases h
    rfl

/-- A definition makes at most one function, with the parameters behind its first argument. -/
theorem Call.globals_apply_of_defining (hc : c.fn.isDefining = true)
    (h : c.apply w scope args = (w', r)) :
    w'.globals = w.globals ∨ ∃ first key d, args = first :: d.params ∧
      d.variadic = hasRest c.args ∧
      w.globals.insert key (.function (.user d)) = .ok w'.globals := by
  cases args with
  | nil =>
    refine Or.inl ?_
    unfold Call.apply at h
    rcases Function.eq_of_isDefining hc with hfn | hfn <;> rw [hfn] at h <;> cases h <;> rfl
  | cons first params =>
    have hdefine : ∀ {name : Value} {captures : Scope},
        c.applyDefine w captures (name :: params) = (w', r) →
          w'.globals = w.globals ∨ ∃ first' key d, first :: params = first' :: d.params ∧
            d.variadic = hasRest c.args ∧
              w.globals.insert key (.function (.user d)) = .ok w'.globals := by
      intro name captures h
      rcases Call.applyDefine_cases h with ⟨rfl, -⟩ | ⟨_, _, hargs, h⟩
      · exact Or.inl rfl
      · cases hargs
        rcases World.define_cases h with ⟨rfl, -⟩ | ⟨globals, hi, rfl, -⟩
        · exact Or.inl rfl
        · exact Or.inr ⟨first, _, _, rfl, rfl, hi⟩
    rcases Function.eq_of_isDefining hc with hfn | hfn
    · rw [Call.apply, hfn] at h
      exact hdefine h
    · rw [Call.apply, hfn] at h
      rcases Call.applyLambda_cases h with ⟨rfl, -⟩ | ⟨_, _, _, _, hargs, -, -, h⟩
      · exact Or.inl rfl
      · cases hargs
        exact hdefine h

/-- The parameters of a plain definition are the names that it quotes. -/
theorem Frame.SetAside.params {f : Frame} {first first' body : Value} {names : List String}
    {params : List Value} (h : f.SetAside)
    (hwritten : f.call.args = first :: (names.map quoted ++ [body]))
    (hfirst : first.isSingle = true) (hbody : body.isSingle = true)
    (hargs : f.args = first' :: params) : params = names.map Value.symbol := by
  obtain ⟨scope, globals, c, looked, last, hlook, hall⟩ := h.looked
  rw [hwritten] at hlook
  obtain ⟨v, b, -, -, heq⟩ :=
    lookupAll_definition (isStar_of_isSingle hfirst) (isStar_of_isSingle hbody) hlook
  rw [← List.cons_append] at heq
  obtain ⟨rfl, -⟩ := List.append_inj' heq rfl
  rw [hargs] at hall
  clear hlook heq hwritten hargs
  obtain ⟨-, hrest⟩ := List.forall₂_cons.mp hall
  clear hall
  induction names generalizing params with
  | nil =>
    cases hrest
    rfl
  | cons n names ih =>
    rw [List.map_cons] at hrest
    cases hrest with
    | cons hn hrest => rw [hn rfl, ih hrest, List.map_cons]

/-- A definition with the property makes a function that was made by it. -/
theorem Frame.SetAside.made {f : Frame} (h : f.SetAside) (hc : f.call.fn.isDefining = true)
    (hfits : RestFits f.call.args) (hP : P f.call) (hw : w.globals.All (IsMade P))
    (happly : f.call.apply w f.scope f.args = (w', r)) : w'.globals.All (IsMade P) := by
  rcases Call.globals_apply_of_defining hc happly with hsame | ⟨first, key, d, hargs, hrest, hi⟩
  · rw [hsame]
    exact hw
  · refine hw.insert ⟨.user d, rfl, ?_⟩ hi
    rintro _ ⟨⟩
    refine ⟨f.call, hP, hc, hrest, fun hplain => ?_⟩
    obtain ⟨first', names, body, hwritten, hfirst, hbody⟩ :=
      Call.exists_of_isPlainDefinition hplain
    exact Call.arityFits_of_isPlain hwritten hfirst hbody hfits
      (h.params hwritten hfirst hbody hargs) hrest

/-- **One step** makes functions by definitions only. -/
theorem step_made
    (hs : s.Keeps (Value.IsOrdered false) (Value.IsOrdered true) Call.DefinesInOrder)
    (h : s.IsOrdered) (hP : ∀ c, s.definition? = some c → P c) (hw : w.globals.All (IsMade P)) :
    (step files w s).Satisfies (fun w' => w'.globals.All (IsMade P)) fun _ => True := by
  cases s with
  | enter f stack =>
    cases hr : f.resolve w.globals with
    | error e =>
      rw [step_enter_error hr]
      exact hw
    | ok g =>
      cases hready : g.isReady (-1) with
      | true =>
        rw [step_enter_ready hr hready]
        exact Frame.prepare_satisfies hw fun _ _ => trivial
      | false =>
        rw [step_enter_scan hr hready]
        exact ⟨hw, trivial⟩
  | scan f stack =>
    cases harg : f.args[f.index]? with
    | none =>
      -- the only step that can bind a name
      rw [step_scan_finish harg]
      refine Frame.finish_satisfies hw (fun w' r happly => ?_) fun _ _ _ _ => trivial
      cases hc : f.call.fn.isDefining with
      | false =>
        rw [Call.globals_apply_of_not_defining hc happly]
        exact hw
      | true =>
        have hcall : P f.call := hP _ (by simp [State.definition?, harg, hc])
        exact (h.1 hc).made hc (hs.1.own hc).1 hcall hw happly
    | some v =>
      cases hv : v.isCall with
      | true =>
        obtain ⟨c, rfl⟩ := Value.eq_call_of_isCall hv
        rw [step_scan_call harg]
        exact ⟨hw, trivial⟩
      | false =>
        rw [step_scan_value harg hv]
        split
        · exact Frame.prepare_satisfies hw fun _ _ => trivial
        · exact ⟨hw, trivial⟩

/-- **A whole run** makes functions by the definitions that it goes through only. -/
theorem runBlocks_made {files : Files} {n : Nat} {last : Value} {cs : List Char}
    (hordered : w.globals.All (Value.IsOrdered false)) (hw : w.globals.All (IsMade P))
    (hP : ∀ t ∈ visitsBlocks files n w cs, ∀ c, t.2.definition? = some c → P c) :
    (runBlocks files n w last cs).world.globals.All (Value.IsOrdered false) ∧
      (runBlocks files n w last cs).world.globals.All (IsMade P) := by
  have hK := definesInOrder_callProperty.kind
  refine (invariant_of_visits
    (G := fun w => w.globals.All (Value.IsOrdered false) ∧ w.globals.All (IsMade P))
    (I := fun s => (s.Keeps (Value.IsOrdered false) (Value.IsOrdered true) Call.DefinesInOrder ∧
      s.IsOrdered) ∨ s.MeetsItself)
    (Q := fun t => ∀ c, t.2.definition? = some c → P c) ?_ ?_ n).2 w last cs ⟨hordered, hw⟩ hP
  · intro w cs c rest hw hread
    refine ⟨hw, Or.inl ⟨hK.start (hK.readCall hw.1 hread) Scope.all_nil, ?_, by simp⟩⟩
    exact fun _ => Or.inl (readCall_fresh hread)
  · rintro w s hw (⟨hkeeps, hs⟩ | hs) hQ
    · have hstep : (step files w s).Satisfies (fun w => w.globals.All (Value.IsOrdered false))
          (State.Keeps (Value.IsOrdered false) (Value.IsOrdered true) Call.DefinesInOrder) := by
        have h : (step files w s).Keeps _ _ _ := step_keeps hK hw.1 hkeeps
        cases hstep : step files w s <;> rw [hstep] at h
        · exact h
        · exact h
        · exact h.1
      refine ((hstep.and (step_ordered hkeeps hs)).and (step_made hkeeps hs hQ hw.2)).mono
        (fun _ h => ⟨h.1.1, h.2⟩) ?_
      rintro t ⟨⟨hkeeps, ht | ht⟩, -⟩
      · exact Or.inl ⟨hkeeps, ht⟩
      · exact Or.inr ht
    · refine (step_meetsItself hs).mono (fun w' h => ?_) fun _ => Or.inr
      rw [h]
      exact hw

end Making

/-! ## Sessions -/

/-- The worlds that a session can reach from the start by running texts, to their end or not, in
which all definitions that make a function have the property `P`. -/
inductive Reachable (P : Call → Prop) : World → Prop where
  | start (script : Bool) : Reachable P (World.start script)
  | run {w : World} (h : Reachable P w) (files : Files) (fuel : Nat) (text : List Char)
      (hP : ∀ t ∈ visitsBlocks files fuel w (Source.normalise text),
        ∀ c, t.2.definition? = some c → P c) :
      Reachable P (runText files fuel w text).world

theorem Reachable.made {P : Call → Prop} {w : World} (h : Reachable P w) :
    w.globals.All (Value.IsOrdered false) ∧ w.globals.All (IsMade P) := by
  induction h with
  | start script =>
    have hbuiltin : ∀ e ∈ (World.start script).globals, ∃ b, e.2 = .function (.builtin b) := by
      intro e he
      obtain ⟨b, -, rfl⟩ := List.mem_map.mp he
      exact ⟨b, rfl⟩
    refine ⟨fun e he => ?_, fun e he => ?_⟩
    · obtain ⟨b, hb⟩ := hbuiltin e he
      rw [hb]
      trivial
    · obtain ⟨b, hb⟩ := hbuiltin e he
      exact ⟨_, hb, fun d hd => by cases hd⟩
  | run _ files fuel text hP ih => exact runBlocks_made ih.1 ih.2 hP

/-- **The arity data of functions in every world that a session reaches.** Whatever texts have been
run, and however they ended, the global scope holds functions only. Each of them that is no builtin
asks for an exact number of arguments unless it is variadic, and its number is that of its
parameters, one less if it is variadic. It was made by a definition that was run in the session, and
it is variadic exactly if the rest parameter was written there. If this definition was plain, the
function is variadic exactly if its last parameter is the rest parameter, no earlier one is, and its
number is that of the parameters other than the rest parameter. -/
theorem arity_of_reachable {P : Call → Prop} {w : World} (h : Reachable P w) :
    ∀ k v, (k, v) ∈ w.globals → ∃ fn, v = .function fn ∧ ∀ d, fn = .user d →
      d.arity.exact = !d.variadic ∧
        d.arity.count = (d.params.length : Int) - (if d.variadic then 1 else 0) ∧
          ∃ c, P c ∧ c.fn.isDefining = true ∧ d.variadic = hasRest c.args ∧
            (c.isPlainDefinition = true → d.ArityFits) := by
  intro k v hmem
  obtain ⟨fn, hv, hmade⟩ := h.made.2 (k, v) hmem
  refine ⟨fn, hv, fun d hd => ⟨rfl, ?_, ?_⟩⟩
  · unfold Definition.arity
    cases d.variadic <;> simp
  · obtain ⟨c, hP, hby⟩ := hmade d hd
    exact ⟨c, hP, hby.defining, hby.variadic, hby.fits⟩

/-- Two texts are run, of which the first fails after it has defined a function with a parameter and
the rest parameter. -/
theorem arity_of_reachable_rest :
    let files : Files := .ofList []
    let w1 : World :=
      (runText files 30 (World.start false) "(defun 'f 'x '* (+ x))(nope)".toList).world
    let w : World := (runText files 30 w1 "(lambda (+ 'x) 'y (f y))".toList).world
    Reachable (fun c => c.isPlainDefinition = true) w ∧
      ∃ d, w.globals.find? (.symbol "f") = .ok (some (.function (.user d))) ∧
        d.arity.count = 1 ∧ d.ArityFits := by
  intro files w1 w
  have hplain : ∀ {ts : List (World × State)},
      ts.all (·.2.definition?.all Call.isPlainDefinition) = true →
        ∀ t ∈ ts, ∀ c, t.2.definition? = some c → c.isPlainDefinition = true := by
    intro ts hts t ht c hc
    have h := List.all_eq_true.mp hts t ht
    rw [hc] at h
    exact h
  have h1 : Reachable (fun c => c.isPlainDefinition = true) w1 :=
    .run (.start false) files 30 _ (hplain (by decide +kernel))
  have h : Reachable (fun c => c.isPlainDefinition = true) w :=
    .run h1 files 30 _ (hplain (by decide +kernel))
  have hcount : (w.globals.definition? "f").any (·.arity.count == 1) = true := by decide +kernel
  obtain ⟨d, hd, hone⟩ := (Option.any_eq_true _ _).mp hcount
  have hfind := Scope.find?_of_definition? hd
  have hall : w.globals.All fun v => ∀ d, v = .function (.user d) → d.ArityFits := by
    rintro ⟨k, v⟩ he d rfl
    obtain ⟨_, ⟨⟩, hd⟩ := arity_of_reachable h k _ he
    obtain ⟨-, -, c, hc, -, -, hfits⟩ := hd d rfl
    exact hfits hc
  exact ⟨h, d, hfind, eq_of_beq hone, hall.find? hfind d rfl⟩

end MiniLisp

import MiniLisp.Proofs.Similarity.Indifference

/-!
# Runs in similar worlds

Two runs in similar worlds are compared frame by frame (`State.Similar`). Most frames are at the
same place in both runs, and then both make the same step: they look up the arguments of a call
(`follows_start`), go through them (`follows_scan`), or do the work of a function
(`follows_prepare`). Each of these lemmas assumes that all shorter runs from similar states are
similar.
-/

namespace MiniLisp

/-! ## Similar states -/

/-- States in which two similar runs can be, with nothing on the stack. -/
inductive State.Similar (M : Revision) : State → State → Prop where
  /-- Both begin a call. -/
  | start {c d : Call} {scope scope' : Scope} (hc : c.Similar M d)
      (hfresh : c.resolved = false ∧ c.prepared = false)
      (hfresh' : d.resolved = false ∧ d.prepared = false)
      (hs : Scope.Similar M scope scope') :
      State.Similar M (.start c scope) (.start d scope')
  /-- Both go through the arguments of a call. -/
  | scan {f g : Frame} (h : f.Similar M g) : State.Similar M (.scan f []) (.scan g [])
  /-- Both go through the arguments of a call that is deferred in the first run, where the head
  stands before them, and bound in the second. -/
  | pending {h : String} {e : Function} {d : Definition} {xs ys done done' todo todo' : List Value}
      {scope scope' : Scope} (hM : M.target h = some d) (hname : d.name = .symbol h)
      (hargs : List.Forall₂ (Value.Similar M) xs ys) (he : e.Similar M (.user d))
      (hdone : List.Forall₂ (Value.Similar M) done done')
      (htodo : List.Forall₂ (Value.Similar M) todo todo') (hlen : done.length < xs.length)
      (hs : Scope.Similar M scope scope') :
      State.Similar M
        (.scan ((Call.defer (.symbol h) xs).frame false scope (.function e :: done) todo) [])
        (.scan ((Call.begin (.user d) ys).frame false scope' done' todo') [])

/-- With an amount of fuel, the run from the second state ends like the run from the first. -/
def Follows (M : Revision) (files : Files) (n : Nat) (s s' : State) : Prop :=
  ∀ {w w' : World} {o : Outcome}, w.Similar M w' → w.IsProper → s.IsProper →
    RunsIndifferently M files n w s o → ∃ o', Ends files w' s' o' ∧ o.Similar M o'

/-- With an amount of fuel, a text ends alike in similar worlds. -/
def BlocksFollow (M : Revision) (files : Files) (n : Nat) : Prop :=
  ∀ {w w' : World} {last last' : Value} {cs : List Char} {o : Outcome}, w.Similar M w' →
    w.IsProper → last.isProper false = true → last.Similar M last' →
      BlocksRunTo (fun t => t.2.indifferent M.target t.1 = true) files n w last cs o →
        ∃ o', BlocksEnd files w' last' cs o' ∧ o.Similar M o'

section Simulation

variable {M : Revision} {files : Files} {n : Nat} {w w' : World} {o : Outcome}

/-- A step that leads to a proper state, told for the next state. -/
theorem IsProper.next {s s1 : State} {w1 : World} (hw : w.IsProper) (hs : s.IsProper)
    (hstep : step files w s = .next w1 s1) : w1.IsProper ∧ s1.IsProper := by
  have h : (step files w s).Keeps _ _ _ :=
    step_keeps isProper_callKind (Scope.isProper_iff.mp hw) hs
  rw [hstep] at h
  exact ⟨Scope.isProper_iff.mpr h.1, h.2⟩

theorem IsProper.load {s s1 : State} {w1 : World} {text : List Char} (hw : w.IsProper)
    (hs : s.IsProper) (hstep : step files w s = .load w1 text s1) :
    w1.IsProper ∧ s1.IsProper := by
  have h : (step files w s).Keeps _ _ _ :=
    step_keeps isProper_callKind (Scope.isProper_iff.mp hw) hs
  rw [hstep] at h
  exact ⟨Scope.isProper_iff.mpr h.1, h.2⟩

/-- When the first arguments of a call have been evaluated, its head stands for a value. -/
theorem IsProper.head_value {f : Frame} (hw : w.IsProper) (hs : (State.scan f []).IsProper)
    {a : Value} (ha : f.args[f.index]? = some a) (hcall : a.isCall = false) :
    ∀ head ∈ f.args.head?, ∀ p, lookup f.scope w.globals f.call head = .ok p →
      p.2.isCall = false := by
  intro head hhead p hp
  obtain ⟨hf, -⟩ := hs
  have hdone := isCall_of_take_succ ha hcall hf.done
  have hmem : head ∈ f.args.take (f.index + 1) := by
    obtain ⟨rest, hargs⟩ := List.head?_eq_some_iff.mp hhead
    rw [hargs, List.take_succ_cons]
    exact List.mem_cons_self
  rcases isProper_kind.lookup hf.scope (Scope.isProper_iff.mp hw)
    (hf.args head (List.mem_of_mem_take hmem)) hp with hv | ⟨-, -, hcall⟩
  · exact isProper_kind.value hv
  · rw [hdone head hmem] at hcall
    cases hcall

theorem RunsTo.proper {Q : World × State → Prop} {s : State} (h : RunsTo Q files n w s o)
    (hw : w.IsProper) (hs : s.IsProper) : o.IsProper :=
  Ends.proper ⟨h.final, n, h.ends⟩ hw hs

theorem BlocksRunTo.proper {Q : World × State → Prop} {last : Value} {cs : List Char}
    (h : BlocksRunTo Q files n w last cs o) (hw : w.IsProper) (hlast : last.isProper false = true) :
    o.IsProper := by
  obtain ⟨h1, h2⟩ := (drive_runBlocks_keeps isProper_callKind files n).2 w last cs
    (Scope.isProper_iff.mp hw) hlast
  rw [h.ends] at h1 h2
  exact ⟨Scope.isProper_iff.mpr h1, h2⟩

section Steps

variable (ih : ∀ m < n, ∀ {s s' : State}, s.Similar M s' → Follows M files m s s')
  (ihb : ∀ m < n, BlocksFollow M files m)
include ih ihb

/-- Both functions do their work. -/
theorem follows_prepare {f g : Frame} {s s' : State} (hfg : f.Similar M g)
    (hstep : step files w s = f.prepare files w [])
    (hstep' : step files w' s' = g.prepare files w' []) (hw : w.Similar M w') (hproper : w.IsProper)
    (hs : s.IsProper)
    (hhead : f.call.fn = .builtin .deferred → ∀ head ∈ f.args.head?, ∀ p,
      lookup f.scope w.globals f.call head = .ok p → p.2.isCall = false)
    (hrun : RunsIndifferently M files n w s o) :
    ∃ o', Ends files w' s' o' ∧ o.Similar M o' := by
  unfold Frame.prepare at hstep hstep'
  rcases (hfg.call.prepare hfg.scope hw.globals hfg.args hhead).cases with
    ⟨e, h1, h2⟩ | ⟨p, q, h1, h2, hpq⟩
  · rw [h1] at hstep
    rw [h2] at hstep'
    rw [hrun.halt hstep]
    exact ⟨_, (ends_halt_iff hstep').mpr rfl, hw, .failed e⟩
  · rw [h1] at hstep
    rw [h2] at hstep'
    dsimp only at hstep hstep'
    -- both load the same file or none
    rw [← hpq.load] at hstep'
    have hnext : State.Similar M (.scan (f.continueWith p) []) (.scan (g.continueWith q) []) :=
      .scan (hfg.continueWith hpq)
    cases hload : p.load with
    | none =>
      rw [hload] at hstep hstep'
      obtain ⟨m, hm, hrun⟩ := hrun.next hstep
      obtain ⟨hproper, hs⟩ := IsProper.next hproper hs hstep
      obtain ⟨o', ho', hoo'⟩ := ih m hm hnext hw hproper hs hrun
      exact ⟨o', (ends_next_iff hstep').mpr ho', hoo'⟩
    | some path =>
      rw [hload] at hstep hstep'
      dsimp only at hstep hstep'
      cases hread : files.read? path with
      | none =>
        rw [hread] at hstep hstep'
        rw [hrun.halt hstep]
        exact ⟨_, (ends_halt_iff hstep').mpr rfl, hw, .failed _⟩
      | some text =>
        rw [hread] at hstep hstep'
        obtain ⟨hproper, hs⟩ := IsProper.load hproper hs hstep
        obtain ⟨m, hm, ⟨w2, e, rfl, hfile⟩ | ⟨w2, v, hfile, hrun⟩⟩ := hrun.load hstep
        · obtain ⟨o', ho', hoo'⟩ := ihb m hm hw hproper rfl (.atom rfl) hfile
          obtain ⟨w3, rfl, -⟩ := hoo'.of_failed
          exact ⟨_, (ends_load_iff hstep').mpr (Or.inl ⟨w3, e, rfl, ho'⟩), hoo'⟩
        · obtain ⟨o', ho', hoo'⟩ := ihb m hm hw hproper rfl (.atom rfl) hfile
          obtain ⟨w3, u, rfl, hw3, -⟩ := hoo'.of_value
          have hproper2 : w2.IsProper := (hfile.proper hproper rfl).1
          obtain ⟨o', hend, hoo'⟩ := ih m hm hnext hw3 hproper2 hs hrun
          exact ⟨o', (ends_load_iff hstep').mpr (Or.inr ⟨w3, u, ho', hend⟩), hoo'⟩

/-- Both begin calls that are alike. -/
theorem follows_start {c d : Call} {scope scope' : Scope} (hcd : c.Alike M d)
    (hfresh : c.resolved = false ∧ c.prepared = false)
    (hfresh' : d.resolved = false ∧ d.prepared = false) (hscope : Scope.Similar M scope scope') :
    Follows M files n (.start c scope) (.start d scope') := by
  intro w w' o hw hproper hs hrun
  rcases (hcd.resolveArgs hscope hw.globals).cases with ⟨e, h1, h2⟩ | ⟨vs, us, h1, h2, hargs⟩
  · rw [hrun.halt (step_start_error hfresh.1 h1)]
    exact ⟨_, (ends_halt_iff (step_start_error hfresh'.1 h2)).mpr rfl, hw, .failed e⟩
  · have hframe : Frame.Similar M ⟨c.mark true false, vs, 0, scope⟩
        ⟨d.mark true false, us, 0, scope'⟩ := ⟨hcd.mark true false, hargs, rfl, hscope⟩
    have hready := hcd.canPrepare_eq hargs.length_eq (-1)
    cases hcan : d.canPrepare us (-1) with
    | true =>
      rw [hcan] at hready
      refine follows_prepare ih ihb hframe (step_start_ready hfresh.1 hfresh.2 h1 hready)
        (step_start_ready hfresh'.1 hfresh'.2 h2 hcan) hw hproper hs ?_ hrun
      intro hfn head hhead
      have hnil : vs = [] := eq_nil_of_start (c := c) hfn h1 hready
      rw [hnil] at hhead
      cases hhead
    | false =>
      rw [hcan] at hready
      have hstep : step files w (.start c scope) = _ :=
        step_start_scan hfresh.1 hfresh.2 h1 hready
      obtain ⟨m, hm, hrun⟩ := hrun.next hstep
      obtain ⟨hproper, hs⟩ := IsProper.next hproper hs hstep
      obtain ⟨o', ho', hoo'⟩ := ih m hm (.scan hframe) hw hproper hs hrun
      exact ⟨o', (ends_next_iff (step_start_scan hfresh'.1 hfresh'.2 h2 hcan)).mpr ho', hoo'⟩

/-- Both have come to an argument that is a value. -/
theorem follows_scan_value {f g : Frame} {a b : Value} (hfg : f.Similar M g)
    (hx : f.args[f.index]? = some a) (hy : g.args[g.index]? = some b) (ha : a.isCall = false)
    (hb : b.isCall = false) : Follows M files n (.scan f []) (.scan g []) := by
  intro w w' o hw hproper hs hrun
  have hready : f.isReady f.index = g.isReady g.index := by
    rw [hfg.isReady_eq, hfg.index]
  cases hr : f.isReady f.index with
  | true =>
    exact follows_prepare ih ihb hfg (step_scan_ready hx ha hr)
      (step_scan_ready hy hb (hready ▸ hr)) hw hproper hs
      (fun _ => IsProper.head_value hproper hs hx ha) hrun
  | false =>
    have hstep : step files w (.scan f []) = _ := step_scan_pass hx ha hr
    obtain ⟨m, hm, hrun⟩ := hrun.next hstep
    obtain ⟨hproper, hs⟩ := IsProper.next hproper hs hstep
    have hnext : State.Similar M (.scan { f with index := f.index + 1 } [])
        (.scan { g with index := g.index + 1 } []) :=
      .scan ⟨hfg.call, hfg.args, congrArg (· + 1) hfg.index, hfg.scope⟩
    obtain ⟨o', ho', hoo'⟩ := ih m hm hnext hw hproper hs hrun
    exact ⟨o', (ends_next_iff (step_scan_pass hy hb (hready ▸ hr))).mpr ho', hoo'⟩

omit ihb in
/-- Both have come to an argument that is a call, and go on with its value. -/
theorem follows_call {f g : Frame} {c d : Call} (hcd : c.Similar M d)
    (hscope : Scope.Similar M f.scope g.scope) (hx : f.args[f.index]? = some (.call c))
    (hy : g.args[g.index]? = some (.call d))
    (hnext : ∀ finished finished' {v u : Value}, v.Similar M u →
      State.Similar M (.scan (f.resume finished v) []) (.scan (g.resume finished' u) []))
    (hquiet : ∀ finished u, (g.resume finished u).call.resolved = true ∧
      (g.resume finished u).isReady (-1) = false) :
    Follows M files n (.scan f []) (.scan g []) := by
  intro w w' o hw hproper hs hrun
  obtain ⟨hfresh, hlast⟩ := Frame.call_of_indifferent hrun.first hx
  have hbegun := hs.1
  have hcall : (Value.call c).isProper true = true := hbegun.args _ (List.mem_of_getElem? hx)
  have hstart : (State.start c f.scope).IsProper :=
    State.start_proper (Value.isProper_call _ ▸ hcall) (Scope.isProper_iff.mpr hbegun.scope)
  have hinner : State.Similar M (.start c f.scope) (.start d g.scope) :=
    .start hcd hfresh (hcd.fresh hfresh) hscope
  obtain ⟨m, hm, ⟨w1, e, rfl, hrun⟩ | ⟨w1, finished, v, k, hrun, -, hk, hrest⟩⟩ :=
    hrun.scanCall State.indifferent_under State.indifferent_enter hx hfresh.1
  · obtain ⟨o', ho', hoo'⟩ := ih m hm hinner hw hproper hstart hrun
    obtain ⟨w2, rfl, -⟩ := hoo'.of_failed
    exact ⟨_, (ends_scan_call_iff hy (hcd.fresh hfresh).1).mpr (Or.inl ⟨w2, e, rfl, ho'⟩), hoo'⟩
  · obtain ⟨o', ho', hoo'⟩ := ih m hm hinner hw hproper hstart hrun
    obtain ⟨w2, u, rfl, hw2, hvu⟩ := hoo'.of_value
    obtain ⟨hproper1, hv⟩ := hrun.proper hproper hstart
    -- both go on with the value in the place of the call
    obtain ⟨finished', hfin⟩ := ho'.finishes
    have hresumed := isProper_callKind.resume hbegun hcall (hv v rfl)
    rw [f.resume_eq c v hlast, ← f.resume_eq finished v hlast] at hresumed
    obtain ⟨l, hl, hrest⟩ := hrest.next (step_enter_resolved hresumed.resolved hresumed.quiet)
    obtain ⟨o', hend, hoo'⟩ := ih l (Nat.lt_trans hl hk) (hnext finished finished' hvu) hw2 hproper1
      ⟨hresumed, by simp⟩ hrest
    obtain ⟨hresolved, hready⟩ := hquiet finished' u
    exact ⟨o', (ends_scan_call_iff hy (hcd.fresh hfresh).1).mpr (Or.inr ⟨w2, finished', u, hfin,
      (ends_next_iff (step_enter_resolved hresolved hready)).mpr hend⟩), hoo'⟩

omit ihb in
/-- Both have come to the same call among the arguments of calls that are alike. -/
theorem follows_scan_call {f g : Frame} {c d : Call} (hfg : f.Similar M g) (hcd : c.Similar M d)
    (hx : f.args[f.index]? = some (.call c)) (hy : g.args[g.index]? = some (.call d)) :
    Follows M files n (.scan f []) (.scan g []) := by
  intro w w' o hw hproper hs hrun
  obtain ⟨-, hlast⟩ := Frame.call_of_indifferent hrun.first hx
  have hlast' : g.call.isDeferred = true → g.call.prepared = true →
      g.index + 1 = g.args.length := by
    rw [← hfg.call.isDeferred_eq, ← hfg.call.prepared, ← hfg.index, ← hfg.args.length_eq]
    exact hlast
  refine follows_call ih hcd hfg.scope hx hy (fun finished finished' v u hvu => ?_)
    (fun finished u => ?_) hw hproper hs hrun
  · rw [f.resume_eq finished v hlast, g.resume_eq finished' u hlast']
    refine .scan ⟨hfg.call, ?_, hfg.index, hfg.scope⟩
    dsimp only
    rw [← hfg.index]
    exact forall₂_set hfg.args f.index hvu
  · rw [g.resume_eq finished u hlast']
    refine ⟨hfg.call.resolved ▸ hs.1.resolved, ?_⟩
    have hquiet := hs.1.quiet
    rw [hfg.isReady_eq] at hquiet
    rw [← hquiet, Frame.isReady, Frame.isReady]
    dsimp only
    rw [Call.canPrepare_congr List.length_set]

/-- Both go through the arguments of calls that are alike. -/
theorem follows_scan {f g : Frame} (hfg : f.Similar M g) :
    Follows M files n (.scan f []) (.scan g []) := by
  intro w w' o hw hproper hs hrun
  have harg : Option.Rel (Value.Similar M) f.args[f.index]? g.args[f.index]? :=
    forall₂_getElem? hfg.args f.index
  generalize hx : f.args[f.index]? = x at harg
  generalize hy : g.args[f.index]? = y at harg
  rw [hfg.index] at hy
  cases harg with
  | none =>
    obtain ⟨m, rfl⟩ := hrun.exists_succ
    have hends := hrun.ends
    rw [drive_scan_finish hx] at hends
    rw [← hends]
    exact ⟨_, (ends_scan_finish_iff hy).mpr rfl, hfg.call.conclude hw hfg.scope hfg.args⟩
  | @some a b hab =>
    cases hab with
    | call hcd => exact follows_scan_call ih hfg hcd hx hy hw hproper hs hrun
    | atom ha =>
      have hvalue : a.isCall = false := by
        cases a with
        | call c => cases ha
        | _ => rfl
      exact follows_scan_value ih ihb hfg hx hy hvalue hvalue hw hproper hs hrun
    | _ => exact follows_scan_value ih ihb hfg hx hy rfl rfl hw hproper hs hrun

end Steps

end Simulation

end MiniLisp

import MiniLisp.Proofs.KnownValues
import MiniLisp.Proofs.Numbering

/-!
# Applying a function to values

A function that is given values, and no names that would have to be looked up, does the same in
every scope. This is clear for a defined function, whose body runs in a scope of its own. Of the
builtins only `let` and `lambda` look at the scope of their call, and a deferred call begins another
one there. With one or two values `let` fails, and `lambda` fails or changes the global scope. So
what a function comes to with one or two values can be told without a scope (`invokes_scope_iff`).

`Applies` says so of an application that leaves the global scope as it is. Such applications can be
made one after the other, to the items of a list (`AppliesInTurn`), to a total and the next item
(`FoldsInTurn`), or to the positions and items until a result is true (`SearchesInTurn`).
-/

namespace MiniLisp

/-! ## Work that does not depend on the scope -/

/-- Whether a function does not look at the scope of its call, but for its arguments. -/
def Function.ignoresScope : Function → Bool
  | .builtin .binding => false
  | .builtin .lambda => false
  | .builtin .deferred => false
  | _ => true

section Scopes

variable {files : Files} {w : World} {c : Call} {scope s globals : Scope} {args : List Value}

/-- The work of a function that ignores the scope: it is the same for all scopes, or it keeps some
of the arguments and hands the scope on. -/
theorem Call.prepare_of_ignoresScope (hc : c.fn.ignoresScope = true) (globals : Scope)
    (args : List Value) :
    (∃ r, ∀ s, c.prepare s globals args = r) ∨
      ∃ d args' load, (∀ s, c.prepare s globals args = .ok ⟨d, args', s, load⟩) ∧
        d.fn = c.fn ∧ ∀ v ∈ args', v ∈ args := by
  obtain ⟨fn, written, resolved, prepared, body⟩ := c
  cases fn with
  | user d => exact Or.inl ⟨_, fun s => rfl⟩
  | builtin b =>
    cases b with
    | binding | lambda | deferred => cases hc
    | undefined => exact Or.inl ⟨_, fun s => rfl⟩
    | choice => exact Or.inr ⟨_, _, _, fun s => rfl, rfl, fun v => mem_of_mem_chooseAction⟩
    | branch =>
      cases hb : chooseBranch args with
      | error e =>
        refine Or.inl ⟨.error e, fun s => ?_⟩
        show (chooseBranch args).map _ = _
        rw [hb]
        rfl
      | ok args' =>
        refine Or.inr ⟨_, args', none, fun s => ?_, rfl, mem_of_mem_chooseBranch hb⟩
        show (chooseBranch args).map _ = _
        rw [hb]
        rfl
    | define =>
      rcases List.eq_nil_or_concat args with rfl | ⟨front, last, rfl⟩
      · exact Or.inl ⟨_, fun s => rfl⟩
      · refine Or.inr ⟨⟨.builtin .define, written, resolved, prepared, last⟩, front, none,
          fun s => ?_, rfl, fun v hv => by simp [hv]⟩
        show prepareDefinition _ s (front.concat last) = _
        rw [prepareDefinition, List.concat_eq_append, List.getLast?_concat, List.dropLast_concat]
    | load script =>
      cases args with
      | nil => exact Or.inl ⟨_, fun s => rfl⟩
      | cons v args =>
        cases v with
        | text path => exact Or.inr ⟨_, [], _, fun s => rfl, rfl, by simp⟩
        | _ => exact Or.inl ⟨_, fun s => rfl⟩
    | _ => exact Or.inr ⟨_, args, none, fun s => rfl, rfl, fun v hv => hv⟩

/-- Most functions are applied without looking at the scope. -/
theorem Call.apply_of_ignoresScope (hc : c.fn.ignoresScope = true) (s scope : Scope) :
    c.apply w s args = c.apply w scope args := by
  unfold Call.apply
  split
  · rfl
  · rfl
  · rename_i hfn
    rw [hfn] at hc
    cases hc
  · rfl
  · rfl

/-- What the work of a function leads to does not depend on the scope, if what comes after it does
not. -/
theorem drive_work_scope {n : Nat} {st st' : State} {f : Frame} (hf : f.call.fn.ignoresScope = true)
    (hvs : ∀ v ∈ f.args, v.isCall = false) (hst : step files w st = f.prepare files w [])
    (hst' : step files w st' = { f with scope := s }.prepare files w [])
    (hrest : ∀ (w : World) (g : Frame), g.call.fn.ignoresScope = true →
      (∀ v ∈ g.args, v.isCall = false) →
        drive files n w (.scan { g with scope := s } []) = drive files n w (.scan g [])) :
    drive files (n + 1) w st' = drive files (n + 1) w st := by
  unfold Frame.prepare at hst hst'
  dsimp only at hst'
  rcases Call.prepare_of_ignoresScope hf w.globals f.args with
    ⟨r, hr⟩ | ⟨d, args', load, hd, hfn, hargs⟩
  · have hsame : step files w st' = step files w st := by
      rw [hst, hst', hr, hr]
      rfl
    rw [drive, drive, hsame]
  · rw [hd] at hst hst'
    have hnext : ∀ w, drive files n w (.scan (Frame.continueWith { f with scope := s }
          ⟨d, args', s, load⟩) []) =
        drive files n w (.scan (f.continueWith ⟨d, args', f.scope, load⟩) []) := by
      intro w
      refine hrest w (f.continueWith ⟨d, args', f.scope, load⟩) ?_ fun v hv => hvs v (hargs v hv)
      show d.fn.ignoresScope = true
      rw [hfn]
      exact hf
    cases load with
    | none => rw [drive_succ_next hst, drive_succ_next hst', hnext]
    | some path =>
      dsimp only at hst hst'
      cases hread : files.read? path with
      | none =>
        rw [hread] at hst hst'
        rw [drive_succ_halt hst, drive_succ_halt hst']
      | some text =>
        rw [hread] at hst hst'
        rw [drive_succ_load hst, drive_succ_load hst']
        simp only [hnext]

/-- Going through values and finishing does not depend on the scope. -/
theorem drive_scan_scope (s : Scope) (n : Nat) (w : World) (f : Frame)
    (hf : f.call.fn.ignoresScope = true) (hvs : ∀ v ∈ f.args, v.isCall = false) :
    drive files n w (.scan { f with scope := s } []) = drive files n w (.scan f []) := by
  induction n generalizing w f with
  | zero => rw [drive_zero, drive_zero]
  | succ n ih =>
    cases hv : f.args[f.index]? with
    | none =>
      have hfinish : Frame.finish w { f with scope := s } [] = f.finish w [] := by
        unfold Frame.finish
        dsimp only
        rw [Call.apply_of_ignoresScope hf s f.scope]
        rfl
      have hstep : step files w (.scan f []) = f.finish w [] := step_scan_finish hv
      have hstep' : step files w (.scan { f with scope := s } []) = f.finish w [] :=
        (step_scan_finish (f := { f with scope := s }) hv).trans hfinish
      rw [drive, drive, hstep, hstep']
    | some v =>
      have hcall : v.isCall = false := hvs v (List.mem_of_getElem? hv)
      cases hready : f.isReady f.index with
      | true =>
        exact drive_work_scope hf hvs (step_scan_ready hv hcall hready)
          (step_scan_ready hv hcall hready) ih
      | false =>
        rw [drive_succ_next (step_scan_pass hv hcall hready),
          drive_succ_next (step_scan_pass (f := { f with scope := s }) hv hcall hready)]
        exact ih w { f with index := f.index + 1 } hf hvs

/-- Values stand for themselves in all scopes. -/
theorem Call.resolveArgs_of_isPlain (hargs : ∀ a ∈ c.args, a.isPlain = true)
    (s scope globals : Scope) :
    c.resolveArgs s globals = c.resolveArgs scope globals := by
  have hlookup : ∀ t, c.lookupArgs t globals = .ok c.args := fun t =>
    lookupAll_of_ne_symbol (fun a ha => Value.ne_symbol_of_isPlain (hargs a ha)) t globals c
  unfold Call.resolveArgs
  rw [hlookup, hlookup]

/-- Arguments that hold no calls are looked up to values. -/
theorem isCall_of_resolveArgs {vs : List Value} (hargs : ∀ a ∈ c.args, a.isPlain = true)
    (h : c.resolveArgs scope globals = .ok vs) : ∀ v ∈ vs, v.isCall = false := by
  have hlookup : c.lookupArgs scope globals = .ok c.args :=
    lookupAll_of_ne_symbol (fun a ha => Value.ne_symbol_of_isPlain (hargs a ha)) scope globals c
  obtain ⟨looked, hlooked, rfl, -⟩ := Call.resolveArgs_spec h
  rw [hlookup] at hlooked
  cases hlooked
  exact fun v hv => Value.isCall_of_isPlain (hargs v (Call.mem_of_mem_sortArgs hv))

/-- **A call of a function that ignores the scope** ends in the same way in all scopes, if its
arguments are plain values. -/
theorem ends_start_scope_iff {o : Outcome} (hc : c.fn.ignoresScope = true)
    (hfresh : c.resolved = false ∧ c.prepared = false) (hargs : ∀ a ∈ c.args, a.isPlain = true) :
    Ends files w (.start c s) o ↔ Ends files w (.start c scope) o := by
  have hdrive : ∀ n, drive files n w (.start c s) = drive files n w (.start c scope) := by
    intro n
    cases n with
    | zero => rw [drive_zero, drive_zero]
    | succ n =>
      unfold State.start
      have hsame := Call.resolveArgs_of_isPlain hargs s scope w.globals
      cases hres : c.resolveArgs scope w.globals with
      | error e =>
        rw [drive_succ_halt (step_start_error hfresh.1 (hsame.trans hres)),
          drive_succ_halt (step_start_error hfresh.1 hres)]
      | ok vs =>
        have hvs := isCall_of_resolveArgs hargs hres
        cases hready : c.canPrepare vs (-1) with
        | true =>
          exact drive_work_scope (s := s) (f := ⟨c.mark true false, vs, 0, scope⟩) hc hvs
            (step_start_ready hfresh.1 hfresh.2 hres hready)
            (step_start_ready hfresh.1 hfresh.2 (hsame.trans hres) hready)
            (drive_scan_scope s n)
        | false =>
          rw [drive_succ_next (step_start_scan hfresh.1 hfresh.2 (hsame.trans hres) hready),
            drive_succ_next (step_start_scan hfresh.1 hfresh.2 hres hready)]
          exact drive_scan_scope s n w ⟨c.mark true false, vs, 0, scope⟩ hc hvs
  unfold Ends EndsWith
  simp only [hdrive]

end Scopes

/-! ## Few values -/

section Invoking

variable {files : Files} {w : World} {scope : Scope} {fn : Function} {us : List Value} {o : Outcome}

/-- `let` and `lambda` with too few values fail, in all scopes alike. -/
theorem exists_resolveArgs_error (globals : Scope) (hus : ∀ u ∈ us, u.isPlain = true)
    (hfn : fn = .builtin .binding ∧ us.length ≤ 2 ∨ fn = .builtin .lambda ∧ us.length ≤ 1) :
    ∃ e, ∀ s, (Call.begin fn us).resolveArgs s globals = .error e := by
  cases h : (Call.begin fn us).resolveArgs [] globals with
  | error e => exact ⟨e, fun s => (Call.resolveArgs_of_isPlain hus s [] globals).trans h⟩
  | ok vs =>
    obtain ⟨looked, hlooked, rfl, hcheck⟩ := Call.resolveArgs_spec h
    have hlookup : (Call.begin fn us).lookupArgs [] globals = .ok us :=
      lookupAll_of_ne_symbol (fun u hu => Value.ne_symbol_of_isPlain (hus u hu)) _ _ _
    rw [hlookup] at hlooked
    cases hlooked
    rcases hfn with ⟨rfl, hlen⟩ | ⟨rfl, hlen⟩
    · have hvalid : (Call.begin (.builtin .binding) us).validate us = .ok () := hcheck rfl
      unfold Call.validate at hvalid
      dsimp only [Call.begin] at hvalid
      rw [if_pos (by omega)] at hvalid
      cases hvalid
    · have hcount : (Call.begin (.builtin .lambda) us).checkCount us.length = .ok () := hcheck rfl
      have htwo : (2 : Int) ≤ us.length :=
        of_decide_eq_true (Call.count_of_checkCount (a := ⟨false, 2⟩) rfl hcount)
      omega

theorem Call.headFunction_of_isPlain {c : Call} {head : Value} {globals : Scope}
    (hhead : head.isPlain = true) (s scope : Scope) :
    c.headFunction s globals head = c.headFunction scope globals head := by
  have hlookup : ∀ t, lookup t globals c head = .ok (false, head) :=
    fun t => lookup_of_ne_symbol (Value.ne_symbol_of_isPlain hhead) t globals c
  cases head with
  | function f => rfl
  | _ =>
    unfold Call.headFunction
    dsimp only
    rw [hlookup, hlookup]

/-- A deferred call with values for its head and its arguments invokes what the head is. -/
theorem invokes_deferred_iff {head : Value} (hw : w.IsProper) (hs : Scope.isProper scope = true)
    (hus : ∀ u ∈ head :: us, u.isPlain = true ∧ u.isProper false = true) :
    Invokes files scope (.builtin .deferred) w (head :: us) o ↔
      InvokesHead files scope (.defer head us) w (head :: us) o := by
  have hcalls : ∀ u ∈ head :: us, u.isCall = false :=
    fun u hu => Value.isCall_of_isPlain (hus u hu).1
  have hsite : CallSite scope w (head :: us) := by
    refine ⟨⟨hw, hs, fun u hu => isProper_kind.ofValue (hus u hu).2, fun c hc => ?_⟩,
      fun u hu => ?_⟩
    · cases hcalls _ hc
    · cases u with
      | symbol n => cases (hus _ hu).1
      | _ => rfl
  have hlookup : lookupAll scope w.globals (.defer head us) (head :: us) = .ok (head :: us) :=
    lookupAll_of_ne_symbol (fun u hu => Value.ne_symbol_of_isPlain (hus u hu).1) _ _ _
  exact (hsite.ends_defer_iff hlookup).trans (afterArgs_values hcalls)

/-- A function whose call does not begin another one does the same in all scopes. -/
theorem invokes_scope_iff_of_ne_deferred (hfn : fn ≠ .builtin .deferred)
    (hus : ∀ u ∈ us, u.isPlain = true) (hlen : us.length ≤ 2)
    (hlambda : fn = .builtin .lambda → us.length ≤ 1) :
    Invokes files scope fn w us o ↔ Invokes files [] fn w us o := by
  have hcases : fn.ignoresScope = true ∨
      ∃ e, ∀ s, (Call.begin fn us).resolveArgs s w.globals = .error e := by
    cases fn with
    | user d => exact Or.inl rfl
    | builtin b =>
      cases b with
      | binding => exact Or.inr (exists_resolveArgs_error _ hus (Or.inl ⟨rfl, hlen⟩))
      | lambda => exact Or.inr (exists_resolveArgs_error _ hus (Or.inr ⟨rfl, hlambda rfl⟩))
      | deferred => exact absurd rfl hfn
      | _ => exact Or.inl rfl
  unfold Invokes
  cases hbegin : fn.begin us with
  | error e => exact Iff.rfl
  | ok real =>
    rw [Function.eq_of_begin hbegin]
    dsimp only
    rcases hcases with hignores | ⟨e, he⟩
    · exact ends_start_scope_iff hignores ⟨rfl, rfl⟩ hus
    · unfold State.start
      rw [ends_halt_iff (step_start_error rfl (he scope)),
        ends_halt_iff (step_start_error rfl (he []))]

/-- **A function does the same in all scopes** with one or two values. -/
theorem invokes_scope_iff (hw : w.IsProper) (hs : Scope.isProper scope = true)
    (hus : ∀ u ∈ us, u.isPlain = true ∧ u.isProper false = true) (hlen : us.length ≤ 2)
    (hlambda : fn = .builtin .lambda → us.length ≤ 1) :
    Invokes files scope fn w us o ↔ Invokes files [] fn w us o := by
  -- by induction on the values, since the first may be a function that is called with the others
  induction us generalizing fn with
  | nil =>
    by_cases hfn : fn = .builtin .deferred
    · rw [hfn]
      exact Iff.rfl
    · exact invokes_scope_iff_of_ne_deferred hfn (by simp) hlen hlambda
  | cons u us ih =>
    by_cases hfn : fn = .builtin .deferred
    · rw [hfn, invokes_deferred_iff hw hs hus, invokes_deferred_iff hw rfl hus]
      rw [List.length_cons] at hlen
      rw [List.forall_mem_cons] at hus
      unfold InvokesHead
      dsimp only
      rw [Call.headFunction_of_isPlain hus.1.1 scope []]
      cases (Call.defer u us).headFunction [] w.globals u with
      | error e => exact Iff.rfl
      | ok f => exact ih hus.2 (by omega) fun _ => by omega
    · exact invokes_scope_iff_of_ne_deferred hfn (fun v hv => (hus v hv).1) hlen hlambda

end Invoking

/-! ## Functions that are made -/

section Making

variable {files : Files} {w w' : World} {v : Value}

/-- `lambda` with two values makes a function, if it succeeds. -/
theorem World.IsNumbered.ne_of_invokes_lambda {x y : Value} {scope : Scope} (h : w.IsNumbered)
    (hx : x.isPlain = true) (hy : y.isPlain = true)
    (hends : Invokes files scope (.builtin .lambda) w [x, y] ⟨w', .value v⟩) :
    w'.globals ≠ w.globals := by
  unfold Invokes at hends
  cases hbegin : (Function.builtin .lambda).begin [x, y] with
  | error e =>
    rw [hbegin] at hends
    cases hends
  | ok real =>
    rw [hbegin, Function.eq_of_begin hbegin] at hends
    dsimp only at hends
    have hcall : x.isCall = false := Value.isCall_of_isPlain hx
    have hlookup : lookupAll scope w.globals (.begin (.builtin .lambda) [x, y]) [x, y] =
        .ok [x, y] := by
      refine lookupAll_of_ne_symbol (fun u hu => ?_) _ _ _
      rcases List.mem_cons.mp hu with rfl | hu
      · exact Value.ne_symbol_of_isPlain hx
      · rw [List.mem_singleton.mp hu]
        exact Value.ne_symbol_of_isPlain hy
    have hres : (Call.begin (.builtin .lambda) [x, y]).resolveArgs scope w.globals =
        .ok ([x] ++ [y]) := by
      have hargs : (Call.begin (.builtin .lambda) [x, y]).lookupArgs scope w.globals =
          .ok [x, y] := hlookup
      rw [Call.resolveArgs, hargs]
      rfl
    have hvalue : EachYields files scope (fun _ v => v.isCall = false) w [x] :=
      (allYield_values (by simp [hcall])).eachYields
    rw [ends_defining_iff rfl ⟨rfl, rfl⟩ hres hvalue, afterArgs_values (by simp [hcall])] at hends
    have hconclude : ∀ {q}, ((Call.begin (.builtin .lambda) [x, y]).withBody y).applyLambda w scope
        [x] = q → (⟨w', .value v⟩ : Outcome) = Outcome.ofExcept q.1 q.2 := by
      rintro _ rfl
      exact hends
    rcases happly : ((Call.begin (.builtin .lambda) [x, y]).withBody y).applyLambda w scope [x] with
      ⟨w₁, r⟩
    have hsame := hconclude happly
    cases r with
    | error e => cases hsame
    | ok u =>
      cases hsame
      rcases Call.applyLambda_cases happly with ⟨-, e, he⟩ | ⟨_, _, _, captures, -, -, -, hmake⟩
      · cases he
      · rcases Call.applyDefine_cases hmake with ⟨-, e, he⟩ | ⟨name, params, -, hdefine⟩
        · cases he
        · exact h.ne_of_define hdefine

end Making

/-! ## Applications -/

/-- Between the worlds `w` and `w'` a text was written, and functions may have been made, but the
global scope is the same. -/
structure World.Writes (w w' : World) (text : String) : Prop where
  globals : w'.globals = w.globals
  made : w.made ≤ w'.made
  output : w'.output = w.output ++ text

/-- The function `fn`, given the values `us` in the world `w`, succeeds with the value `v`. It
leaves the world `w'` with the same global scope, and writes a text. -/
structure Applies (files : Files) (fn : Function) (w : World) (us : List Value) (w' : World)
    (v : Value) (text : String) : Prop where
  ends : Invokes files [] fn w us ⟨w', .value v⟩
  globals : w'.globals = w.globals
  output : w'.output = w.output ++ text

/-- The function `fn` is applied to the values `xs`, from first to last, and each application leaves
the global scope as it is. The results are `vs`, the texts written are `texts`. -/
inductive AppliesInTurn (files : Files) (fn : Function) :
    World → List Value → World → List Value → List String → Prop where
  | nil {w : World} : AppliesInTurn files fn w [] w [] []
  | cons {w w₁ w₂ : World} {x v : Value} {xs vs : List Value} {text : String}
      {texts : List String} (first : Applies files fn w [x] w₁ v text)
      (rest : AppliesInTurn files fn w₁ xs w₂ vs texts) :
      AppliesInTurn files fn w (x :: xs) w₂ (v :: vs) (text :: texts)

/-- The function `fn` is applied to a total and each of the values `xs`, from first to last, where
every result is the next total, and each application leaves the global scope as it is. No result is
a symbol. What the last total is, and what is written. -/
inductive FoldsInTurn (files : Files) (fn : Function) :
    World → Value → List Value → World → Value → List String → Prop where
  | nil {w : World} {total : Value} : FoldsInTurn files fn w total [] w total []
  | cons {w w₁ w₂ : World} {total x u v : Value} {xs : List Value} {text : String}
      {texts : List String} (first : Applies files fn w [total, x] w₁ u text)
      (plain : u.isPlain = true) (rest : FoldsInTurn files fn w₁ u xs w₂ v texts) :
      FoldsInTurn files fn w total (x :: xs) w₂ v (text :: texts)

/-- The function `fn` is applied to a position and the value there, for each of the values `xs` from
the position `i` on, until a result is true. Each application leaves the global scope as it is. The
results are `vs`, the texts written are `texts`. -/
inductive SearchesInTurn (files : Files) (fn : Function) :
    Nat → World → List Value → World → List Value → List String → Prop where
  | nil {i : Nat} {w : World} : SearchesInTurn files fn i w [] w [] []
  | found {i : Nat} {w w₁ : World} {x v : Value} {xs : List Value} {text : String}
      (last : Applies files fn w [.int i, x] w₁ v text) (hit : v.isTrue = true) :
      SearchesInTurn files fn i w (x :: xs) w₁ [v] [text]
  | next {i : Nat} {w w₁ w₂ : World} {x v : Value} {xs vs : List Value} {text : String}
      {texts : List String} (first : Applies files fn w [.int i, x] w₁ v text)
      (miss : v.isTrue = false) (rest : SearchesInTurn files fn (i + 1) w₁ xs w₂ vs texts) :
      SearchesInTurn files fn i w (x :: xs) w₂ (v :: vs) (text :: texts)

section Applying

variable {files : Files} {fn : Function} {i : Nat} {w w₁ w' : World} {scope : Scope}
  {us vs xs : List Value} {total v : Value} {text : String} {texts : List String}

theorem World.Writes.nothing : w.Writes w (String.join []) :=
  ⟨rfl, Nat.le_refl _, by simp⟩

/-- Texts are written one behind the other. -/
theorem World.Writes.cons (h : w.Writes w₁ text) (h' : w₁.Writes w' (String.join texts)) :
    w.Writes w' (String.join (text :: texts)) := by
  refine ⟨h'.globals.trans h.globals, Nat.le_trans h.made h'.made, ?_⟩
  rw [h'.output, h.output, String.join_cons, String.append_assoc]

/-- Invoking a function makes functions but never takes back a number. -/
theorem Invokes.made_le {o : Outcome} (h : Invokes files scope fn w us o) :
    w.made ≤ o.world.made := by
  unfold Invokes at h
  cases hbegin : fn.begin us with
  | error e =>
    rw [hbegin] at h
    subst h
    exact Nat.le_refl _
  | ok real =>
    rw [hbegin] at h
    exact Ends.made_le h

/-- A proper function makes a proper value of proper values. -/
theorem Applies.isProper (h : Applies files fn w us w' v text) (hfn : fn.isProper = true)
    (hw : w.IsProper) (hus : ∀ u ∈ us, u.isProper false = true) : v.isProper false = true := by
  have hends := h.ends
  unfold Invokes at hends
  cases hbegin : fn.begin us with
  | error e =>
    rw [hbegin] at hends
    cases hends
  | ok real =>
    rw [hbegin, Function.eq_of_begin hbegin] at hends
    have hcall : (Call.begin fn us).isProper = true :=
      Call.begin_proper hfn fun u hu => isProper_kind.ofValue (hus u hu)
    exact (Ends.proper hends hw (State.start_proper hcall rfl)).2 v rfl

/-- **An application is the same in all scopes.** -/
theorem Applies.invokes (h : Applies files fn w us w' v text) (hw : w.IsProper)
    (hn : w.IsNumbered) (hs : Scope.isProper scope = true)
    (hus : ∀ u ∈ us, u.isPlain = true ∧ u.isProper false = true) (hlen : us.length ≤ 2) :
    Invokes files scope fn w us ⟨w', .value v⟩ := by
  refine (invokes_scope_iff hw hs hus hlen ?_).mpr h.ends
  rintro rfl
  -- with two values `lambda` would have changed the global scope
  rcases us with _ | ⟨x, _ | ⟨y, us⟩⟩
  · exact Nat.zero_le 1
  · exact Nat.le_refl 1
  · obtain rfl : us = [] := by
      rw [List.length_cons, List.length_cons] at hlen
      exact List.length_eq_zero_iff.mp (by omega)
    exact absurd h.globals
      (hn.ne_of_invokes_lambda (hus x (by simp)).1 (hus y (by simp)).1 h.ends)

/-- **A deferred call whose head stands for a function** has the value of the application to the
values of its arguments. -/
theorem Applies.yields_of_allYield {w₀ : World} {head : Value} {args : List Value}
    (h : Applies files fn w us w' v text) (hfn : fn.isProper = true) (hw : w.IsProper)
    (hn : w.IsNumbered) (hs : Scope.isProper scope = true)
    (hus : ∀ u ∈ us, u.isPlain = true ∧ u.isProper false = true) (hlen : us.length ≤ 2)
    (hargs : lookupAll scope w₀.globals (.defer head args) (head :: args) =
      .ok (.function fn :: vs)) (hcount : vs.length = args.length)
    (hvalues : AllYield files scope w₀ vs w us) :
    Yields files scope w₀ (.call (.defer head args)) w' v := by
  have hv : v.isCall = false :=
    isProper_kind.value (h.isProper hfn hw fun u hu => (hus u hu).2)
  exact .call rfl (hvalues.ends_deferred hargs (inTime_of_length hcount)
    (h.invokes hw hn hs hus hlen) hv) hv

/-- A deferred call of the function yields what applying it gives. -/
theorem Applies.yields {head : Value} {args : List Value} (h : Applies files fn w us w' v text)
    (hfn : fn.isProper = true) (hw : w.IsProper) (hn : w.IsNumbered)
    (hs : Scope.isProper scope = true)
    (hus : ∀ u ∈ us, u.isPlain = true ∧ u.isProper false = true) (hlen : us.length ≤ 2)
    (hargs : lookupAll scope w.globals (.defer head args) (head :: args) =
      .ok (.function fn :: us)) (hcount : us.length = args.length) :
    Yields files scope w (.call (.defer head args)) w' v :=
  h.yields_of_allYield hfn hw hn hs hus hlen hargs hcount
    (allYield_values fun u hu => Value.isCall_of_isPlain (hus u hu).1)

theorem Applies.writes (h : Applies files fn w us w' v text) : w.Writes w' text :=
  ⟨h.globals, h.ends.made_le, h.output⟩

/-- What the applications write is written in their order. -/
theorem AppliesInTurn.writes (h : AppliesInTurn files fn w xs w' vs texts) :
    w.Writes w' (String.join texts) := by
  induction h with
  | nil => exact .nothing
  | cons first _ ih => exact first.writes.cons ih

/-- What the steps of a fold write is written in their order. -/
theorem FoldsInTurn.writes (h : FoldsInTurn files fn w total xs w' v texts) :
    w.Writes w' (String.join texts) := by
  induction h with
  | nil => exact .nothing
  | cons first _ _ ih => exact first.writes.cons ih

/-- What a search writes is written in the order of its tests. -/
theorem SearchesInTurn.writes (h : SearchesInTurn files fn i w xs w' vs texts) :
    w.Writes w' (String.join texts) := by
  induction h with
  | nil => exact .nothing
  | found last _ => exact last.writes.cons .nothing
  | next first _ _ ih => exact first.writes.cons ih

/-- There is one value for each item. -/
theorem AppliesInTurn.length_eq (h : AppliesInTurn files fn w xs w' vs texts) :
    vs.length = xs.length := by
  induction h with
  | nil => rfl
  | cons _ _ ih => rw [List.length_cons, List.length_cons, ih]

theorem FoldsInTurn.isPlain (h : FoldsInTurn files fn w total xs w' v texts)
    (htotal : total.isPlain = true) : v.isPlain = true := by
  induction h with
  | nil => exact htotal
  | cons _ plain _ ih => exact ih plain

theorem FoldsInTurn.length_eq (h : FoldsInTurn files fn w total xs w' v texts) :
    texts.length = xs.length := by
  induction h with
  | nil => rfl
  | cons _ _ _ ih => rw [List.length_cons, List.length_cons, ih]

/-- There is one text for each test. -/
theorem SearchesInTurn.length_texts (h : SearchesInTurn files fn i w xs w' vs texts) :
    texts.length = vs.length := by
  induction h with
  | nil => rfl
  | found _ _ => rfl
  | next _ _ _ ih => rw [List.length_cons, List.length_cons, ih]

/-- A search stops behind the first true result, or else it goes through all values. -/
theorem SearchesInTurn.length_eq (h : SearchesInTurn files fn i w xs w' vs texts) :
    vs.length = (vs.findIdx? Value.isTrue).elim xs.length (· + 1) := by
  induction h with
  | nil => rfl
  | found _ hit => rw [List.findIdx?_cons, hit]; rfl
  | @next _ _ _ _ _ _ _ vs _ _ _ miss _ ih =>
    rw [List.findIdx?_cons, miss, List.length_cons, ih]
    cases vs.findIdx? Value.isTrue with
    | none => rfl
    | some k => rfl

end Applying

end MiniLisp

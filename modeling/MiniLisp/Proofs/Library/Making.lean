import MiniLisp.Proofs.Library.Functions

/-!
# Making functions

Functions of the library that go through a list define a helper first, under a name that is free, or
a function without a name. Such a function is bound in the global scope (`World.Makes`), where all
else stays as it is (`Library.OnlyBinds`), and as long as this is so the helper is `Library.Ready`
to be called. The same holds of a program that defines functions of its own.

What a function of the library comes to is told for all calls that pass it the same values
(`Definition.Returns`), with what such a call keeps of the world (`ComesTo`).
-/

namespace MiniLisp

/-! ## Calls by name -/

section Calls

variable {files : Files} {scope : Scope} {w w₁ w' : World} {c : Call} {d : Definition}
  {fn : Function} {f : String} {star y v : Value} {args us vs ys : List Value}

theorem lookupAll_standsFor_cons (hf : isBareName f = true)
    (hfn : StandsFor scope w.globals f fn) (hvs : lookupAll scope w.globals c args = .ok vs) :
    lookupAll scope w.globals c (.symbol f :: args) = .ok (.function fn :: vs) := by
  rw [lookupAll, lookup_of_standsFor hf hfn]
  dsimp only
  rw [hvs]
  rfl

/-- **A deferred call by the name of a defined function** has the value that the function gives, if
its arguments come in time and none of their values is a symbol. -/
theorem StandsFor.yields (hd : StandsFor scope w.globals f (.user d)) (hf : isBareName f = true)
    (hvs : lookupAll scope w.globals (.defer (.symbol f) args) args = .ok vs)
    (htime : InTime args vs) (hus : AllYield files scope w vs w₁ us)
    (hplain : ∀ u ∈ us, u.isPlain = true) (hgives : d.Gives files w₁ us w' v) :
    Yields files scope w (.call (.defer (.symbol f) args)) w' v :=
  .call rfl (hus.ends_deferred (lookupAll_standsFor_cons hf hd hvs) htime (hgives.invokes hplain)
    hgives.isCall_eq_false) hgives.isCall_eq_false

/-- The same where the items of a list come behind other arguments. -/
theorem StandsFor.yields_starred (hd : StandsFor scope w.globals f (.user d))
    (hf : isBareName f = true) (front : List Value)
    (hfront : lookupAll scope w.globals (.defer (.symbol f) (front ++ [star])) front = .ok vs)
    (hcount : vs.length = front.length)
    (hstar : lookup scope w.globals (.defer (.symbol f) (front ++ [star])) star =
      .ok (true, .tuple (y :: ys)))
    (hus : AllYield files scope w vs w₁ us) (hplain : ∀ u ∈ us ++ y :: ys, u.isPlain = true)
    (hgives : d.Gives files w₁ (us ++ y :: ys) w' v) :
    Yields files scope w (.call (.defer (.symbol f) (front ++ [star]))) w' v := by
  have hitems : ∀ u ∈ y :: ys, u.isCall = false :=
    fun u hu => Value.isCall_of_isPlain (hplain u (List.mem_append_right _ hu))
  have hargs : lookupAll scope w.globals (.defer (.symbol f) (front ++ [star])) (front ++ [star]) =
      .ok (vs ++ y :: ys) := by
    rw [lookupAll_star hfront hstar rfl, List.append_nil]
  -- what is behind the arguments that were written are items, and these are no calls
  have htime : InTime (front ++ [star]) (vs ++ y :: ys) := by
    refine ⟨by simp [hcount], fun u hu => ?_⟩
    rw [List.length_append, ← hcount, ← List.drop_drop, List.drop_left] at hu
    exact hitems u (List.mem_of_mem_drop hu)
  exact hd.yields hf hargs htime (hus.append (allYield_values hitems)) hplain hgives

theorem lookupAll_variable {globals : Scope} (hn : isBareName n = true)
    (hv : scope.find? (.symbol n) = .ok (some v)) :
    lookupAll scope globals c [.symbol n] = .ok [v] := by
  have hvar : findVariable scope globals n c = .ok v := by
    unfold findVariable
    rw [hv]
  refine lookupAll_cons_iff.mpr ⟨[v], [], rfl, rfl, Or.inl ⟨v, ?_, rfl⟩⟩
  rw [lookup_of_isBareName hn, hvar]
  rfl

/-- A function that gives a value for the value of a variable. -/
theorem Definition.Gives.yields_variable {u : Value} (h : d.Gives files w [v] w' u)
    (hn : isBareName n = true) (hv : scope.find? (.symbol n) = .ok (some v))
    (hcall : v.isCall = false) :
    Yields files scope w (.call (.begin (.user d) [.symbol n])) w' u :=
  .call rfl ((Yields.value hcall).singleton.ends_user (lookupAll_variable hn hv) h)
    h.isCall_eq_false

end Calls

/-! ## Worlds with one more function -/

/-- The world `w'` is `w` after the function `d` has been made under the name `n`. -/
structure World.Makes (w : World) (n : String) (d : Definition) (w' : World) : Prop where
  globals : w.globals.insert (.symbol n) (.function (.user d)) = .ok w'.globals
  number : d.id = w.made
  made : w'.made = w.made + 1
  output : w'.output = w.output

section Makes

variable {w w' : World} {n : String} {d : Definition}

/-- After a definition only its name means something else. -/
theorem World.Makes.find? (h : w.Makes n d w') (m : String) :
    w'.globals.find? (.symbol m) =
      if m = n then .ok (some (.function (.user d))) else w.globals.find? (.symbol m) :=
  Scope.find?_put (Scope.put_of_insert h.globals)

/-- A definition with a proper body leaves a proper world. -/
theorem World.Makes.proper (h : w.Makes n d w') (hw : w.IsProper) (hd : d.isProper = true) :
    w'.IsProper := by
  have hfun : Value.isProper false (.function (.user d)) = true := hd
  exact Scope.isProper_iff.mpr (Scope.All.insert (Scope.isProper_iff.mp hw) hfun h.globals)

end Makes

/-- The call `c`, started in a scope from the world `w₀` on, ends with the result `r`. Compared with
the world `w` nothing has been written then, and no names but `names` have got other values. -/
def ComesTo (files : Files) (scope : Scope) (w₀ : World) (c : Call) (w : World)
    (names : List String) (r : Result) : Prop :=
  ∃ w', (∀ o, Ends files w₀ (.start c scope) o ↔ o = ⟨w', r⟩) ∧ w'.output = w.output ∧
    ∀ n, n ∉ names → w'.globals.find? (.symbol n) = w.globals.find? (.symbol n)

/-- Every call that passes the values `us` to the function `d` ends with the result `r`, if `w` is
the world that its arguments leave. -/
def Definition.Returns (files : Files) (d : Definition) (w : World) (us : List Value)
    (names : List String) (r : Result) : Prop :=
  ∀ scope w₀ c, Passes files d us w scope w₀ c → ComesTo files scope w₀ c w names r

namespace Library

/-- The parameters of functions of the library and of their helpers. -/
def parameters : List String :=
  ["*", "fn", "ls", "first", "total", "initial"]

/-- Whether a name can be that of a helper: it is looked up as it stands and is not taken. -/
def isHelperName (n : String) : Bool :=
  isBareName n && !n.toList.contains (Char.ofNat 0) && definitions.all (fun e => n != e.1) &&
    !parameters.contains n

/-- The function `n` with the parameters `params` and the body `b`, as it is made in the world `w`.
-/
def madeIn (w : World) (n : String) (params : List String) (b : Call) : Definition :=
  ⟨w.made, .symbol n, params.map Value.symbol, hasRest (Call.defining n params b).args, .call b, []⟩

/-- The world `w` after a function has been made. -/
def afterMaking (w : World) (n : String) (params : List String) (b : Call) : World :=
  (w.define (.symbol n) (params.map Value.symbol) (hasRest (Call.defining n params b).args)
    (.call b) []).1

/-- Between the worlds `w` and `w'` nothing was written and no names but `names` have got other
values. The library can still be used. -/
structure OnlyBinds (names : List String) (w w' : World) : Prop where
  provided : Provided w'
  proper : w'.IsProper
  output : w'.output = w.output
  others : ∀ n, n ∉ names → w'.globals.find? (.symbol n) = w.globals.find? (.symbol n)

/-- The library can be used, and the name `n` is bound to the helper `d`. -/
structure Ready (n : String) (d : Definition) (w : World) : Prop where
  name : isHelperName n = true
  provided : Provided w
  proper : w.IsProper
  helper : w.globals.find? (.symbol n) = .ok (some (.function (.user d)))

section Making

variable {files : Files} {scope : Scope} {w w₁ w' : World} {n : String} {params : List String}
  {names : List String} {b : Call} {d : Definition} {star v y : Value} {us vs ys : List Value}

theorem isHelperName_iff :
    isHelperName n = true ↔ isBareName n = true ∧ n.toList.contains (Char.ofNat 0) = false ∧
      (∀ e ∈ definitions, n ≠ e.1) ∧ n ∉ parameters := by
  have hparam : parameters.contains n = false ↔ n ∉ parameters := by simp
  simp only [isHelperName, Bool.and_eq_true, Bool.not_eq_true', List.all_eq_true, bne_iff_ne,
    hparam, and_assoc]

/-- A function can be made under every name that may be written. -/
theorem Provided.exists_makes (h : Provided w) (hn : n.toList.contains (Char.ofNat 0) = false)
    (params : List Value) (variadic : Bool) (body : Value) (captures : Scope) :
    ∃ w', w.define (.symbol n) params variadic body captures =
        (w', .ok (.function (.user ⟨w.made, .symbol n, params, variadic, body, captures⟩))) ∧
      w.Makes n ⟨w.made, .symbol n, params, variadic, body, captures⟩ w' := by
  have htext : ∀ e ∈ w.globals, e.1 ≠ .text n := by
    intro e he hkey
    have hno := h.keys e he
    rw [hkey] at hno
    cases hno
  obtain ⟨s, hput, -⟩ := Scope.exists_put
    (v := .function (.user ⟨w.made, .symbol n, params, variadic, body, captures⟩)) htext
  have hinsert : w.globals.insert (.symbol n)
      (.function (.user ⟨w.made, .symbol n, params, variadic, body, captures⟩)) = .ok s := hput
  refine ⟨{ w with globals := s, made := w.made + 1 }, ?_, hinsert, rfl, rfl, rfl⟩
  have hdisplay : (Value.symbol n).display = .ok n := rfl
  unfold World.define
  rw [hdisplay]
  dsimp only
  rw [hn, if_neg Bool.false_ne_true, hinsert]

/-- A function can be made under the name of a helper. -/
theorem Provided.define (h : Provided w) (hn : isHelperName n = true) (params : List String)
    (b : Call) :
    w.define (.symbol n) (params.map Value.symbol) (hasRest (Call.defining n params b).args)
          (.call b) [] =
        (afterMaking w n params b, .ok (.function (.user (madeIn w n params b)))) ∧
      w.Makes n (madeIn w n params b) (afterMaking w n params b) := by
  obtain ⟨w', hdefine, hmakes⟩ := h.exists_makes (isHelperName_iff.mp hn).2.1
    (params.map Value.symbol) (hasRest (Call.defining n params b).args) (.call b) []
  have hworld : afterMaking w n params b = w' := by
    unfold afterMaking
    rw [hdefine]
  rw [hworld]
  exact ⟨hdefine, hmakes⟩

/-- The definition of a helper yields the function that it makes. -/
theorem Provided.yields_defining (h : Provided w) (hn : isHelperName n = true) :
    Yields files scope w (.call (.defining n params b)) (afterMaking w n params b)
      (.function (.user (madeIn w n params b))) :=
  .call rfl (ends_defining_value_iff.mpr (h.define hn params b).1) rfl

theorem madeIn_isProper (hb : b.isProper = true) : (madeIn w n params b).isProper = true := by
  have hfun : Value.isProper false (.function (.user (madeIn w n params b))) = true := by
    refine isProper_user_iff.mpr ⟨?_, ?_⟩
    · rw [madeIn, Value.isProper_call]
      exact hb
    · rintro _ ⟨⟩
  exact hfun

/-! ## What is kept -/

theorem OnlyBinds.refl (hw : Provided w) (hproper : w.IsProper) : OnlyBinds names w w :=
  ⟨hw, hproper, rfl, fun _ _ => rfl⟩

/-- Worlds that bind nothing else can be put one behind the other. -/
theorem OnlyBinds.trans (h : OnlyBinds names w w₁) (h' : OnlyBinds names w₁ w') :
    OnlyBinds names w w' :=
  ⟨h'.provided, h'.proper, h'.output.trans h.output,
    fun n hn => (h'.others n hn).trans (h.others n hn)⟩

theorem OnlyBinds.mono {names' : List String} (h : OnlyBinds names w w')
    (hsub : ∀ n ∈ names, n ∈ names') : OnlyBinds names' w w' :=
  ⟨h.provided, h.proper, h.output, fun n hn => h.others n fun hmem => hn (hsub n hmem)⟩

/-- Making a function under a name that is not taken binds this name and nothing else. -/
theorem Provided.onlyBinds (hw : Provided w) (hproper : w.IsProper) (h : w.Makes n d w')
    (hn : isHelperName n = true) (hd : d.isProper = true) : OnlyBinds [n] w w' := by
  have hmade : Provided { w with made := w.made + 1 } := hw.mono rfl (Nat.le_succ _)
  have hnew : (Value.function (.user d)).isMadeBefore (w.made + 1) = true := by
    refine decide_eq_true ?_
    rw [h.number]
    exact Nat.lt_succ_self _
  have hother : ∀ e ∈ definitions, Value.symbol n ≠ .symbol e.1 :=
    fun e he hkey => (isHelperName_iff.mp hn).2.2.1 e he (Value.symbol.inj hkey)
  have hprovided := hmade.insert hother rfl hnew h.globals
  refine ⟨hprovided.mono rfl (Nat.le_of_eq h.made.symm), h.proper hproper hd, h.output, ?_⟩
  intro m hm
  rw [h.find? m, if_neg (by simpa using hm)]

/-- Making a helper binds the name of the helper only. -/
theorem Provided.onlyBinds_afterMaking (hw : Provided w) (hproper : w.IsProper)
    (hn : isHelperName n = true) (hb : b.isProper = true) :
    OnlyBinds [n] w (afterMaking w n params b) :=
  hw.onlyBinds hproper (hw.define hn params b).2 hn (madeIn_isProper hb)

/-- After its definition a helper is ready to be called. -/
theorem Provided.ready (h : Provided w) (hw : w.IsProper) (hn : isHelperName n = true)
    (hb : b.isProper = true) :
    Ready n (madeIn w n params b) (Library.afterMaking w n params b) := by
  have hkeeps : OnlyBinds [n] w (Library.afterMaking w n params b) :=
    h.onlyBinds_afterMaking hw hn hb
  refine ⟨hn, hkeeps.provided, hkeeps.proper, ?_⟩
  rw [(h.define hn params b).2.find? n, if_pos rfl]

/-- A helper stays ready when text is written. -/
theorem Ready.mono {text : String} (h : Ready n d w) (hw : w.Writes w' text) : Ready n d w' := by
  refine ⟨h.name, h.provided.mono hw.globals hw.made, ?_, ?_⟩
  · unfold World.IsProper
    rw [hw.globals]
    exact h.proper
  · rw [hw.globals]
    exact h.helper

/-- A helper is still there when other names have got other values. -/
theorem Ready.onlyBinds (h : Ready n d w) (hw : OnlyBinds names w w') (hn : n ∉ names) :
    Ready n d w' :=
  ⟨h.name, hw.provided, hw.proper, (hw.others n hn).trans h.helper⟩

/-- What comes after a helper has been made: if only texts are written, no other name gets another
value. -/
theorem Provided.writes_afterMaking {text : String} (h : Provided w) (hn : isHelperName n = true)
    (hw : (Library.afterMaking w n params b).Writes w' text) :
    w'.output = w.output ++ text ∧
      ∀ m, m ≠ n → w'.globals.find? (.symbol m) = w.globals.find? (.symbol m) := by
  have hmakes := (h.define hn params b).2
  refine ⟨hw.output.trans (congrArg (· ++ text) hmakes.output), fun m hm => ?_⟩
  rw [hw.globals]
  exact (hmakes.find? m).trans (if_neg hm)

/-! ## Calls of helpers -/

/-- Where only parameters are bound, the name of a helper is not. -/
theorem find?_of_isHelperName (hn : isHelperName n = true)
    (hscope : ∀ e ∈ scope, ∃ m ∈ parameters, e.1 = .symbol m) :
    scope.find? (.symbol n) = .ok none := by
  have hparam := (isHelperName_iff.mp hn).2.2.2
  induction scope with
  | nil => rfl
  | cons e scope ih =>
    obtain ⟨k, v⟩ := e
    rw [List.forall_mem_cons] at hscope
    obtain ⟨m, hm, hk⟩ := hscope.1
    dsimp only at hk
    have hne : n ≠ m := by
      rintro rfl
      exact hparam hm
    rw [hk, Scope.find?_symbol_cons, if_neg hne]
    exact ih hscope.2

/-- **A call of a helper with the items of a list** behind other arguments has the value that the
helper gives. -/
theorem Ready.yields (h : Ready n d w) (front : List Value)
    (hscope : ∀ e ∈ scope, ∃ m ∈ parameters, e.1 = .symbol m)
    (hfront : lookupAll scope w.globals (.defer (.symbol n) (front ++ [star])) front = .ok vs)
    (hcount : vs.length = front.length)
    (hstar : lookup scope w.globals (.defer (.symbol n) (front ++ [star])) star =
      .ok (true, .tuple (y :: ys)))
    (hus : AllYield files scope w vs w₁ us) (hplain : ∀ u ∈ us ++ y :: ys, u.isPlain = true)
    (hgives : d.Gives files w₁ (us ++ y :: ys) w' v) :
    Yields files scope w (.call (.defer (.symbol n) (front ++ [star]))) w' v := by
  have hhead : StandsFor scope w.globals n (.user d) :=
    Or.inr ⟨find?_of_isHelperName h.name hscope, h.helper⟩
  exact hhead.yields_starred (isHelperName_iff.mp h.name).1 front hfront hcount hstar hus hplain
    hgives

end Making

/-! ## Programs with functions of their own -/

section Programs

variable {files : Files} {w : World} {n : String} {params : List String} {b : Call} {d : Definition}
  {items more us vs : List Value}

/-- Right after the import of the library nothing has been added to it. -/
theorem extended_imported (script : Bool) (hfile : files.contents? path = some source) :
    Extended files (imported script) :=
  ⟨script, imported script, .none, [], textEnds_import script hfile, rfl, Nat.le_refl _, by simp⟩

/-- A program that uses the library can define a function of its own. -/
theorem Extended.afterMaking (h : Extended files w) (hfile : files.contents? path = some source)
    (hn : isHelperName n = true) (hother : n ∉ functions) :
    Extended files (afterMaking w n params b) := by
  have hmakes := ((h.provided hfile).define hn params b).2
  have hlater := hmakes.made
  obtain ⟨script, u, r, added, hrun, hadd, hmade, hadded⟩ := h
  refine ⟨script, u, r, added ++ [(.symbol n, .function (.user (madeIn w n params b)))], hrun, ?_,
    by omega, fun e he => ?_⟩
  · rw [Scope.insertAll_concat hadd]
    exact hmakes.globals
  · rcases List.mem_append.mp he with he | he
    · exact (hadded e he).mono (by omega)
    · rw [List.mem_singleton.mp he]
      refine ⟨?_, rfl, ⟨_, rfl⟩, ?_⟩
      · rintro m hm ⟨⟩
        exact hother hm
      · rw [hlater]
        exact decide_eq_true (Nat.lt_succ_self _)

/-- The world after the import of the library is proper and has its functions. -/
theorem provided_imported (script : Bool) :
    Provided (imported script) ∧ (imported script).IsProper := by
  have hfile : (Files.ofList [(path, source)]).contents? path = some source := rfl
  have hrun := textEnds_import script hfile
  exact ⟨provided_of_textEnds hfile hrun, hrun.proper.1⟩

/-- A helper that is made right after the import is ready to be called. -/
theorem ready_afterMaking (script : Bool) (hn : isHelperName n = true) (params : List String)
    (hb : b.isProper = true) :
    Ready n (madeIn (imported script) n params b) (afterMaking (imported script) n params b) :=
  (provided_imported script).1.ready (provided_imported script).2 hn hb

/-- A call at the top of a program, whose arguments have values. -/
theorem passes_of_yields {w' : World} {args : List Value} (hw : w.IsProper)
    (hargs : ∀ a ∈ args, a.isProper true = true)
    (hvs : lookupAll [] w.globals (.begin (.user d) args) args = .ok vs)
    (hus : AllYield files [] w vs w' us) (hfresh : ∀ c, .call c ∈ args → c.resolved = false) :
    Passes files d us w' [] w (.begin (.user d) args) :=
  .direct ⟨hw, rfl, hargs, hfresh⟩ hvs hus.argsEnd

/-- A call that gives a function by its name, a list of items and other arguments. -/
theorem Ready.passes {e : Definition} (h : Ready n e w)
    (hitems : ∀ a ∈ items, a.isProper true = true)
    (hlist : Ends files w (.start (.begin (.user list) items) []) ⟨w, .value (.tuple us)⟩)
    (hmore : ∀ a ∈ more, a.isProper true = true ∧ a.isCall = false)
    (hvs : lookupAll [] w.globals
        (.begin (.user d) (.symbol n :: .call (.begin (.user list) items) :: more))
        (.call (.begin (.user list) items) :: more) =
      .ok (.call (.begin (.user list) items) :: vs)) (hvalues : ∀ v ∈ vs, v.isCall = false) :
    Passes files d (.function (.user e) :: .tuple us :: vs) w [] w
      (.begin (.user d) (.symbol n :: .call (.begin (.user list) items) :: more)) := by
  have hcall : (Value.call (.begin (.user list) items)).isProper true = true := by
    rw [Value.isProper_call]
    exact Call.begin_proper rfl hitems
  have hplace : Place [] w (.symbol n :: .call (.begin (.user list) items) :: more) := by
    refine ⟨h.proper, rfl, ?_, fun c hc => ?_⟩
    · exact List.forall_mem_cons.mpr ⟨rfl, List.forall_mem_cons.mpr
        ⟨hcall, fun a ha => (hmore a ha).1⟩⟩
    · rcases List.mem_cons.mp hc with hc | hc
      · cases hc
      rcases List.mem_cons.mp hc with hc | hc
      · cases hc
        rfl
      · cases (hmore _ hc).2
  have hlookup := lookupAll_standsFor_cons (isHelperName_iff.mp h.name).1
    (Or.inr ⟨rfl, h.helper⟩) hvs
  exact .direct hplace hlookup (.cons ((argEnds_value rfl).mpr rfl) (.cons hlist
    (allYield_values hvalues).argsEnd))

end Programs

/-! ## What calls come to -/

section Returning

variable {files : Files} {w : World} {d : Definition} {names : List String} {us : List Value}
  {r : Result} {e : String × Definition}

/-- The functions of the library are sound definitions. -/
theorem sound_of_mem_definitions (he : e ∈ definitions) : e.2.Sound := by
  simp only [definitions, List.mem_cons, List.not_mem_nil, or_false] at he
  rcases he with rfl | rfl | rfl | rfl | rfl | rfl | rfl | rfl | rfl | rfl | rfl | rfl | rfl | rfl
  all_goals
    refine ⟨rfl, ?_⟩
    rintro _ ⟨⟩
    rfl

theorem OnlyBinds.comesTo {scope : Scope} {w₀ w' : World} {c : Call} (h : OnlyBinds names w w')
    (hends : Ends files w₀ (.start c scope) ⟨w', r⟩) : ComesTo files scope w₀ c w names r :=
  ⟨w', fun _ => hends.iff_eq, h.output, h.others⟩

/-- What a function comes to is what all calls come to that pass the same values. -/
theorem returns_of_runs (hd : d.Sound)
    (h : w.IsProper → (∀ u ∈ us, u.isProper false = true) →
      ∃ w', d.Runs files w us ⟨w', r⟩ ∧ OnlyBinds names w w') : d.Returns files w us names r := by
  intro scope w₀ c hc
  obtain ⟨hw, hus⟩ := hc.proper
  obtain ⟨w', hruns, hkeeps⟩ := h hw hus
  exact hkeeps.comesTo ((hc.ends_iff hd).mpr hruns)

theorem returns_of_gives {v : Value} (he : e ∈ definitions)
    (h : w.IsProper → ∃ w', e.2.Gives files w us w' v ∧ OnlyBinds names w w') :
    e.2.Returns files w us names (.value v) := by
  refine returns_of_runs (sound_of_mem_definitions he) fun hproper _ => ?_
  obtain ⟨w', hgives, hkeeps⟩ := h hproper
  exact ⟨w', hgives.runs, hkeeps⟩

end Returning

end Library

end MiniLisp

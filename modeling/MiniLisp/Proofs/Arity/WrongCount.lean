import MiniLisp.Proofs.ArgumentValues

/-!
# Calls with a wrong number of values

A function that gets fewer values than it has parameters fails while its parameters are bound, and
its body does not run. That it gets more values than it can take is not noticed then: the first of
the values are bound, the body runs, and the number is checked when the body has a value. So what
the body writes and defines is there when the error comes, and if the body itself fails or never
ends, the error does not come at all (`wrong_count_reported`).
-/

namespace MiniLisp

section Parameters

variable {files : Files} {c : Call} {d : Definition} {names : List String} {name : String}
  {scope : Scope} {w : World} {us : List Value} {i : Nat} {e : Error} {o : Outcome}

/-- Where the values end before the parameters do, the number of the values is checked. -/
theorem Call.bindParams_few (rest : List Value) (hs : scope.IsNamed) (hstar : "*" ∉ names)
    (hi : i ≤ us.length) (hfew : us.length < i + names.length)
    (hvalid : c.validate (us ++ [.none]) = .error e) :
    c.bindParams scope us i (names.map Value.symbol ++ rest) = .error e := by
  induction names generalizing scope i with
  | nil =>
    rw [List.length_nil] at hfew
    omega
  | cons n names ih =>
    rw [List.mem_cons, not_or] at hstar
    rw [List.length_cons] at hfew
    rw [List.map_cons, List.cons_append, Call.bindParams,
      equal_restName_of_ne fun h => hstar.1 h.symm]
    dsimp only
    by_cases hlt : i < us.length
    · obtain ⟨scope', hinsert, hs', -⟩ := hs.insert n us[i]
      rw [List.getElem?_eq_getElem hlt]
      dsimp only
      rw [hinsert]
      exact ih hs' hstar.2 hlt (by omega)
    · rw [List.getElem?_eq_none (by omega)]
      dsimp only
      rw [hvalid]

/-- Only as many values matter for binding as there are parameters. -/
theorem Call.bindParams_many (hs : scope.IsNamed) (hstar : "*" ∉ names)
    (hmany : i + names.length ≤ us.length) :
    ∃ scope', ∀ (c : Call) (vs : List Value), (∀ j < i + names.length, vs[j]? = us[j]?) →
      c.bindParams scope vs i (names.map Value.symbol) = .ok (scope', vs) := by
  induction names generalizing scope i with
  | nil => exact ⟨scope, fun c vs _ => rfl⟩
  | cons n names ih =>
    rw [List.mem_cons, not_or] at hstar
    rw [List.length_cons] at hmany
    have hlt : i < us.length := by omega
    obtain ⟨scope₁, hinsert, hs₁, -⟩ := hs.insert n us[i]
    obtain ⟨scope', hbind⟩ := @ih scope₁ (i + 1) hs₁ hstar.2 (by omega)
    refine ⟨scope', fun c vs hvs => ?_⟩
    rw [List.length_cons] at hvs
    rw [List.map_cons, Call.bindParams, equal_restName_of_ne fun h => hstar.1 h.symm]
    dsimp only
    rw [hvs i (by omega), List.getElem?_eq_getElem hlt]
    dsimp only
    rw [hinsert]
    exact hbind c vs fun j hj => hvs j (by omega)

/-- The check of a wrong number of values. -/
theorem Definition.HasParams.validate (hd : d.HasParams names) (hname : d.writeName = .ok name)
    (hc : c.fn = .user d) (hwrong : ¬RightCount d.variadic names.length us.length) (v : Value) :
    c.validate (us ++ [v]) =
      .error (.argumentCount d.variadic names.length name us.length) := by
  have harity : d.arity = ⟨!d.variadic, names.length⟩ := by
    unfold Definition.arity
    rw [hd.params]
    cases d.variadic <;> simp
  have haccepts : d.arity.accepts us.length = false := by
    unfold RightCount at hwrong
    rw [harity, Arity.accepts]
    cases hv : d.variadic with
    | false =>
      have hne : us.length ≠ names.length := fun h => hwrong (.inl h)
      exact beq_false_of_ne fun h => hne (Int.ofNat.inj h)
    | true =>
      have hlt : us.length < names.length := Nat.lt_of_not_le fun h => hwrong (.inr ⟨hv, h⟩)
      exact decide_eq_false (Int.not_le.mpr (Int.ofNat_lt.mpr hlt))
  have hlen : (us ++ [v]).length - 1 = us.length := by simp
  have hshown : c.writeName = .ok name := by
    unfold Call.writeName
    rw [hc]
    exact hname
  have hcount : c.checkCount us.length =
      .error (.argumentCount d.variadic names.length name us.length) := by
    have hfn : c.fn.arity? = some d.arity := by rw [hc]; rfl
    rw [Call.checkCount, hfn]
    dsimp only
    rw [haccepts, if_neg Bool.false_ne_true, hshown, harity, Bool.not_not]
  unfold Call.validate
  rw [hc]
  dsimp only
  rw [hlen, hcount]

theorem Definition.HasParams.startScope (hd : d.HasParams names) :
    ∃ start, Call.startScope d = .ok start ∧ Scope.IsNamed start := by
  unfold Call.startScope
  cases d.variadic with
  | false => exact ⟨d.captures, rfl, hd.captures⟩
  | true =>
    obtain ⟨start, hstart, hs, -⟩ := hd.captures.insert "*" (.tuple [])
    exact ⟨start, hstart, hs⟩

/-- With too few values a function fails before its body runs. -/
theorem Definition.HasParams.runs_few_iff (hd : d.HasParams names)
    (hname : d.writeName = .ok name) (hfew : us.length < names.length) :
    d.Runs files w us o ↔
      o = ⟨w, .failed (.argumentCount d.variadic names.length name us.length)⟩ := by
  have hwrong : ¬RightCount d.variadic names.length us.length := by
    rintro (h | ⟨-, h⟩) <;> omega
  obtain ⟨start, hstart, hs⟩ := hd.startScope
  have hprep : (Call.begin (.user d) us).prepareUser d us =
      .error (.argumentCount d.variadic names.length name us.length) := by
    rw [Call.prepareUser, hstart]
    dsimp only
    rw [hd.params, Call.bindParams_few _ hs hd.star (Nat.zero_le _) (by omega)
      (hd.validate hname rfl hwrong .none)]
  rw [Definition.Runs, hprep]

/-- With too many values the body of a function runs first. -/
theorem Definition.HasParams.runs_many_iff (hd : d.HasParams names)
    (hname : d.writeName = .ok name) (hfixed : d.variadic = false)
    (hmany : names.length < us.length) :
    d.Runs files w us o ↔
      AfterArgs files (d.bodyScope (us.take names.length)) w [d.body]
        (fun w _ o => o = ⟨w, .failed (.argumentCount false names.length name us.length)⟩) o := by
  have hwrong : ¬RightCount d.variadic names.length us.length := by
    rw [hfixed]
    rintro (h | ⟨h, -⟩)
    · omega
    · cases h
  obtain ⟨start, hstart, hs⟩ := hd.startScope
  obtain ⟨scope, hbind⟩ := @Call.bindParams_many names start us 0 hs hd.star (by omega)
  -- the values that are too many play no part in binding
  have hprep : ∀ vs : List Value, (∀ j < 0 + names.length, vs[j]? = us[j]?) →
      (Call.begin (.user d) vs).prepareUser d vs =
        .ok ⟨.begin (.user d) vs, vs ++ [d.body], scope, none⟩ := by
    intro vs hvs
    rw [Call.prepareUser, hstart]
    dsimp only
    rw [hd.params, hfixed, if_neg Bool.false_ne_true, List.append_nil, hbind _ vs hvs]
  have hscope : d.bodyScope (us.take names.length) = scope := by
    rw [Definition.bodyScope, hprep]
    intro j hj
    rw [List.getElem?_take_of_lt (by omega)]
  have hlate : ∀ w v, (Call.begin (.user d) us).conclude w scope (us ++ [v]) =
      ⟨w, .failed (.argumentCount false names.length name us.length)⟩ := by
    intro w v
    have hchecks : (Call.begin (.user d) us).fn.checksEarly = false := rfl
    rw [Call.conclude, hchecks, if_neg Bool.false_ne_true, hd.validate hname rfl hwrong v, hfixed]
  rw [Definition.Runs, hprep us fun _ _ => rfl, hscope]
  dsimp only
  rw [List.dropLast_concat]
  simp only [afterArgs_cons, afterArgs_nil, hlate]

end Parameters

section Reports

variable {files : Files} {c : Call} {d : Definition} {names : List String} {name : String}
  {scope : Scope} {w w' : World} {us : List Value}

/-- **A wrong number of values is reported before the body runs if there are too few of them, and
after it if there are too many.** With too few values a call fails in the world that its arguments
leave. With too many the body is run with the first of them; if it has a value, the call fails in
the world that the body leaves. -/
theorem wrong_count_reported (hc : Passes files d us w' scope w c) (hd : d.Sound)
    (hparams : d.HasParams names) (hname : d.writeName = .ok name) :
    (us.length < names.length →
        ∀ o, Ends files w (.start c scope) o ↔
          o = ⟨w', .failed (.argumentCount d.variadic names.length name us.length)⟩) ∧
      (d.variadic = false → names.length < us.length →
        ∀ o, Ends files w (.start c scope) o ↔
          AfterArgs files (d.bodyScope (us.take names.length)) w' [d.body] (fun w _ o =>
            o = ⟨w, .failed (.argumentCount false names.length name us.length)⟩) o) := by
  constructor
  · intro hfew o
    rw [hc.ends_iff hd, hparams.runs_few_iff hname hfew]
  · intro hfixed hmany o
    rw [hc.ends_iff hd, hparams.runs_many_iff hname hfixed hmany]

/-- `f` has no parameters and `g` has one; both print a text. `(f 2)` prints it before it fails, and
the deferred call `(g)` does not. -/
theorem wrong_count_reported_print :
    let body : Value := .call (.begin (.builtin .print) [.text "ran"])
    let f : Definition := ⟨0, .symbol "f", [], false, body, []⟩
    let g : Definition := ⟨1, .symbol "g", [.symbol "x"], false, body, []⟩
    let scope : Scope := [(.symbol "g", .function (.user g))]
    let w := World.start false
    Ends (Files.ofList []) w (.start (.begin (.user f) [.symbol "2"]) scope)
        ⟨w.write "ran\n", .failed (.argumentCount false 0 "f" 1)⟩ ∧
      Ends (Files.ofList []) w (.start (.defer (.symbol "g") []) scope)
        ⟨w, .failed (.argumentCount false 1 "g" 0)⟩ := by
  intro body f g scope w
  have hsound : f.Sound ∧ g.Sound := by
    refine ⟨⟨rfl, ?_⟩, ⟨rfl, ?_⟩⟩ <;>
    · rintro b ⟨⟩
      rfl
  constructor
  · have hcall : Passes (Files.ofList []) f [.int 2] w scope w (.begin (.user f) [.symbol "2"]) :=
      .direct ⟨rfl, rfl, allProper_iff.mp rfl, by simp⟩ rfl (.cons rfl .nil)
    have hparams : f.HasParams [] := ⟨rfl, by simp, by simp [Scope.IsNamed, f]⟩
    refine ((wrong_count_reported hcall hsound.1 hparams rfl).2 rfl (by decide) _).mpr ?_
    have hbody : ArgsEnd (Files.ofList []) (f.bodyScope []) w [body] (w.write "ran\n") [.none] :=
      .cons ⟨rfl, 10, rfl⟩ .nil
    exact hbody.afterArgs_iff.mpr rfl
  · have hsite : CallSite scope w [.symbol "g"] :=
      ⟨⟨rfl, rfl, allProper_iff.mp rfl, by simp⟩, by simp [Value.isStar, variableOf]⟩
    have hcall : Passes (Files.ofList []) g [] w scope w (.defer (.symbol "g") []) :=
      .deferred hsite rfl (.cons rfl .nil) rfl rfl
    have hparams : g.HasParams ["x"] := ⟨rfl, by simp, by simp [Scope.IsNamed, g]⟩
    exact ((wrong_count_reported hcall hsound.2 hparams rfl).1 (by decide) _).mpr rfl

end Reports

end MiniLisp

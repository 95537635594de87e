import MiniLisp.Proofs.Similarity.Comparison

/-!
# Preparing similar calls

Calls with similar parts look up similar arguments (`Call.Alike.resolveArgs`), are ready at the same
time, and go on with similar arguments in similar scopes when their functions have done their work
(`Call.Alike.prepare`). They fail with the same errors.
-/

namespace MiniLisp

section Similarity

variable {M : Revision} {c d : Call} {scope scope' globals globals' : Scope}
  {v u : Value} {vs us : List Value}

/-! ## Looking up -/

/-- A variable has similar values in similar scopes. -/
theorem findVariable_similar (hw : c.write = d.write) (hs : Scope.Similar M scope scope')
    (hg : Scope.Similar M globals globals') (name : String) :
    Agree (Value.Similar M) (findVariable scope globals name c)
      (findVariable scope' globals' name d) := by
  unfold findVariable
  rcases (hs.find? (k := .symbol name) (.atom rfl)).cases with ⟨e, h1, h2⟩ | ⟨x, y, h1, h2, h⟩
  · rw [h1, h2]
    exact .error e
  · rw [h1, h2]
    cases h with
    | some h => exact .ok h
    | none =>
      dsimp only
      rcases (hg.find? (k := .symbol name) (.atom rfl)).cases with ⟨e, h1, h2⟩ | ⟨x, y, h1, h2, h⟩
      · rw [h1, h2]
        exact .error e
      · rw [h1, h2]
        cases h with
        | some h => exact .ok h
        | none =>
          rw [Call.fail_congr hw]
          exact .error _

/-- Similar arguments stand for similar values in similar scopes. -/
theorem lookup_similar (hw : c.write = d.write) (hs : Scope.Similar M scope scope')
    (hg : Scope.Similar M globals globals') (h : v.Similar M u) :
    Agree (fun p q => p.1 = q.1 ∧ p.2.Similar M q.2) (lookup scope globals c v)
      (lookup scope' globals' d u) := by
  cases h with
  | atom hv =>
    cases v with
    | symbol s =>
      rw [lookup, lookup]
      split
      · exact .ok ⟨rfl, .atom rfl⟩
      · split
        · exact .ok ⟨rfl, .atom rfl⟩
        · exact (findVariable_similar hw hs hg _).map fun _ _ h => ⟨rfl, h⟩
    | tuple _ | list _ | function _ | call _ => cases hv
    | _ => exact .ok ⟨rfl, .atom rfl⟩
  | tuple h => exact .ok ⟨rfl, .tuple h⟩
  | list h => exact .ok ⟨rfl, .list h⟩
  | function h hnumber => exact .ok ⟨rfl, .function h hnumber⟩
  | call h => exact .ok ⟨rfl, .call h⟩

/-- Similar arguments are looked up to similar ones. -/
theorem lookupAll_similar (hw : c.write = d.write) (hs : Scope.Similar M scope scope')
    (hg : Scope.Similar M globals globals') (h : List.Forall₂ (Value.Similar M) vs us) :
    Agree (List.Forall₂ (Value.Similar M)) (lookupAll scope globals c vs)
      (lookupAll scope' globals' d us) := by
  induction h with
  | nil => exact .ok .nil
  | @cons v u vs us hv _ ih =>
    rw [lookupAll, lookupAll]
    rcases (lookup_similar hw hs hg hv).cases with
      ⟨e, h1, h2⟩ | ⟨⟨starred, x⟩, ⟨starred', y⟩, h1, h2, h, hxy⟩
    · rw [h1, h2]
      exact .error e
    · rw [h1, h2]
      cases h
      cases starred with
      | false => exact ih.map fun _ _ h => .cons hxy h
      | true =>
        dsimp only
        rcases hxy.items? with ⟨hx, hy⟩ | ⟨xs, ys, hx, hy, hitems⟩
        · rw [hx, hy]
          exact .error _
        · rw [hx, hy]
          exact ih.map fun _ _ h => List.rel_append hitems h

/-! ## Numbers of arguments -/

/-- Similar functions take as many arguments. -/
theorem Function.Similar.arity?_eq {f g : Function} (h : f.Similar M g) : f.arity? = g.arity? := by
  cases h with
  | builtin b => rfl
  | user _ hparams hvariadic _ _ =>
    simp only [Function.arity?, Definition.arity, hparams.length_eq, hvariadic]

/-- Similar functions count their arguments at the same time. -/
theorem Function.Similar.checksEarly_eq {f g : Function} (h : f.Similar M g) :
    f.checksEarly = g.checksEarly := by
  cases h <;> rfl

section Counts

variable (h : c.Alike M d)
include h

/-- Of calls that are alike both are deferred or neither. -/
theorem Call.Alike.isDeferred_eq : c.isDeferred = d.isDeferred := by
  unfold Call.isDeferred
  rcases h.fn.cases with ⟨b, h1, h2⟩ | ⟨d1, d2, h1, h2, -⟩ <;> rw [h1, h2]

/-- Calls that are alike are written alike. -/
theorem Call.Alike.write_eq : c.write = d.write :=
  Call.Similar.write_eq c h.similar

theorem Call.Alike.writeName_eq : c.writeName = d.writeName := by
  have hname := h.fn.writeName_eq
  have hargs := h.args
  unfold Call.writeName
  generalize c.args = xs at hargs ⊢
  generalize d.args = ys at hargs ⊢
  rcases h.fn.cases with ⟨b, h1, h2⟩ | ⟨d1, d2, h1, h2, -⟩
  · rw [h1, h2]
    cases hargs with
    | nil => rfl
    | cons hhead _ =>
      cases b with
      | deferred => exact hhead.display_eq
      | _ => rfl
  · rw [h1, h2] at hname ⊢
    exact hname

/-- Calls that are alike accept the same numbers of arguments. -/
theorem Call.Alike.checkCount_eq (n : Nat) : c.checkCount n = d.checkCount n := by
  unfold Call.checkCount
  rw [h.fn.arity?_eq, h.writeName_eq]

/-- Calls that are alike check as many arguments with the same result. -/
theorem Call.Alike.validate_eq (hlen : vs.length = us.length) : c.validate vs = d.validate us := by
  unfold Call.validate
  rcases h.fn.cases with ⟨b, h1, h2⟩ | ⟨d1, d2, h1, h2, -⟩
  · simp only [h1, h2, hlen, Call.fail_congr h.write_eq, h.checkCount_eq]
  · simp only [h1, h2, hlen, h.checkCount_eq]

end Counts

/-! ## Lists of arguments -/

section Lists

variable {R : Value → Value → Prop} {xs ys : List Value}

/-- Related lists have related items at each position, or none. -/
theorem forall₂_getElem? (h : List.Forall₂ R xs ys) (i : Nat) : Option.Rel R xs[i]? ys[i]? := by
  induction h generalizing i with
  | nil => exact .none
  | cons hv _ ih =>
    cases i with
    | zero => exact .some hv
    | succ i => exact ih i

/-- Related lists stay related when an item is replaced in both. -/
theorem forall₂_set (h : List.Forall₂ R xs ys) (i : Nat) {a b : Value} (hab : R a b) :
    List.Forall₂ R (xs.set i a) (ys.set i b) := by
  induction h generalizing i with
  | nil => exact .nil
  | cons hv h ih =>
    cases i with
    | zero => exact .cons hab h
    | succ i => exact .cons hv (ih i)

/-- Related lists stay related without their last items. -/
theorem forall₂_dropLast (h : List.Forall₂ R xs ys) : List.Forall₂ R xs.dropLast ys.dropLast := by
  rw [List.dropLast_eq_take, List.dropLast_eq_take, h.length_eq]
  exact List.forall₂_take _ h

/-- Related lists have related last items, or none. -/
theorem forall₂_getLast? (h : List.Forall₂ R xs ys) : Option.Rel R xs.getLast? ys.getLast? := by
  rw [List.getLast?_eq_getElem?, List.getLast?_eq_getElem?, h.length_eq]
  exact forall₂_getElem? h _

/-- Every other item of related lists is related. -/
theorem forall₂_everyOther (h : List.Forall₂ R xs ys) :
    List.Forall₂ R (everyOther xs) (everyOther ys) := by
  induction xs using everyOther.induct generalizing ys with
  | case1 =>
    cases h
    exact .nil
  | case2 a =>
    cases h with
    | cons ha h =>
      cases h
      exact .cons ha .nil
  | case3 a b rest ih =>
    cases h with
    | cons ha h =>
      cases h with
      | cons hb h => exact .cons ha (ih h)

end Lists

/-! ## Beginning -/

/-- Similar arguments are put into the same order. -/
theorem Call.Alike.sortArgs (h : c.Alike M d) (hargs : List.Forall₂ (Value.Similar M) vs us) :
    List.Forall₂ (Value.Similar M) (c.sortArgs vs) (d.sortArgs us) := by
  unfold Call.sortArgs
  rcases h.fn.cases with ⟨b, h1, h2⟩ | ⟨d1, d2, h1, h2, -⟩
  · rw [h1, h2]
    cases b with
    | choice =>
      have htail : List.Forall₂ (Value.Similar M) vs.tail us.tail := by
        cases hargs with
        | nil => exact .nil
        | cons _ h => exact h
      exact List.rel_append (forall₂_everyOther hargs) (forall₂_everyOther htail)
    | _ => exact hargs
  · rw [h1, h2]
    exact hargs

/-- Calls that are alike begin with similar arguments. -/
theorem Call.Alike.resolveArgs (h : c.Alike M d) (hs : Scope.Similar M scope scope')
    (hg : Scope.Similar M globals globals') :
    Agree (List.Forall₂ (Value.Similar M)) (c.resolveArgs scope globals)
      (d.resolveArgs scope' globals') := by
  unfold Call.resolveArgs Call.lookupArgs
  rcases (lookupAll_similar h.write_eq hs hg h.args).cases with
    ⟨e, h1, h2⟩ | ⟨xs, ys, h1, h2, hargs⟩
  · rw [h1, h2]
    exact .error e
  · rw [h1, h2]
    have hsort := h.sortArgs hargs
    dsimp only
    rw [h.fn.checksEarly_eq, h.validate_eq hsort.length_eq]
    split
    · cases d.validate (d.sortArgs ys) with
      | error e => exact .error e
      | ok u => exact .ok hsort
    · exact .ok hsort

/-- Calls that are alike do their work at the same position. -/
theorem Call.Alike.canPrepare_eq (h : c.Alike M d) (hlen : vs.length = us.length) (i : Int) :
    c.canPrepare vs i = d.canPrepare us i := by
  unfold Call.canPrepare
  rcases h.fn.cases with ⟨b, h1, h2⟩ | ⟨d1, d2, h1, h2, -⟩
  · simp only [h1, h2, hlen, h.args.length_eq]
  · simp only [h1, h2, hlen]

/-! ## The work of a function -/

/-- Similar results of the work of a function. -/
structure Prepared.Similar (M : Revision) (p q : Prepared) : Prop where
  call : p.call.Alike M q.call
  args : List.Forall₂ (Value.Similar M) p.args q.args
  scope : Scope.Similar M p.scope q.scope
  load : p.load = q.load

/-- Of similar conditions the same is the first that is true. -/
theorem zip_find?_similar {xs ys as bs : List Value} (hx : List.Forall₂ (Value.Similar M) xs ys)
    (ha : List.Forall₂ (Value.Similar M) as bs) :
    Option.Rel (fun p q => p.2.Similar M q.2) ((xs.zip as).find? (·.1.isTrue))
      ((ys.zip bs).find? (·.1.isTrue)) := by
  induction hx generalizing as bs with
  | nil => exact .none
  | @cons x y _ _ hxy _ ih =>
    cases ha with
    | nil => exact .none
    | @cons a b _ _ hab ha =>
      rw [List.zip_cons_cons, List.zip_cons_cons, List.find?_cons, List.find?_cons, hxy.isTrue_eq]
      cases y.isTrue with
      | true => exact .some hab
      | false => exact ih ha

/-- `cond` chooses similar actions. -/
theorem chooseAction_similar (h : List.Forall₂ (Value.Similar M) vs us) :
    List.Forall₂ (Value.Similar M) (Call.chooseAction vs) (Call.chooseAction us) := by
  unfold Call.chooseAction
  rw [h.length_eq]
  have hconditions := List.forall₂_take (us.length / 2) h
  have hfind := zip_find?_similar hconditions (List.forall₂_drop (us.length / 2) h)
  dsimp only
  generalize (List.zip _ _).find? _ = x at hfind ⊢
  generalize (List.zip _ _).find? _ = y at hfind ⊢
  cases hfind with
  | none => exact hconditions
  | some haction => exact List.rel_append hconditions (.cons haction .nil)

/-- `if` chooses similar branches. -/
theorem chooseBranch_similar (h : List.Forall₂ (Value.Similar M) vs us) :
    Agree (List.Forall₂ (Value.Similar M)) (Call.chooseBranch vs) (Call.chooseBranch us) := by
  cases h with
  | nil => exact .error _
  | @cons condition condition' _ _ hc h =>
    cases h with
    | nil =>
      rw [Call.chooseBranch, Call.chooseBranch, hc.isTrue_eq]
      split
      · exact .error _
      · exact .ok (.cons hc .nil)
    | cons hyes h =>
      unfold Call.chooseBranch
      have htrue := hc.isTrue_eq
      cases h with
      | nil =>
        dsimp only
        rw [htrue]
        cases condition'.isTrue with
        | true => exact .ok (.cons hc (.cons hyes .nil))
        | false => exact .ok (.cons hc .nil)
      | cons hno h =>
        cases h with
        | nil =>
          dsimp only
          rw [htrue]
          cases condition'.isTrue with
          | true => exact .ok (.cons hc (.cons hyes .nil))
          | false => exact .ok (.cons hc (.cons hno .nil))
        | cons _ _ =>
          dsimp only
          rw [htrue]
          cases condition'.isTrue with
          | true => exact .ok (.cons hc (.cons hyes .nil))
          | false => exact .ok (.cons hc .nil)

/-- A quote is taken off similar names alike. -/
theorem Value.Similar.bindingName (h : v.Similar M u) :
    (Call.bindingName v).Similar M (Call.bindingName u) := by
  cases h with
  | atom h =>
    cases v with
    | text s => exact .atom rfl
    | _ => exact .atom h
  | tuple h => exact .tuple h
  | list h => exact .list h
  | function h hnumber => exact .function h hnumber
  | call h => exact .call h

/-- `let` binds similar names to similar values. -/
theorem bindNames_similar (hs : Scope.Similar M scope scope')
    (h : List.Forall₂ (Value.Similar M) vs us) :
    Agree (Scope.Similar M) (Call.bindNames scope vs) (Call.bindNames scope' us) := by
  induction vs using everyOther.induct generalizing us scope scope' with
  | case1 =>
    cases h
    exact .ok hs
  | case2 a =>
    cases h with
    | cons _ h =>
      cases h
      exact .error _
  | case3 k x rest ih =>
    cases h with
    | cons hk h =>
      cases h with
      | cons hx h =>
        rw [Call.bindNames, Call.bindNames]
        rcases (hs.insert hk.bindingName hx).cases with ⟨e, h1, h2⟩ | ⟨s, t, h1, h2, hs'⟩
        · rw [h1, h2]
          exact .error e
        · rw [h1, h2]
          exact ih hs' h

/-- Similar parameters are bound to similar arguments alike. -/
theorem Call.Alike.bindParams (h : c.Alike M d) {params params' : List Value}
    (hparams : List.Forall₂ (Value.Similar M) params params') (i : Nat)
    (hs : Scope.Similar M scope scope') (hargs : List.Forall₂ (Value.Similar M) vs us) :
    Agree (fun p q => Scope.Similar M p.1 q.1 ∧ List.Forall₂ (Value.Similar M) p.2 q.2)
      (c.bindParams scope vs i params) (d.bindParams scope' us i params') := by
  have hrest : Value.Similar M Call.restName Call.restName := .atom rfl
  induction hparams generalizing i scope scope' vs us with
  | nil => exact .ok ⟨hs, hargs⟩
  | @cons param param' _ _ hparam _ ih =>
    rw [Call.bindParams, Call.bindParams, Value.Similar.equal_eq param hparam hrest]
    cases param'.equal Call.restName with
    | error e => exact .error e
    | ok rest =>
      cases rest with
      | true =>
        exact (hs.insert hrest (.tuple (List.forall₂_drop i hargs))).map fun _ _ h => ⟨h, hargs⟩
      | false =>
        dsimp only
        have harg := forall₂_getElem? hargs i
        generalize vs[i]? = x at harg ⊢
        generalize us[i]? = y at harg ⊢
        cases harg with
        | some hv =>
          dsimp only
          rcases (hs.insert hparam hv).cases with ⟨e, h1, h2⟩ | ⟨s, t, h1, h2, hs'⟩
          · rw [h1, h2]
            exact .error e
          · rw [h1, h2]
            exact ih (i + 1) hs' hargs
        | none =>
          have hmore : List.Forall₂ (Value.Similar M) (vs ++ [.none]) (us ++ [.none]) :=
            List.rel_append hargs (.cons (.atom rfl) .nil)
          dsimp only
          rw [h.validate_eq hmore.length_eq]
          cases d.validate (us ++ [.none]) with
          | error e => exact .error e
          | ok u => exact ih (i + 1) hs hmore

/-- The bodies of similar functions start in similar scopes. -/
theorem startScope_similar {d e : Definition} (h : d.Alike M e) :
    Agree (Scope.Similar M) (Call.startScope d) (Call.startScope e) := by
  unfold Call.startScope
  rw [h.variadic]
  split
  · exact h.captures.insert (k := Call.restName) (.atom rfl) (.tuple .nil)
  · exact .ok h.captures

/-- Similar functions set up their bodies alike. -/
theorem Call.Alike.prepareUser (h : c.Alike M d) {d1 d2 : Definition} (hd : d1.Alike M d2)
    (hargs : List.Forall₂ (Value.Similar M) vs us) :
    Agree (Prepared.Similar M) (c.prepareUser d1 vs) (d.prepareUser d2 us) := by
  unfold Call.prepareUser
  rcases (startScope_similar hd).cases with ⟨e, h1, h2⟩ | ⟨s, t, h1, h2, hs⟩
  · rw [h1, h2]
    exact .error e
  · rw [h1, h2]
    dsimp only
    rcases (h.bindParams hd.params 0 hs hargs).cases with
      ⟨e, h1, h2⟩ | ⟨⟨s, xs⟩, ⟨t, ys⟩, h1, h2, hs, hargs⟩
    · rw [h1, h2]
      exact .error e
    · rw [h1, h2]
      exact .ok ⟨h, List.rel_append hargs (.cons hd.body .nil), hs, rfl⟩

/-- The rest parameter stands at the same position in similar arguments. -/
theorem restPosition?_similar (h : List.Forall₂ (Value.Similar M) vs us) :
    restPosition? vs = restPosition? us := by
  induction h with
  | nil => rfl
  | @cons v u vs us hv _ ih =>
    cases hv with
    | atom hatom =>
      cases v with
      | text s => rfl
      | _ => simp only [restPosition?, ih]
    | _ => simp only [restPosition?, ih]

theorem hasRest_similar (h : List.Forall₂ (Value.Similar M) vs us) : hasRest vs = hasRest us := by
  unfold hasRest
  rw [restPosition?_similar h]

/-- Calls that begin with similar functions and similar arguments are alike. -/
theorem Call.Alike.begin {f g : Function} (h : f.Similar M g)
    (hargs : List.Forall₂ (Value.Similar M) vs us) :
    (Call.begin f vs).Alike M (Call.begin g us) :=
  ⟨h, hargs, rfl, rfl, .atom rfl⟩

/-- Calls of similar functions with similar arguments begin alike, or fail alike. -/
theorem Function.Similar.begin {f g : Function} (h : f.Similar M g)
    (hargs : List.Forall₂ (Value.Similar M) vs us) :
    Agree (Call.Alike M) (f.begin vs) (g.begin us) := by
  have hcall := Call.Alike.begin h hargs
  have hdefinition : Agree (Call.Alike M) (beginDefinition f vs) (beginDefinition g us) := by
    unfold beginDefinition
    rw [restPosition?_similar hargs, hargs.length_eq]
    cases restPosition? us with
    | error e => exact .error e
    | ok r =>
      cases r with
      | none => exact .ok hcall
      | some i =>
        dsimp only
        split
        · exact .ok hcall
        · exact .error _
  rcases h.cases with ⟨b, rfl, rfl⟩ | ⟨d1, d2, rfl, rfl, -⟩
  · cases b with
    | define => exact hdefinition
    | lambda => exact hdefinition
    | deferred =>
      cases hargs with
      | nil => exact .error _
      | cons _ _ => exact .ok hcall
    | _ => exact .ok hcall
  · exact .ok hcall

/-- The error of a deferred call whose head stands for a value that is no function. -/
def Call.headError (c : Call) (v : Value) : Error :=
  match (c.args.headD .none).display, (Call.bindingName v).kind, (Call.bindingName v).display,
    c.write with
  | .ok name, .ok kind, .ok shown, .ok call => .notFunction name kind shown call
  | _, _, _, _ => .tooManyDigits

/-- The function that a value found for the head of a call is. -/
def Call.asFunction (c : Call) : Value → Except Error Function
  | .function fn => .ok fn
  | v => .error (c.headError v)

/-- The head of a deferred call is looked up and taken for a function. -/
theorem Call.headFunction_eq (c : Call) (scope globals : Scope) (head : Value) :
    c.headFunction scope globals head =
      (lookup scope globals c head).bind fun p => c.asFunction p.2 := by
  unfold Call.headFunction
  split
  · rfl
  · generalize lookup scope globals c _ = r
    split
    · rfl
    · rfl
    · rename_i v hne
      have hv : c.asFunction v = .error (c.headError v) := by
        unfold Call.asFunction
        split
        · exact (hne _ rfl).elim
        · rfl
      rw [Except.bind, hv, Call.headError]
      dsimp only
      generalize (c.args.headD .none).display = name
      generalize (Call.bindingName v).kind = kind
      generalize (Call.bindingName v).display = shown
      generalize c.write = call
      cases name <;> cases kind <;> cases shown <;> cases call <;> rfl

/-- Similar values are taken for similar functions, or fail alike. -/
theorem Call.Alike.asFunction (h : c.Alike M d) (hv : v.Similar M u) (hvalue : v.isCall = false) :
    Agree (Function.Similar M) (c.asFunction v) (d.asFunction u) := by
  have hhead : (c.args.headD .none).display = (d.args.headD .none).display := by
    have hargs := h.args
    generalize c.args = xs at hargs ⊢
    generalize d.args = ys at hargs ⊢
    cases hargs with
    | nil => rfl
    | cons hhead _ => exact hhead.display_eq
  have hnamed : (Call.bindingName v).isCall = false := by
    cases v with
    | call c => cases hvalue
    | _ => rfl
  have herror : c.headError v = d.headError u := by
    unfold Call.headError
    rw [hhead, hv.bindingName.kind_eq hnamed, hv.bindingName.display_eq, h.write_eq]
  cases hv with
  | function hf _ => exact .ok hf
  | atom hatom =>
    cases v with
    | function f => cases hatom
    | _ =>
      unfold Call.asFunction
      dsimp only
      rw [herror]
      exact .error _
  | call hc => cases hvalue
  | _ =>
    unfold Call.asFunction
    dsimp only
    rw [herror]
    exact .error _

/-- The heads of deferred calls that are alike stand for similar functions. -/
theorem Call.Alike.headFunction (h : c.Alike M d) (hs : Scope.Similar M scope scope')
    (hg : Scope.Similar M globals globals') (hv : v.Similar M u)
    (hvalue : ∀ p, lookup scope globals c v = .ok p → p.2.isCall = false) :
    Agree (Function.Similar M) (c.headFunction scope globals v)
      (d.headFunction scope' globals' u) := by
  rw [Call.headFunction_eq, Call.headFunction_eq]
  rcases (lookup_similar h.write_eq hs hg hv).cases with ⟨e, h1, h2⟩ | ⟨p, q, h1, h2, -, hpq⟩
  · rw [h1, h2]
    exact .error e
  · rw [h1, h2]
    exact h.asFunction hpq (hvalue p h1)

/-- Deferred calls that are alike build calls that are alike. -/
theorem Call.Alike.prepareDeferred (h : c.Alike M d) (hs : Scope.Similar M scope scope')
    (hg : Scope.Similar M globals globals') (hargs : List.Forall₂ (Value.Similar M) vs us)
    (hvalue : ∀ head ∈ vs.head?, ∀ p, lookup scope globals c head = .ok p →
      p.2.isCall = false) :
    Agree (Prepared.Similar M) (c.prepareDeferred scope globals vs)
      (d.prepareDeferred scope' globals' us) := by
  cases hargs with
  | nil => exact .error _
  | @cons head head' vs us hhead hargs =>
    unfold Call.prepareDeferred
    dsimp only
    rcases (h.headFunction hs hg hhead (hvalue head rfl)).cases with
      ⟨e, h1, h2⟩ | ⟨f, g, h1, h2, hfg⟩
    · rw [h1, h2]
      exact .error e
    · rw [h1, h2]
      dsimp only
      rcases (hfg.begin hargs).cases with ⟨e, h1, h2⟩ | ⟨real, real', h1, h2, hreal⟩
      · rw [h1, h2]
        exact .error e
      · rw [h1, h2]
        exact .ok ⟨h, List.rel_append hargs (.cons (.call hreal.similar) .nil), hs, rfl⟩

/-- Definitions that are alike set similar bodies aside. -/
theorem Call.Alike.prepareDefinition (h : c.Alike M d) (hs : Scope.Similar M scope scope')
    (hargs : List.Forall₂ (Value.Similar M) vs us) :
    Agree (Prepared.Similar M) (c.prepareDefinition scope vs) (d.prepareDefinition scope' us) := by
  unfold Call.prepareDefinition
  have hlast := forall₂_getLast? hargs
  generalize vs.getLast? = x at hlast ⊢
  generalize us.getLast? = y at hlast ⊢
  cases hlast with
  | none => exact .error _
  | some hbody =>
    exact .ok ⟨⟨h.fn, h.args, h.resolved, h.prepared, hbody⟩, forall₂_dropLast hargs, hs, rfl⟩

/-- **The work of similar functions on similar arguments.** -/
theorem Call.Alike.prepare (h : c.Alike M d) (hs : Scope.Similar M scope scope')
    (hg : Scope.Similar M globals globals') (hargs : List.Forall₂ (Value.Similar M) vs us)
    (hvalue : c.fn = .builtin .deferred → ∀ head ∈ vs.head?, ∀ p,
      lookup scope globals c head = .ok p → p.2.isCall = false) :
    Agree (Prepared.Similar M) (c.prepare scope globals vs) (d.prepare scope' globals' us) := by
  unfold Call.prepare
  rcases h.fn.cases with ⟨b, h1, h2⟩ | ⟨d1, d2, h1, h2, hd⟩
  · rw [h1, h2]
    cases b with
    | choice => exact .ok ⟨h, chooseAction_similar hargs, hs, rfl⟩
    | branch => exact (chooseBranch_similar hargs).map fun _ _ hargs => ⟨h, hargs, hs, rfl⟩
    | binding =>
      exact (bindNames_similar hs (forall₂_dropLast hargs)).map
        fun _ _ hs => ⟨h, hargs, hs, rfl⟩
    | define => exact h.prepareDefinition hs hargs
    | lambda => exact h.prepareDefinition hs hargs
    | deferred => exact h.prepareDeferred hs hg hargs (hvalue h1)
    | undefined => exact .error _
    | load script =>
      cases hargs with
      | nil => exact .error _
      | @cons v u _ _ hv _ =>
        cases hv with
        | atom _ =>
          cases v with
          | text path => exact .ok ⟨h, .nil, hs, rfl⟩
          | _ => exact .error _
        | _ => exact .error _
    | _ => exact .ok ⟨h, hargs, hs, rfl⟩
  · rw [h1, h2]
    exact h.prepareUser hd hargs

end Similarity

end MiniLisp

import MiniLisp.Proofs.ArgumentValues

/-!
# Making functions

A definition sets its body aside and evaluates its other arguments: the first one, which is the
name of the function or, for an anonymous function, the names of the variables that it captures, and
the quoted parameters. The function that it makes has these parameters, this body, and the values
that the captured variables have at that time (`Defines.makes`).
-/

namespace MiniLisp

/-- A quoted name. -/
def quoted (n : String) : Value :=
  .symbol ("'" ++ n)

/-- The names that a definition gives as parameters, with that of the rest parameter. -/
def paramNames (names : List String) (variadic : Bool) : List String :=
  names ++ if variadic then ["*"] else []

/-- The call `c` defines a function with the parameters `names`, which are different from each other
and from the rest parameter, and with the body `body`. It has not begun. -/
structure Defines (c : Call) (first : Value) (names : List String) (variadic : Bool)
    (body : Value) : Prop where
  defining : c.fn.isDefining = true
  args : c.args = first :: ((paramNames names variadic).map quoted ++ [body])
  begun : c.fn.begin c.args = .ok c
  first_ne : first ≠ quoted "*"
  nodup : names.Nodup
  star : "*" ∉ names

/-- The variables that a definition captures, with their values. A function with a name captures
nothing. An anonymous one captures the variables whose names the value of its first argument
holds. -/
inductive Captures (files : Files) (scope : Scope) (w : World) (c : Call) (first : Value) :
    List String → List Value → Prop where
  | define (hc : c.fn = .builtin .define) : Captures files scope w c first [] []
  | lambda {captured : List String} {values : List Value} {v : Value} {w' : World}
      (hc : c.fn = .builtin .lambda) (hfirst : lookup scope w.globals c first = .ok (false, v))
      (hends : ArgEnds files scope w v ⟨w', .value (.tuple (captured.map Value.symbol))⟩)
      (hnames : ∀ n ∈ captured, isBareName n = true)
      (hvalues : captured.map (findVariable scope w'.globals · c) = values.map Except.ok) :
      Captures files scope w c first captured values

theorem Function.eq_of_isDefining {fn : Function} (h : fn.isDefining = true) :
    fn = .builtin .define ∨ fn = .builtin .lambda := by
  unfold Function.isDefining at h
  split at h
  · exact Or.inl rfl
  · exact Or.inr rfl
  · cases h

/-! ## The parameters as they are written -/

section Written

variable {scope globals : Scope} {c : Call} {first body : Value} {names : List String}
  {variadic : Bool} {args vs : List Value}

theorem toList_quoted (n : String) : ("'" ++ n).toList = '\'' :: n.toList := by
  rw [String.toList_append]
  rfl

theorem lookup_quoted (n : String) :
    lookup scope globals c (quoted n) = .ok (false, .symbol n) := by
  rw [quoted, lookup, toList_quoted]
  show Except.ok (false, Value.symbol (String.ofList n.toList)) = _
  rw [String.ofList_toList]

/-- Quoted names stand for the names. -/
theorem lookupAll_quoted :
    lookupAll scope globals c (names.map quoted ++ args) =
      (lookupAll scope globals c args).map (names.map Value.symbol ++ ·) := by
  induction names with
  | nil => cases h : lookupAll scope globals c args <;> simp [h, Except.map]
  | cons n names ih =>
    rw [List.map_cons, List.cons_append, lookupAll, lookup_quoted]
    dsimp only
    rw [ih]
    cases lookupAll scope globals c args <;> rfl

theorem map_symbol_paramNames :
    (paramNames names variadic).map Value.symbol =
      names.map Value.symbol ++ if variadic then [Call.restName] else [] := by
  cases variadic <;> simp [paramNames, Call.restName]

/-- The rest parameter is looked for behind names that are not its own. -/
theorem restPosition?_quoted (hstar : "*" ∉ names) :
    restPosition? (names.map quoted ++ args) =
      (restPosition? args).map (·.map (· + names.length)) := by
  induction names with
  | nil => cases h : restPosition? args <;> simp [h, Except.map]
  | cons n names ih =>
    rw [List.mem_cons, not_or] at hstar
    have hne : ("'" ++ n == "'*") = false := by
      refine beq_false_of_ne fun h => hstar.1 ?_
      have hlist : '\'' :: n.toList = '\'' :: "*".toList := by
        rw [← toList_quoted, h]
        rfl
      exact (String.toList_injective (List.cons.inj hlist).2).symm
    rw [List.map_cons, List.cons_append, quoted, restPosition?, hne, if_neg Bool.false_ne_true,
      ih hstar.2]
    cases restPosition? args with
    | error e => rfl
    | ok p => cases p <;> rfl

theorem restPosition?_singleton {i : Nat} (h : restPosition? [body] = .ok (some i)) : i = 0 := by
  cases body with
  | symbol s =>
    rw [restPosition?] at h
    split at h
    · cases h
      rfl
    · cases h
  | _ => cases h

theorem restPosition?_cons {p : Option Nat} (hne : first ≠ quoted "*")
    (h : restPosition? (first :: args) = .ok p) :
    ∃ q, restPosition? args = .ok q ∧ p = q.map (· + 1) := by
  have hcons : (restPosition? args).map (·.map (· + 1)) = .ok p := by
    cases first with
    | text s => cases h
    | symbol s =>
      have hs : (s == "'*") = false := beq_false_of_ne fun hs => hne (by rw [hs]; rfl)
      rw [restPosition?, hs, if_neg Bool.false_ne_true] at h
      exact h
    | _ => exact h
  obtain ⟨q, hq, rfl⟩ := map_eq_ok_iff.mp hcons
  exact ⟨q, hq, rfl⟩

/-- In a definition that can begin, the rest parameter comes right before the body. -/
theorem restPosition?_of_begin {fn : Function} (hfn : fn.isDefining = true)
    (h : fn.begin args = .ok c) :
    ∃ p, restPosition? args = .ok p ∧ ∀ i, p = some i → i + 2 = args.length := by
  have hbegin : beginDefinition fn args = .ok c := by
    rcases Function.eq_of_isDefining hfn with rfl | rfl
    · exact h
    · exact h
  unfold beginDefinition at hbegin
  split at hbegin
  · cases hbegin
  · rename_i hp
    exact ⟨none, hp, by simp⟩
  · rename_i i hp
    split at hbegin
    · rename_i hi
      refine ⟨some i, hp, ?_⟩
      rintro j ⟨⟩
      exact beq_iff_eq.mp hi
    · cases hbegin

/-- Whether a definition has the rest parameter can be told from its arguments. -/
theorem Defines.hasRest (h : Defines c first names variadic body) :
    hasRest c.args = variadic := by
  obtain ⟨p, hp, hlast⟩ := restPosition?_of_begin h.defining h.begun
  rw [MiniLisp.hasRest, hp]
  rw [h.args] at hp hlast
  obtain ⟨q, hq, rfl⟩ := restPosition?_cons h.first_ne hp
  cases variadic with
  | true =>
    have hrest : MiniLisp.restPosition? ([quoted "*"] ++ [body]) = .ok (some 0) := rfl
    rw [paramNames, if_pos rfl, List.map_append, List.append_assoc, List.map_singleton,
      restPosition?_quoted h.star, hrest] at hq
    cases hq
    rfl
  | false =>
    rw [paramNames, if_neg Bool.false_ne_true, List.append_nil] at hq hlast
    rw [restPosition?_quoted h.star] at hq
    obtain ⟨r, hr, rfl⟩ := map_eq_ok_iff.mp hq
    cases r with
    | none => rfl
    | some i =>
      -- a body in the place of the rest parameter comes too late
      cases restPosition?_singleton hr
      have hlen := hlast _ rfl
      simp only [List.length_cons, List.length_append, List.length_map, List.length_nil] at hlen
      omega

/-- What the arguments of a definition stand for. -/
theorem lookupAll_definition (hfirst : first.isStar = false) (hbody : body.isStar = false)
    (h : lookupAll scope globals c (first :: (names.map quoted ++ [body])) = .ok vs) :
    ∃ v b, lookup scope globals c first = .ok (false, v) ∧
      lookup scope globals c body = .ok (false, b) ∧
        vs = v :: (names.map Value.symbol ++ [b]) := by
  have hplain : ∀ {a : Value}, a.isStar = false →
      ∀ {v}, lookup scope globals c a ≠ .ok (true, v) := by
    intro a hstar v hlook
    rw [isStar_of_lookup hlook] at hstar
    cases hstar
  obtain ⟨front, rest, rfl, hrest, hfront⟩ := lookupAll_cons_iff.mp h
  rw [lookupAll_quoted] at hrest
  obtain ⟨last, hlast, rfl⟩ := map_eq_ok_iff.mp hrest
  obtain ⟨front', rest', rfl, hnil, hback⟩ := lookupAll_cons_iff.mp hlast
  cases hnil
  rcases hfront with ⟨v, hv, rfl⟩ | ⟨v, hv, -⟩
  · rcases hback with ⟨b, hb, rfl⟩ | ⟨b, hb, -⟩
    · exact ⟨v, b, hv, hb, rfl⟩
    · exact absurd hb (hplain hbody)
  · exact absurd hv (hplain hfirst)

theorem Defines.lookupArgs (h : Defines c first names variadic body)
    (hstars : ∀ a ∈ c.args, a.isStar = false) (hl : c.lookupArgs scope globals = .ok vs) :
    ∃ v b, lookup scope globals c first = .ok (false, v) ∧
      lookup scope globals c body = .ok (false, b) ∧
        vs = v :: ((paramNames names variadic).map Value.symbol ++ [b]) := by
  unfold Call.lookupArgs at hl
  rw [h.args] at hl hstars
  exact lookupAll_definition (hstars first (by simp)) (hstars body (by simp)) hl

end Written

/-! ## Running a definition -/

/-- The call that has set aside its body. -/
def Call.withBody (c : Call) (body : Value) : Call :=
  { c with body := body }

section Run

variable {files : Files} {scope : Scope} {c : Call} {first body v : Value} {names : List String}
  {variadic : Bool} {w w' : World} {args vs : List Value} {o : Outcome}

/-- A call that ends with a value has applied its function. -/
theorem Call.apply_of_conclude (h : c.conclude w scope args = ⟨w', .value v⟩) :
    c.apply w scope args = (w', .ok v) := by
  unfold Call.conclude at h
  split at h
  · cases h
  · generalize c.apply w scope args = r at h ⊢
    obtain ⟨w'', e | u⟩ := r
    · cases h
    · cases h
      rfl

theorem Call.prepare_defining (hc : c.fn.isDefining = true) {globals : Scope} {b : Value} :
    c.prepare scope globals (vs ++ [b]) = .ok ⟨c.withBody b, vs, scope, none⟩ := by
  have hprep : c.prepare scope globals (vs ++ [b]) = c.prepareDefinition scope (vs ++ [b]) := by
    unfold Call.prepare
    rcases Function.eq_of_isDefining hc with hfn | hfn <;> rw [hfn]
  rw [hprep, Call.prepareDefinition, List.getLast?_concat]
  dsimp only
  rw [List.dropLast_concat]
  rfl

/-- A definition evaluates all its arguments but the body, and applies its function to them. -/
theorem ends_defining_iff {b : Value} (hc : c.fn.isDefining = true)
    (hfresh : c.resolved = false ∧ c.prepared = false)
    (hres : c.resolveArgs scope w.globals = .ok (vs ++ [b]))
    (hy : EachYields files scope (fun _ v => v.isCall = false) w vs) :
    Ends files w (.start c scope) o ↔
      AfterArgs files scope w vs (fun w us o => o = (c.withBody b).conclude w scope us) o := by
  have hready : c.canPrepare (vs ++ [b]) (-1) = true := by
    unfold Call.canPrepare
    rcases Function.eq_of_isDefining hc with hfn | hfn <;> rw [hfn]
  have hdeferred : (c.withBody b).isDeferred = false := by
    unfold Call.isDeferred Call.withBody
    dsimp only
    rcases Function.eq_of_isDefining hc with hfn | hfn <;> rw [hfn]
  have hstep : step files w (.start c scope) =
      Frame.prepare files w ⟨c.mark true false, vs ++ [b], 0, scope⟩ [] :=
    step_start_ready hfresh.1 hfresh.2 hres hready
  refine (ends_prepare_ok_iff hstep (Call.prepare_defining hc) rfl).trans ?_
  exact ends_frame_rest_iff hdeferred hy

/-- What a definition makes of its evaluated arguments. -/
theorem Call.apply_defining {u : Value} (hc : c.fn.isDefining = true)
    (h : c.apply w scope (u :: vs) = (w', .ok v)) :
    ∃ id name captures,
      v = .function (.user ⟨id, name, vs, MiniLisp.hasRest c.args, c.body, captures⟩) ∧
        (c.fn = .builtin .define → captures = []) ∧
          (c.fn = .builtin .lambda → ∃ items, u.items? = some items ∧
            capture scope w.globals c [] items = .ok captures) := by
  have hdefine : ∀ {name : Value} {captures : Scope},
      c.applyDefine w captures (name :: vs) = (w', .ok v) →
        ∃ id name,
          v = .function (.user ⟨id, name, vs, MiniLisp.hasRest c.args, c.body, captures⟩) := by
    intro name captures h
    rcases Call.applyDefine_cases h with ⟨-, e, he⟩ | ⟨_, _, hargs, h⟩
    · cases he
    · cases hargs
      rcases World.define_cases h with ⟨-, e, he⟩ | ⟨globals, -, -, hv⟩
      · cases he
      · cases hv
        exact ⟨_, _, rfl⟩
  rcases Function.eq_of_isDefining hc with hfn | hfn
  · have happly : c.apply w scope (u :: vs) = c.applyDefine w [] (u :: vs) := by
      rw [Call.apply, hfn]
    obtain ⟨id, name, hv⟩ := hdefine (happly.symm.trans h)
    refine ⟨id, name, [], hv, fun _ => rfl, fun hlambda => ?_⟩
    cases hfn.symm.trans hlambda
  · have happly : c.apply w scope (u :: vs) = c.applyLambda w scope (u :: vs) := by
      rw [Call.apply, hfn]
    rcases Call.applyLambda_cases (happly.symm.trans h) with
      ⟨-, e, he⟩ | ⟨_, _, items, captures, hargs, hitems, hcapture, hl⟩
    · cases he
    · cases hargs
      obtain ⟨id, name, hv⟩ := hdefine hl
      refine ⟨id, name, captures, hv, fun hnamed => ?_, fun _ => ⟨items, hitems, hcapture⟩⟩
      cases hfn.symm.trans hnamed

/-- A name that has the same value all over. -/
theorem find?_bindings_of_value {g : String → Except Error Value} {n : String} {u : Value}
    {t : Scope} (hvs : names.map g = vs.map Except.ok) (hn : g n = .ok u)
    (ht : t.find? (.symbol n) = .ok (some u)) :
    Scope.find? (bindings names vs ++ t) (.symbol n) = .ok (some u) := by
  induction names generalizing vs with
  | nil => exact ht
  | cons m names ih =>
    cases vs with
    | nil => cases hvs
    | cons v vs =>
      rw [List.map_cons, List.map_cons, List.cons.injEq] at hvs
      have hcons : bindings (m :: names) (v :: vs) = (.symbol m, v) :: bindings names vs := rfl
      rw [hcons, List.cons_append, Scope.find?_symbol_cons]
      by_cases hm : n = m
      · rw [if_pos hm]
        rw [← hm, hn] at hvs
        cases hvs.1
        rfl
      · rw [if_neg hm]
        exact ih hvs.2

/-- Capturing variables binds their names to their values. -/
theorem find?_capture {globals captures captures' : Scope} {e : Call}
    (hnames : ∀ n ∈ names, isBareName n = true)
    (hvs : names.map (findVariable scope globals · e) = vs.map Except.ok)
    (hs : captures.IsNamed)
    (h : capture scope globals c captures (names.map Value.symbol) = .ok captures') :
    captures'.IsNamed ∧ ∀ m, captures'.find? (.symbol m) =
      Scope.find? (bindings names vs ++ captures) (.symbol m) := by
  induction names generalizing vs captures with
  | nil =>
    cases h
    exact ⟨hs, fun m => rfl⟩
  | cons n names ih =>
    cases vs with
    | nil => cases hvs
    | cons u vs =>
      rw [List.map_cons, List.map_cons, List.cons.injEq] at hvs
      have hlookup : lookup scope globals c (.symbol n) = .ok (false, u) := by
        rw [lookup_of_isBareName (hnames n List.mem_cons_self), findVariable_ok_congr hvs.1]
        rfl
      obtain ⟨s, hinsert, hnamed, hfind⟩ := hs.insert n u
      rw [List.map_cons, capture, hlookup] at h
      dsimp only at h
      rw [hinsert] at h
      dsimp only at h
      rw [if_neg Bool.false_ne_true] at h
      obtain ⟨hnamed', hfind'⟩ :=
        ih (fun m hm => hnames m (List.mem_cons_of_mem n hm)) hvs.2 hnamed h
      refine ⟨hnamed', fun m => ?_⟩
      have hcons : bindings (n :: names) (u :: vs) = (.symbol n, u) :: bindings names vs := rfl
      rw [hfind', hcons, List.cons_append, Scope.find?_symbol_cons]
      by_cases hm : m = n
      · rw [if_pos hm, hm]
        refine find?_bindings_of_value hvs.2 hvs.1 ?_
        rw [hfind, Scope.find?_symbol_cons, if_pos rfl]
      · rw [if_neg hm]
        refine Scope.find?_append_congr ?_
        rw [hfind, Scope.find?_symbol_cons, if_neg hm]

theorem Defines.isProper (h : Defines c first names variadic body)
    (hsite : CallSite scope w c.args) : c.isProper = true := by
  have hfn : c.fn.isProper = true := by
    rcases Function.eq_of_isDefining h.defining with hfn | hfn <;> rw [hfn] <;> rfl
  rw [Function.eq_of_begin h.begun]
  exact Call.begin_proper hfn hsite.proper

/-- The body that a definition sets aside has not begun. -/
theorem Defines.fresh {b : Value} (h : Defines c first names variadic body)
    (hsite : CallSite scope w c.args) (hb : lookup scope w.globals c body = .ok (false, b)) :
    ∀ e, b = .call e → e.resolved = false := by
  have hmem : body ∈ c.args := by
    rw [h.args]
    simp
  rintro e rfl
  rcases isProper_kind.lookup (Scope.isProper_iff.mp hsite.locals)
    (Scope.isProper_iff.mp hsite.globals) (hsite.proper body hmem) hb with hv | ⟨-, hv, -⟩
  · cases isProper_kind.value hv
  · exact hsite.fresh e (hv ▸ hmem)

/-- The arguments that a definition starts with: what the first one stands for, the parameters, and
the body. -/
theorem Defines.resolveArgs (h : Defines c first names variadic body)
    (hsite : CallSite scope w c.args) (hends : Ends files w (.start c scope) ⟨w', .value v⟩) :
    ∃ u b, lookup scope w.globals c first = .ok (false, u) ∧
      lookup scope w.globals c body = .ok (false, b) ∧
        c.lookupArgs scope w.globals =
          .ok (u :: (paramNames names variadic).map Value.symbol ++ [b]) ∧
        c.resolveArgs scope w.globals =
          .ok (u :: (paramNames names variadic).map Value.symbol ++ [b]) := by
  cases hres : c.resolveArgs scope w.globals with
  | error e =>
    have hfresh : c.resolved = false := by
      rw [Function.eq_of_begin h.begun]
      rfl
    cases (ends_halt_iff (step_start_error hfresh hres)).mp hends
  | ok args =>
    obtain ⟨vs, hl, rfl, -⟩ := Call.resolveArgs_spec hres
    have hsort : c.sortArgs vs = vs := by
      unfold Call.sortArgs
      rcases Function.eq_of_isDefining h.defining with hfn | hfn <;> rw [hfn]
    obtain ⟨u, b, hu, hb, rfl⟩ := h.lookupArgs hsite.stars hl
    rw [hsort]
    exact ⟨u, b, hu, hb, hl, rfl⟩

/-- **The function that a definition makes** has the parameters and the body of the definition and
the values of the captured variables. -/
theorem Defines.makes {captured : List String} {values : List Value}
    (h : Defines c first names variadic body) (hsite : CallSite scope w c.args)
    (hcap : Captures files scope w c first captured values)
    (hends : Ends files w (.start c scope) ⟨w', .value v⟩) :
    ∃ d : Definition, v = .function (.user d) ∧
      lookup scope w.globals c body = .ok (false, d.body) ∧ d.variadic = variadic ∧ d.Sound ∧
        d.Takes names ∧ ∀ m, Scope.find? d.captures (.symbol m) =
          Scope.find? (bindings captured values) (.symbol m) := by
  obtain ⟨u, b, hu, hb, hl, hres⟩ := h.resolveArgs hsite hends
  have hy : EachYields files scope (fun w v => w.IsProper ∧ v.isProper false = true) w
      (u :: (paramNames names variadic).map Value.symbol) :=
    (hsite.looked hl).eachYields.of_append
  have hproper : v.isProper false = true :=
    (hends.proper hsite.globals (State.start_proper (h.isProper hsite) hsite.locals)).2 v rfl
  have hfresh : c.resolved = false ∧ c.prepared = false := by
    rw [Function.eq_of_begin h.begun]
    exact ⟨rfl, rfl⟩
  rw [ends_defining_iff h.defining hfresh hres
    (hy.mono fun _ v hv => isProper_kind.value hv.2)] at hends
  -- only the first argument has to be evaluated
  obtain ⟨w₁, us, hus, hconclude⟩ := hends.argsEnd
  cases hus with
  | cons hfirst hparams =>
    rename_i w₂ u' us
    have hsymbols : ∀ p ∈ (paramNames names variadic).map Value.symbol, p.isCall = false := by
      intro p hp
      obtain ⟨n, -, rfl⟩ := List.mem_map.mp hp
      rfl
    obtain ⟨rfl, rfl⟩ := (argsEnd_values hsymbols).mp hparams
    have happly := Call.apply_of_conclude hconclude.symm
    obtain ⟨id, name, captures, rfl, hdefine, hlambda⟩ :=
      Call.apply_defining (c := c.withBody b) h.defining happly
    have hcaptures : Scope.IsNamed captures ∧ ∀ m, Scope.find? captures (.symbol m) =
        Scope.find? (bindings captured values) (.symbol m) := by
      cases hcap with
      | define hc =>
        rw [hdefine hc]
        exact ⟨by simp [Scope.IsNamed], fun m => rfl⟩
      | lambda hc hfirst' hends' hnames hvalues =>
        cases hu.symm.trans hfirst'
        cases hfirst.unique hends'
        obtain ⟨items, hitems, hcapture⟩ := hlambda hc
        cases hitems
        have hfind := find?_capture hnames hvalues (by simp [Scope.IsNamed]) hcapture
        rw [List.append_nil] at hfind
        exact hfind
    refine ⟨_, rfl, hb, h.hasRest, ⟨hproper, h.fresh hsite hb⟩,
      ⟨⟨?_, h.star, hcaptures.1⟩, h.nodup⟩, hcaptures.2⟩
    have hrest : MiniLisp.hasRest (c.withBody b).args = variadic := h.hasRest
    rw [hrest]
    exact map_symbol_paramNames

end Run

end MiniLisp

import MiniLisp.Proofs.Bodies

/-!
# The scope of a body

The body of a function runs in the scope of its parameters: each parameter has the value of its
argument, the rest parameter has the other values, and behind these come the captured values
(`Definition.Takes.find?_bodyScope`). If the number of the values is right the outcome of the call
is that of the body (`Definition.Takes.runs_iff`).
-/

namespace MiniLisp

/-! ## Scopes of names -/

/-- Bindings of names to values. -/
def bindings (names : List String) (us : List Value) : Scope :=
  (names.zip us).map fun e => (.symbol e.1, e.2)

namespace Scope

variable {s s' : Scope} {n m : String} {k v : Value}

/-- All keys of a scope are symbols. -/
def IsNamed (s : Scope) : Prop :=
  ∀ e ∈ s, ∃ n, e.1 = .symbol n

theorem isNamed_nil : IsNamed [] := by
  rintro _ ⟨⟩

/-- Symbols are keys of their own. -/
theorem isKey_symbol (n m : String) : Value.isKey (.symbol n) (.symbol m) = .ok (m == n) := by
  have hhash : (Value.symbol m).sameHash (.symbol n) = (m == n) := rfl
  have hequal : (Value.symbol m).equal (.symbol n) = .ok (m == n) := rfl
  rw [Value.isKey, hhash, hequal]
  cases m == n <;> rfl

theorem find?_symbol_cons :
    find? ((.symbol n, v) :: s) (.symbol m) =
      if m = n then .ok (some v) else s.find? (.symbol m) := by
  rw [find?, isKey_symbol]
  by_cases h : m = n
  · rw [if_pos h, beq_iff_eq.mpr h]
  · rw [if_neg h, beq_false_of_ne h]

/-- The symbol of a name is no other key. -/
theorem eq_of_isKey_symbol (h : Value.isKey k (.symbol n) = .ok true) : k = .symbol n := by
  unfold Value.isKey at h
  split at h
  · cases k with
    | symbol m =>
      have heq : (Value.symbol n).equal (.symbol m) = .ok (n == m) := rfl
      rw [heq] at h
      have hnm : (n == m) = true := Except.ok.inj h
      rw [eq_of_beq hnm]
    | _ => cases h
  · cases h

theorem find?_put (h : s.put (.symbol n) v = .ok s') :
    s'.find? (.symbol m) = if m = n then .ok (some v) else s.find? (.symbol m) := by
  induction s generalizing s' with
  | nil =>
    cases h
    rw [find?_symbol_cons]
  | cons e s ih =>
    obtain ⟨k, u⟩ := e
    rcases put_cons h with ⟨hk, rfl⟩ | ⟨rest, hk, hput, rfl⟩
    · rw [eq_of_isKey_symbol hk, find?_symbol_cons, find?_symbol_cons]
      by_cases hm : m = n
      · rw [if_pos hm, if_pos hm]
      · rw [if_neg hm, if_neg hm, if_neg hm]
    · by_cases hm : m = n
      · subst hm
        rw [find?, hk]
        dsimp only
        rw [ih hput, if_pos rfl, if_pos rfl]
      · rw [find?, find?, ih hput, if_neg hm, if_neg hm]

/-- What comes first counts. -/
theorem find?_append_congr {t t' : Scope} (h : t.find? k = t'.find? k) :
    find? (s ++ t) k = find? (s ++ t') k := by
  induction s with
  | nil => exact h
  | cons e s ih =>
    obtain ⟨k', v'⟩ := e
    rw [List.cons_append, List.cons_append, find?, find?]
    cases Value.isKey k' k with
    | error e => rfl
    | ok b => cases b with
      | true => rfl
      | false => exact ih

/-- Only a text with the same characters cannot be told from a name. -/
theorem exists_isKey_symbol (h : k ≠ .text n) : ∃ b, Value.isKey k (.symbol n) = .ok b := by
  unfold Value.isKey
  split
  · rename_i hhash
    cases k with
    | text m =>
      have hsame : (n == m) = true := hhash
      exact absurd (by rw [eq_of_beq hsame]) h
    | _ => exact ⟨_, rfl⟩
  · exact ⟨false, rfl⟩

/-- A name can be bound if no text with its characters is a key. -/
theorem exists_put (h : ∀ e ∈ s, e.1 ≠ .text n) :
    ∃ s', s.put (.symbol n) v = .ok s' ∧ ∀ e ∈ s', e.1 = .symbol n ∨ ∃ e' ∈ s, e.1 = e'.1 := by
  induction s with
  | nil => exact ⟨[(.symbol n, v)], rfl, by simp⟩
  | cons e s ih =>
    obtain ⟨k, u⟩ := e
    rw [List.forall_mem_cons] at h
    obtain ⟨b, hb⟩ := exists_isKey_symbol h.1
    rw [put, hb]
    cases b with
    | true =>
      refine ⟨(k, v) :: s, rfl, List.forall_mem_cons.mpr ⟨.inr ⟨(k, u), by simp, rfl⟩, ?_⟩⟩
      exact fun e he => .inr ⟨e, List.mem_cons_of_mem _ he, rfl⟩
    | false =>
      obtain ⟨s', hs', hkeys⟩ := ih h.2
      refine ⟨(k, u) :: s', by rw [hs']; rfl, ?_⟩
      refine List.forall_mem_cons.mpr ⟨.inr ⟨(k, u), by simp, rfl⟩, fun e he => ?_⟩
      rcases hkeys e he with hname | ⟨e', he', hkey⟩
      · exact .inl hname
      · exact .inr ⟨e', List.mem_cons_of_mem _ he', hkey⟩

/-- Binding a name in a scope of names. -/
theorem IsNamed.insert (hs : s.IsNamed) (n : String) (v : Value) :
    ∃ s', s.insert (.symbol n) v = .ok s' ∧ s'.IsNamed ∧
      ∀ m, s'.find? (.symbol m) = find? ((.symbol n, v) :: s) (.symbol m) := by
  have htext : ∀ e ∈ s, e.1 ≠ .text n := by
    intro e he hkey
    obtain ⟨name, hname⟩ := hs e he
    cases hname.symm.trans hkey
  obtain ⟨s', hput, hkeys⟩ := exists_put (v := v) htext
  refine ⟨s', hput, fun e he => ?_, fun m => ?_⟩
  · rcases hkeys e he with hname | ⟨e', he', hkey⟩
    · exact ⟨n, hname⟩
    · rw [hkey]
      exact hs e' he'
  · rw [find?_put hput, find?_symbol_cons]

end Scope

theorem find?_bindings_append {names : List String} {us : List Value} {t : Scope} {m : String}
    (h : m ∉ names) : Scope.find? (bindings names us ++ t) (.symbol m) = t.find? (.symbol m) := by
  induction names generalizing us with
  | nil => rfl
  | cons n names ih =>
    rw [List.mem_cons, not_or] at h
    cases us with
    | nil => rfl
    | cons u us =>
      have hcons : bindings (n :: names) (u :: us) = (.symbol n, u) :: bindings names us := rfl
      rw [hcons, List.cons_append, Scope.find?_symbol_cons, if_neg h.1]
      exact ih h.2

theorem find?_bindings {names : List String} {us : List Value} {t : Scope} {i : Nat} {n : String}
    {u : Value} (hnodup : names.Nodup) (hn : names[i]? = some n) (hu : us[i]? = some u) :
    Scope.find? (bindings names us ++ t) (.symbol n) = .ok (some u) := by
  induction names generalizing us i with
  | nil => cases hn
  | cons m names ih =>
    rw [List.nodup_cons] at hnodup
    cases us with
    | nil => cases hu
    | cons v us =>
      have hcons : bindings (m :: names) (v :: us) = (.symbol m, v) :: bindings names us := rfl
      rw [hcons, List.cons_append, Scope.find?_symbol_cons]
      cases i with
      | zero =>
        cases hn
        cases hu
        rw [if_pos rfl]
      | succ i =>
        rw [List.getElem?_cons_succ] at hn hu
        have hne : n ≠ m := by
          rintro rfl
          exact hnodup.1 (List.mem_of_getElem? hn)
        rw [if_neg hne]
        exact ih hnodup.2 hn hu

/-! ## Parameters -/

/-- The parameters of a function are `names`, none of which is the rest parameter, and the rest
parameter if it is variadic. The variables that it captured have names. -/
structure Definition.HasParams (d : Definition) (names : List String) : Prop where
  params : d.params = names.map Value.symbol ++ if d.variadic then [Call.restName] else []
  star : "*" ∉ names
  captures : Scope.IsNamed d.captures

/-- A function takes the parameters `names`: these are its parameters, and no two of them are the
same. -/
structure Definition.Takes (d : Definition) (names : List String) : Prop
    extends d.HasParams names where
  nodup : names.Nodup

/-- Whether `m` arguments are right for a function with `n` parameters. -/
def RightCount (variadic : Bool) (n m : Nat) : Prop :=
  m = n ∨ variadic = true ∧ n ≤ m

/-- The scope in which the body of a function runs with some values. -/
def Definition.bodyScope (d : Definition) (us : List Value) : Scope :=
  match (Call.begin (.user d) us).prepareUser d us with
  | .ok p => p.scope
  | .error _ => []

/-- The entries of the scope that a function gives to its body; the first of a name counts. These
are the rest of the values, the parameters, and what the function captured. -/
def bodyEntries (names : List String) (variadic : Bool) (captures : Scope) (us : List Value) :
    Scope :=
  (if variadic then [(Call.restName, .tuple (us.drop names.length))] else []) ++
    (bindings names us ++ captures)

section Parameters

variable {c : Call} {d : Definition} {names : List String} {us : List Value}

theorem equal_restName_of_ne {n : String} (h : n ≠ "*") :
    (Value.symbol n).equal Call.restName = .ok false := by
  have hequal : (Value.symbol n).equal Call.restName = .ok (n == "*") := rfl
  rw [hequal, beq_false_of_ne h]

/-- Binding parameters to as many values or more. -/
theorem Call.bindParams_names {scope : Scope} {i : Nat} (rest : List Value) (hs : scope.IsNamed)
    (hnodup : names.Nodup) (hstar : "*" ∉ names) (hlen : i + names.length ≤ us.length) :
    ∃ scope' : Scope, scope'.IsNamed ∧
      (∀ m, scope'.find? (.symbol m) =
        Scope.find? (bindings names (us.drop i) ++ scope) (.symbol m)) ∧
        c.bindParams scope us i (names.map Value.symbol ++ rest) =
          c.bindParams scope' us (i + names.length) rest := by
  induction names generalizing scope i with
  | nil => exact ⟨scope, hs, fun m => rfl, rfl⟩
  | cons n names ih =>
    rw [List.nodup_cons] at hnodup
    rw [List.mem_cons, not_or] at hstar
    rw [List.length_cons] at hlen
    have hi : i < us.length := by omega
    obtain ⟨s1, hinsert, hs1, hfind1⟩ := hs.insert n us[i]
    obtain ⟨scope', hnamed, hfind, hbind⟩ :=
      @ih s1 (i + 1) hs1 hnodup.2 hstar.2 (by omega)
    refine ⟨scope', hnamed, fun m => ?_, ?_⟩
    · have hcons : bindings (n :: names) (us.drop i) =
          (.symbol n, us[i]) :: bindings names (us.drop (i + 1)) := by
        rw [List.drop_eq_getElem_cons hi]
        rfl
      rw [hfind, hcons, List.cons_append, Scope.find?_symbol_cons]
      -- a parameter is bound only once, so that binding the others does not change it
      by_cases hm : m = n
      · rw [if_pos hm, hm, find?_bindings_append hnodup.1, hfind1, Scope.find?_symbol_cons,
          if_pos rfl]
      · rw [if_neg hm]
        refine Scope.find?_append_congr ?_
        rw [hfind1, Scope.find?_symbol_cons, if_neg hm]
    · rw [List.map_cons, List.cons_append, Call.bindParams,
        equal_restName_of_ne fun h => hstar.1 h.symm]
      dsimp only
      rw [List.getElem?_eq_getElem hi]
      dsimp only
      rw [hinsert]
      dsimp only
      rw [hbind, List.length_cons, Nat.add_right_comm, Nat.add_assoc]

theorem Call.bindParams_rest {scope : Scope} {i : Nat} :
    c.bindParams scope us i [Call.restName] =
      (scope.insert Call.restName (.tuple (us.drop i))).map (·, us) := by
  have hequal : Call.restName.equal Call.restName = .ok true := rfl
  rw [Call.bindParams, hequal]

/-- Preparing a call with the right number of values. -/
theorem Definition.Takes.prepareUser (hd : d.Takes names)
    (hcount : RightCount d.variadic names.length us.length) :
    ∃ scope : Scope, (Call.begin (.user d) us).prepareUser d us =
        .ok ⟨.begin (.user d) us, us ++ [d.body], scope, none⟩ ∧ scope.IsNamed ∧
      ∀ m, scope.find? (.symbol m) =
        (bodyEntries names d.variadic d.captures us).find? (.symbol m) := by
  have hlen : 0 + names.length ≤ us.length := by
    rcases hcount with h | ⟨-, h⟩ <;> omega
  unfold Call.prepareUser Call.startScope bodyEntries
  rw [hd.params]
  cases hv : d.variadic with
  | false =>
    obtain ⟨scope, hnamed, hfind, hbind⟩ :=
      @Call.bindParams_names (.begin (.user d) us) names us d.captures 0 [] hd.captures hd.nodup
        hd.star hlen
    refine ⟨scope, ?_, hnamed, hfind⟩
    simp only [Bool.false_eq_true, if_false]
    rw [hbind]
    rfl
  | true =>
    obtain ⟨start, hstart, hs, hfind0⟩ := hd.captures.insert "*" (.tuple [])
    obtain ⟨inner, hinner, hfind1, hbind⟩ :=
      @Call.bindParams_names (.begin (.user d) us) names us start 0 [Call.restName] hs hd.nodup
        hd.star hlen
    obtain ⟨scope, hinsert, hnamed, hfind⟩ :=
      hinner.insert "*" (.tuple (us.drop (0 + names.length)))
    refine ⟨scope, ?_, hnamed, fun m => ?_⟩
    · change Scope.insert d.captures Call.restName _ = _ at hstart
      change inner.insert Call.restName _ = _ at hinsert
      simp only [if_true]
      rw [hstart]
      dsimp only
      rw [hbind, Call.bindParams_rest, hinsert]
      rfl
    · rw [hfind, Nat.zero_add]
      show _ = Scope.find? ((.symbol "*", _) :: (bindings names us ++ d.captures)) (.symbol m)
      rw [Scope.find?_symbol_cons, Scope.find?_symbol_cons]
      by_cases hm : m = "*"
      · rw [if_pos hm, if_pos hm]
      · rw [if_neg hm, if_neg hm, hfind1]
        refine Scope.find?_append_congr ?_
        rw [hfind0, Scope.find?_symbol_cons, if_neg hm]

/-- **The scope of a body** gives the parameters their values, the rest parameter the other values,
and has what the function captured behind these. -/
theorem Definition.Takes.find?_bodyScope (hd : d.Takes names)
    (hcount : RightCount d.variadic names.length us.length) :
    (d.bodyScope us).IsNamed ∧
      ∀ m, (d.bodyScope us).find? (.symbol m) =
        (bodyEntries names d.variadic d.captures us).find? (.symbol m) := by
  obtain ⟨scope, hp, hscope⟩ := hd.prepareUser hcount
  rw [Definition.bodyScope, hp]
  exact hscope

/-- Each parameter has the value at its place. -/
theorem Definition.Takes.find?_param {i : Nat} {p : String} {u : Value} (hd : d.Takes names)
    (hcount : RightCount d.variadic names.length us.length) (hp : names[i]? = some p)
    (hu : us[i]? = some u) : (d.bodyScope us).find? (.symbol p) = .ok (some u) := by
  have hne : p ≠ "*" := by
    rintro rfl
    exact hd.star (List.mem_of_getElem? hp)
  rw [(hd.find?_bodyScope hcount).2, bodyEntries]
  cases d.variadic with
  | false => exact find?_bindings hd.nodup hp hu
  | true =>
    show Scope.find? ((.symbol "*", _) :: (bindings names us ++ d.captures)) (.symbol p) = _
    rw [Scope.find?_symbol_cons, if_neg hne]
    exact find?_bindings hd.nodup hp hu

/-- A right number of values passes the check of a call. -/
theorem Definition.Takes.validate (hd : d.Takes names) (v : Value)
    (hcount : RightCount d.variadic names.length us.length) :
    (Call.begin (.user d) us).validate (us ++ [v]) = .ok () := by
  have haccepts : d.arity.accepts us.length = true := by
    unfold Definition.arity Arity.accepts
    rw [hd.params]
    cases hv : d.variadic with
    | false =>
      have hlen : us.length = names.length := by simpa [RightCount, hv] using hcount
      simp [hlen]
    | true =>
      have hlen : names.length ≤ us.length := by
        rcases hcount with h | ⟨-, h⟩ <;> omega
      simpa using hlen
  have hlen : (us ++ [v]).length - 1 = us.length := by simp
  show (Call.begin (.user d) us).checkCount ((us ++ [v]).length - 1) = .ok ()
  have harity : (Call.begin (.user d) us).fn.arity? = some d.arity := rfl
  rw [hlen, Call.checkCount, harity]
  dsimp only
  rw [if_pos haccepts]

/-- A function that gets the right number of values comes to what its body does. -/
theorem Definition.Takes.runs_iff {files : Files} {w : World} {o : Outcome} (hd : d.Takes names)
    (hcount : RightCount d.variadic names.length us.length) :
    d.Runs files w us o ↔ ArgEnds files (d.bodyScope us) w d.body o := by
  obtain ⟨scope, hp, -⟩ := hd.prepareUser hcount
  rw [Definition.Runs, Definition.bodyScope, hp]
  dsimp only
  rw [List.dropLast_concat]
  refine afterArgs_singleton fun w v => ?_
  have hlast : (Call.begin (.user d) us).apply w scope (us ++ [v]) = (w, .ok v) := by
    show (w, Call.lastArg (us ++ [v])) = (w, .ok v)
    rw [Call.lastArg, List.getLast?_concat]
  have hconclude : (Call.begin (.user d) us).conclude w scope (us ++ [v]) = ⟨w, .value v⟩ := by
    have hlate : (Call.begin (.user d) us).fn.checksEarly = false := rfl
    rw [Call.conclude, hlate, if_neg Bool.false_ne_true, hd.validate v hcount, hlast]
    rfl
  rw [hconclude]

end Parameters

end MiniLisp

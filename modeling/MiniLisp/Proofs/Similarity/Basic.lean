import Mathlib.Data.List.Forall2
import MiniLisp.Proofs.Binding

/-!
# Similar values

When a text is read a second time, functions are made anew, and a call whose head had no meaning at
the first time may have one now: what was deferred is bound. A `Revision` says how the functions of
a second world correspond to those of a first one, and which calls may be bound in the second only.
Two values are similar if they are alike up to this.

Functions are compared by their numbers, and no function corresponds to two others. So similar
values differ in nothing that a program can see. They are written alike
(`Value.Similar.write_eq`), and they are equal if they hold neither defined functions nor calls
(`Value.Similar.eq_of_isData`). Every value is similar to itself if its functions correspond to
themselves (`Value.Similar.refl`).
-/

namespace MiniLisp

/-! ## Similarity -/

/-- What has become of the functions of a world in a second one. A call whose head is not bound in
the first world may be bound in the second to the function that `target` gives to the head. The
function with the number `i` of the second world is the one with the number `origin i` of the first,
if it comes from there, and no two functions are the same one. -/
structure Revision where
  target : String → Option Definition
  origin : Nat → Option Nat
  origin_inj : ∀ {i j n : Nat}, origin i = some n → origin j = some n → i = j

/-- The number of a defined function. -/
def Function.number? : Function → Option Nat
  | .builtin _ => none
  | .user d => some d.id

mutual

/-- Similar values: with the same parts, up to similar calls and to similar functions, of which the
second comes from the first. -/
inductive Value.Similar (M : Revision) : Value → Value → Prop where
  | atom {v : Value} (h : v.isAtom = true) : Value.Similar M v v
  | tuple {xs ys : List Value} (h : List.Forall₂ (Value.Similar M) xs ys) :
      Value.Similar M (.tuple xs) (.tuple ys)
  | list {xs ys : List Value} (h : List.Forall₂ (Value.Similar M) xs ys) :
      Value.Similar M (.list xs) (.list ys)
  | function {f g : Function} (h : Function.Similar M f g)
      (hnumber : f.number? = g.number?.bind M.origin) :
      Value.Similar M (.function f) (.function g)
  | call {c d : Call} (h : Call.Similar M c d) : Value.Similar M (.call c) (.call d)

/-- Similar functions: they do similar things when they are called, whatever their numbers are. A
name is only ever written. -/
inductive Function.Similar (M : Revision) : Function → Function → Prop where
  | builtin (b : Builtin) : Function.Similar M (.builtin b) (.builtin b)
  | user {d e : Definition} (hname : d.name.display = e.name.display)
      (hparams : List.Forall₂ (Value.Similar M) d.params e.params)
      (hvariadic : d.variadic = e.variadic) (hbody : Value.Similar M d.body e.body)
      (hcaptures : Scope.Similar M d.captures e.captures) :
      Function.Similar M (.user d) (.user e)

/-- Similar scopes: with similar keys and values. -/
inductive Scope.Similar (M : Revision) :
    List (Value × Value) → List (Value × Value) → Prop where
  | nil : Scope.Similar M [] []
  | cons {k k' v u : Value} {s t : List (Value × Value)} (hk : Value.Similar M k k')
      (hv : Value.Similar M v u) (hs : Scope.Similar M s t) :
      Scope.Similar M ((k, v) :: s) ((k', u) :: t)

/-- Similar calls: with similar parts, or one deferred and the other bound. -/
inductive Call.Similar (M : Revision) : Call → Call → Prop where
  | parts {c d : Call} (hfn : Function.Similar M c.fn d.fn)
      (hargs : List.Forall₂ (Value.Similar M) c.args d.args) (hresolved : c.resolved = d.resolved)
      (hprepared : c.prepared = d.prepared) (hbody : Value.Similar M c.body d.body) :
      Call.Similar M c d
  | bound {h : String} {d : Definition} {xs ys : List Value} (hM : M.target h = some d)
      (hname : d.name = .symbol h) (hargs : List.Forall₂ (Value.Similar M) xs ys) :
      Call.Similar M (.defer (.symbol h) xs) (.begin (.user d) ys)

end

/-- Definitions with similar parts. -/
structure Definition.Alike (M : Revision) (d e : Definition) : Prop where
  name : d.name.display = e.name.display
  params : List.Forall₂ (Value.Similar M) d.params e.params
  variadic : d.variadic = e.variadic
  body : d.body.Similar M e.body
  captures : Scope.Similar M d.captures e.captures

/-- Similar functions are the same builtin or have similar definitions. -/
theorem Function.Similar.cases {M : Revision} {f g : Function} (h : f.Similar M g) :
    (∃ b, f = .builtin b ∧ g = .builtin b) ∨
      ∃ d e, f = .user d ∧ g = .user e ∧ d.Alike M e := by
  cases h with
  | builtin b => exact Or.inl ⟨b, rfl, rfl⟩
  | user hname hparams hvariadic hbody hcaptures =>
    exact Or.inr ⟨_, _, rfl, rfl, hname, hparams, hvariadic, hbody, hcaptures⟩

/-- What is similar to a defined function is defined. -/
theorem Function.Similar.exists_user {M : Revision} {f : Function} {d : Definition}
    (h : f.Similar M (.user d)) : ∃ e, f = .user e := by
  cases h with
  | user => exact ⟨_, rfl⟩

/-- Calls with similar parts. -/
structure Call.Alike (M : Revision) (c d : Call) : Prop where
  fn : c.fn.Similar M d.fn
  args : List.Forall₂ (Value.Similar M) c.args d.args
  resolved : c.resolved = d.resolved
  prepared : c.prepared = d.prepared
  body : c.body.Similar M d.body

/-- Calls that are alike are similar. -/
theorem Call.Alike.similar {M : Revision} {c d : Call} (h : c.Alike M d) : c.Similar M d :=
  .parts h.fn h.args h.resolved h.prepared h.body

mutual

/-- Whether a value is data: it holds neither defined functions nor calls. -/
def Value.isData : Value → Bool
  | .tuple items => Value.areData items
  | .list items => Value.areData items
  | .function (.user _) => false
  | .call _ => false
  | _ => true

/-- Whether all values of a list are data. -/
def Value.areData : List Value → Bool
  | [] => true
  | v :: vs => v.isData && Value.areData vs

end

/-- Two computations fail with the same error or have related results. -/
inductive Agree {α β : Type} (R : α → β → Prop) : Except Error α → Except Error β → Prop where
  | error (e : Error) : Agree R (.error e) (.error e)
  | ok {a : α} {b : β} (h : R a b) : Agree R (.ok a) (.ok b)

/-- Two computations that agree, told by their results. -/
theorem Agree.cases {α β : Type} {R : α → β → Prop} {r : Except Error α} {r' : Except Error β}
    (h : Agree R r r') :
    (∃ e, r = .error e ∧ r' = .error e) ∨ ∃ a b, r = .ok a ∧ r' = .ok b ∧ R a b := by
  cases h with
  | error e => exact Or.inl ⟨e, rfl, rfl⟩
  | ok h => exact Or.inr ⟨_, _, rfl, rfl, h⟩

/-- Computations that agree agree in a weaker sense. -/
theorem Agree.mono {α β : Type} {R S : α → β → Prop} {r : Except Error α} {r' : Except Error β}
    (h : Agree R r r') (hRS : ∀ a b, R a b → S a b) : Agree S r r' := by
  cases h with
  | error e => exact .error e
  | ok h => exact .ok (hRS _ _ h)

/-- Computations that agree stay so when their results are mapped alike. -/
theorem Agree.map {α β γ δ : Type} {R : α → β → Prop} {S : γ → δ → Prop} {f : α → γ} {g : β → δ}
    {r : Except Error α} {r' : Except Error β} (h : Agree R r r')
    (hfg : ∀ a b, R a b → S (f a) (g b)) : Agree S (r.map f) (r'.map g) := by
  cases h with
  | error e => exact .error e
  | ok h => exact .ok (hfg _ _ h)

/-! ## The functions that stand in a value -/

mutual

/-- Whether the numbers of all functions in a value have a property. What a call calls is not in it,
but what the function holds is. -/
def Value.isNumbered (p : Nat → Bool) : Value → Bool
  | .tuple items => Value.areNumbered p items
  | .list items => Value.areNumbered p items
  | .function f => f.number?.all p && f.partsNumbered p
  | .call c => c.isNumbered p
  | _ => true

/-- Whether the numbers of all functions in some values have a property. -/
def Value.areNumbered (p : Nat → Bool) : List Value → Bool
  | [] => true
  | v :: vs => v.isNumbered p && Value.areNumbered p vs

/-- Whether the numbers of all functions that a function holds have a property. -/
def Function.partsNumbered (p : Nat → Bool) : Function → Bool
  | .builtin _ => true
  | .user d => d.partsNumbered p

/-- Whether the numbers of all functions that a definition holds have a property. -/
def Definition.partsNumbered (p : Nat → Bool) : Definition → Bool
  | ⟨_, _, params, _, body, captures⟩ =>
    Value.areNumbered p params && body.isNumbered p && Scope.isNumbered p captures

/-- Whether the numbers of all functions in a scope have a property. -/
def Scope.isNumbered (p : Nat → Bool) : List (Value × Value) → Bool
  | [] => true
  | (k, v) :: rest => k.isNumbered p && v.isNumbered p && Scope.isNumbered p rest

/-- Whether the numbers of all functions that a call holds have a property. -/
def Call.isNumbered (p : Nat → Bool) : Call → Bool
  | ⟨fn, args, _, _, body⟩ => fn.partsNumbered p && Value.areNumbered p args && body.isNumbered p

end

section Similarity

variable {M : Revision}

/-- All numbers with a property belong to functions that have stayed what they were. -/
def Revision.Keeps (M : Revision) (p : Nat → Bool) : Prop :=
  ∀ i, p i = true → M.origin i = some i

variable {p : Nat → Bool}

mutual

/-- A value is similar to itself if its functions have stayed what they were. -/
theorem Value.Similar.refl (hp : M.Keeps p) (v : Value) (h : v.isNumbered p = true) :
    v.Similar M v := by
  cases v with
  | tuple items => exact .tuple (similar_refl_all hp items h)
  | list items => exact .list (similar_refl_all hp items h)
  | function f =>
    obtain ⟨hnumber, hparts⟩ := Bool.and_eq_true_iff.mp h
    refine .function (Function.Similar.refl hp f hparts) ?_
    cases f with
    | builtin b => rfl
    | user d => exact (hp d.id hnumber).symm
  | call c => exact .call (Call.Similar.refl hp c h)
  | _ => exact .atom rfl

theorem similar_refl_all (hp : M.Keeps p) (vs : List Value) (h : Value.areNumbered p vs = true) :
    List.Forall₂ (Value.Similar M) vs vs := by
  cases vs with
  | nil => exact .nil
  | cons v vs =>
    obtain ⟨hv, hvs⟩ := Bool.and_eq_true_iff.mp h
    exact .cons (Value.Similar.refl hp v hv) (similar_refl_all hp vs hvs)

/-- A function is similar to itself, whatever its number, if the functions that it holds have stayed
what they were. -/
theorem Function.Similar.refl (hp : M.Keeps p) (f : Function) (h : f.partsNumbered p = true) :
    f.Similar M f := by
  cases f with
  | builtin b => exact .builtin b
  | user d =>
    obtain ⟨id, name, params, variadic, body, captures⟩ := d
    simp only [Function.partsNumbered, Definition.partsNumbered, Bool.and_eq_true] at h
    obtain ⟨⟨hparams, hbody⟩, hcaptures⟩ := h
    exact .user rfl (similar_refl_all hp params hparams) rfl (Value.Similar.refl hp body hbody)
      (Scope.Similar.refl hp captures hcaptures)

/-- A scope is similar to itself if its functions have stayed what they were. -/
theorem Scope.Similar.refl (hp : M.Keeps p) (s : List (Value × Value))
    (h : Scope.isNumbered p s = true) : Scope.Similar M s s := by
  cases s with
  | nil => exact .nil
  | cons e s =>
    obtain ⟨k, v⟩ := e
    simp only [Scope.isNumbered, Bool.and_eq_true] at h
    exact .cons (Value.Similar.refl hp k h.1.1) (Value.Similar.refl hp v h.1.2)
      (Scope.Similar.refl hp s h.2)

/-- A call is similar to itself if the functions that it holds have stayed what they were. The
function that it calls may have got another number. -/
theorem Call.Similar.refl (hp : M.Keeps p) (c : Call) (h : c.isNumbered p = true) :
    c.Similar M c := by
  obtain ⟨fn, args, resolved, prepared, body⟩ := c
  simp only [Call.isNumbered, Bool.and_eq_true] at h
  exact .parts (Function.Similar.refl hp fn h.1.1) (similar_refl_all hp args h.1.2) rfl rfl
    (Value.Similar.refl hp body h.2)

end

/-- Values without parts are similar to themselves. -/
theorem similar_atoms {vs : List Value} (h : ∀ v ∈ vs, v.isAtom = true) :
    List.Forall₂ (Value.Similar M) vs vs :=
  List.forall₂_same.mpr fun v hv => .atom (h v hv)

/-- The items of a value without parts, which are characters, have no parts either. -/
theorem Value.isAtom_items {v : Value} {items : List Value} (hv : v.isAtom = true)
    (h : v.items? = some items) : ∀ u ∈ items, u.isAtom = true := by
  intro u hu
  cases v with
  | symbol s =>
    cases h
    obtain ⟨c, -, rfl⟩ := List.mem_map.mp hu
    rfl
  | text s =>
    cases h
    obtain ⟨c, -, rfl⟩ := List.mem_map.mp hu
    rfl
  | tuple _ | list _ | function _ | call _ => cases hv
  | _ => cases h

/-! ## What similar values have in common -/

variable {v u : Value} {vs us : List Value} {f g : Function} {c d : Call}

theorem Value.Similar.isCall_eq (h : v.Similar M u) : v.isCall = u.isCall := by
  cases h <;> rfl

/-- Of similar values both are plain or neither. -/
theorem Value.Similar.isPlain_eq (h : v.Similar M u) : v.isPlain = u.isPlain := by
  cases h <;> rfl

/-- Similar values are the same number or none. -/
theorem Value.Similar.number?_eq (h : v.Similar M u) : v.number? = u.number? := by
  cases h <;> rfl

theorem Value.Similar.index?_eq (h : v.Similar M u) : v.index? = u.index? := by
  cases h <;> rfl

/-- Of similar values both are true or neither. -/
theorem Value.Similar.isTrue_eq (h : v.Similar M u) : v.isTrue = u.isTrue := by
  cases h with
  | tuple h => cases h <;> rfl
  | list h => cases h <;> rfl
  | _ => rfl

/-- The items of similar values are similar. -/
theorem Value.Similar.items? (h : v.Similar M u) :
    (v.items? = Option.none ∧ u.items? = Option.none) ∨
      ∃ xs ys, v.items? = some xs ∧ u.items? = some ys ∧
        List.Forall₂ (Value.Similar M) xs ys := by
  cases h with
  | atom h =>
    cases hv : v.items? with
    | none => exact Or.inl ⟨rfl, rfl⟩
    | some xs => exact Or.inr ⟨xs, xs, rfl, rfl, similar_atoms (Value.isAtom_items h hv)⟩
  | tuple h => exact Or.inr ⟨_, _, rfl, rfl, h⟩
  | list h => exact Or.inr ⟨_, _, rfl, rfl, h⟩
  | function h _ => exact Or.inl ⟨rfl, rfl⟩
  | call h => exact Or.inl ⟨rfl, rfl⟩

mutual

/-- Similar data are equal. -/
theorem Value.Similar.eq_of_isData (v : Value) {u : Value} (h : v.Similar M u)
    (hv : v.isData = true) : u = v := by
  cases v with
  | tuple items =>
    cases h with
    | atom h => rfl
    | tuple h => rw [similar_eq_of_areData items h hv]
  | list items =>
    cases h with
    | atom h => rfl
    | list h => rw [similar_eq_of_areData items h hv]
  | function f =>
    cases h with
    | atom h => rfl
    | function h =>
      cases h with
      | builtin b => rfl
      | user _ _ _ _ _ => cases hv
  | call c => cases hv
  | _ =>
    cases h
    rfl

theorem similar_eq_of_areData (vs : List Value) {us : List Value}
    (h : List.Forall₂ (Value.Similar M) vs us) (hvs : Value.areData vs = true) : us = vs := by
  cases vs with
  | nil =>
    cases h
    rfl
  | cons v vs =>
    cases h with
    | cons hv h =>
      obtain ⟨hd, hds⟩ := Bool.and_eq_true_iff.mp hvs
      rw [Value.Similar.eq_of_isData v hv hd, similar_eq_of_areData vs h hds]

end

/-! ## Similar values are written alike -/

theorem Definition.writeName_eq_display (d : Definition) : d.writeName = d.name.display := by
  obtain ⟨_, name, _, _, _, _⟩ := d
  rw [Definition.writeName, Value.display]

/-- Similar functions have names that are written alike. -/
theorem Function.Similar.writeName_eq (h : f.Similar M g) : f.writeName = g.writeName := by
  cases h with
  | builtin b => rfl
  | user hname _ _ _ _ =>
    rw [Function.writeName, Function.writeName, Definition.writeName_eq_display,
      Definition.writeName_eq_display, hname]

theorem Function.Similar.write_eq (h : f.Similar M g) : f.write = g.write := by
  cases h with
  | builtin b => rfl
  | user hname _ _ _ _ =>
    rw [Function.write, Function.write, Definition.writeName_eq_display,
      Definition.writeName_eq_display, hname]

/-- The first of some values and the values behind it are written like similar ones. -/
def WrittenAlike (M : Revision) : List Value → Prop
  | [] => True
  | v :: vs =>
    (∀ u bare, v.Similar M u → v.write bare = u.write bare) ∧
      ∀ us, List.Forall₂ (Value.Similar M) vs us → Value.writeAll vs = Value.writeAll us

/-- Similar calls are written alike if their arguments are. -/
theorem Call.Similar.write_eq_of (h : c.Similar M d) (hargs : WrittenAlike M c.args) :
    c.write = d.write := by
  cases h with
  | parts hfn h _ _ _ =>
    obtain ⟨fn, args, resolved, prepared, body⟩ := c
    obtain ⟨fn', args', resolved', prepared', body'⟩ := d
    have hall : Value.writeAll args = Value.writeAll args' ∧
        Value.writeDeferred args = Value.writeDeferred args' := by
      cases h with
      | nil => exact ⟨rfl, rfl⟩
      | cons hv h =>
        rw [Value.writeAll, Value.writeAll, Value.writeDeferred, Value.writeDeferred,
          hargs.1 _ _ hv, hargs.1 _ _ hv, hargs.2 _ h]
        exact ⟨rfl, rfl⟩
    by_cases hdeferred : fn = .builtin .deferred
    · subst hdeferred
      cases hfn
      rw [Call.write, Call.write, hall.2]
    · have hdeferred' : fn' ≠ .builtin .deferred := by
        rintro rfl
        cases hfn
        exact hdeferred rfl
      rw [Call.write.eq_2 _ _ _ _ _ hdeferred, Call.write.eq_2 _ _ _ _ _ hdeferred', hall.1,
        Function.Similar.writeName_eq hfn]
  | @bound name e xs ys hM hname h =>
    rw [write_begin_eq_write_defer hname, Call.defer, Call.begin, Call.defer, Call.begin,
      Call.write, Call.write, Value.writeDeferred, Value.writeDeferred, hargs.2 ys h]

mutual

/-- **Similar values are written alike**, also with calls that are deferred in one and bound in the
other. -/
theorem Value.Similar.write_eq (v : Value) {u : Value} (h : v.Similar M u) (bare : Bool) :
    v.write bare = u.write bare := by
  cases v with
  | tuple items =>
    cases h with
    | atom h => rfl
    | tuple h => rw [Value.write, Value.write, similar_writeAll_eq items h]
  | list items =>
    cases h with
    | atom h => rfl
    | list h => rw [Value.write, Value.write, similar_writeAll_eq items h]
  | function f =>
    cases h with
    | atom h => rfl
    | function h => rw [Value.write, Value.write, h.write_eq]
  | call c =>
    cases h with
    | atom h => rfl
    | call h => rw [Value.write, Value.write, Call.Similar.write_eq c h]
  | _ =>
    cases h
    rfl

theorem similar_writeAll_eq (vs : List Value) {us : List Value}
    (h : List.Forall₂ (Value.Similar M) vs us) : Value.writeAll vs = Value.writeAll us := by
  cases vs with
  | nil =>
    cases h
    rfl
  | cons v vs =>
    cases h with
    | cons hv h =>
      rw [Value.writeAll, Value.writeAll, Value.Similar.write_eq v hv, similar_writeAll_eq vs h]

theorem Call.Similar.write_eq (c : Call) {d : Call} (h : c.Similar M d) : c.write = d.write := by
  obtain ⟨fn, args, resolved, prepared, body⟩ := c
  refine h.write_eq_of ?_
  cases args with
  | nil => trivial
  | cons head args =>
    exact ⟨fun u bare hu => Value.Similar.write_eq head hu bare,
      fun us hus => similar_writeAll_eq args hus⟩

end

theorem Value.Similar.display_eq (h : v.Similar M u) : v.display = u.display :=
  Value.Similar.write_eq v h true

/-- Similar values are printed alike. -/
theorem Value.Similar.printed_eq (h : v.Similar M u) : v.printed = u.printed := by
  cases h with
  | atom h => rfl
  | tuple h => exact (Value.Similar.tuple h).display_eq
  | list h => exact (Value.Similar.list h).display_eq
  | function h hnumber => exact (Value.Similar.function h hnumber).display_eq
  | call h => exact (Value.Similar.call h).display_eq

/-- The kind of a call depends on its function, which similar calls need not share. -/
theorem Value.Similar.kind_eq (h : v.Similar M u) (hv : v.isCall = false) : v.kind = u.kind := by
  cases h with
  | call h => cases hv
  | _ => rfl

end Similarity

end MiniLisp

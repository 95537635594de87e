import MiniLisp.Proofs.Similarity.Basic

/-!
# Copies

A definition that is run again makes a new function with the same parts. `Function.isCopy` compares
functions up to the numbers that they and the functions which they call got when they were made.
Unlike similarity this can be computed. A copy is similar to all that the function is similar to
(`Function.Similar.of_isCopy`).
-/

namespace MiniLisp

/-- Whether two values are the same symbol. -/
def Value.isSameSymbol : Value → Value → Bool
  | .symbol s, .symbol t => s == t
  | _, _ => false

theorem Value.eq_of_isSameSymbol {v u : Value} (h : v.isSameSymbol u = true) : v = u := by
  unfold Value.isSameSymbol at h
  split at h
  · rw [eq_of_beq h]
  · cases h

mutual

/-- Whether a value is a copy of another: the same but for the numbers of the functions that are
called in it. Floats are not compared. -/
def Value.isCopy : Value → Value → Bool
  | .none, u =>
    match u with
    | .none => true
    | _ => false
  | .bool a, u =>
    match u with
    | .bool b => a == b
    | _ => false
  | .int m, u =>
    match u with
    | .int n => m == n
    | _ => false
  | .float _, _ => false
  | .symbol s, u =>
    match u with
    | .symbol t => s == t
    | _ => false
  | .text s, u =>
    match u with
    | .text t => s == t
    | _ => false
  | .tuple xs, u =>
    match u with
    | .tuple ys => Value.areCopies xs ys
    | _ => false
  | .list xs, u =>
    match u with
    | .list ys => Value.areCopies xs ys
    | _ => false
  | .function f, u =>
    match u with
    | .function g => f.same g && f.isCopy g
    | _ => false
  | .call c, u =>
    match u with
    | .call d => c.isCopy d
    | _ => false
termination_by structural v => v

/-- Whether the values of a list are copies of those of another. -/
def Value.areCopies : List Value → List Value → Bool
  | [], us => us.isEmpty
  | v :: vs, us =>
    match us with
    | u :: us => v.isCopy u && Value.areCopies vs us
    | [] => false
termination_by structural vs => vs

/-- Whether a function is the same builtin as another, or has a copy of its definition. -/
def Function.isCopy : Function → Function → Bool
  | .builtin a, g =>
    match g with
    | .builtin b => a == b
    | _ => false
  | .user d, g =>
    match g with
    | .user e => d.isCopy e
    | _ => false
termination_by structural f => f

/-- Whether a definition has the same symbol for its name as another, and copies of its other
parts. -/
def Definition.isCopy : Definition → Definition → Bool
  | ⟨_, name, params, variadic, body, captures⟩, e =>
    name.isSameSymbol e.name && Value.areCopies params e.params && variadic == e.variadic &&
      body.isCopy e.body && Scope.isCopy captures e.captures
termination_by structural d => d

/-- Whether a scope has copies of the keys and the values of another. -/
def Scope.isCopy : List (Value × Value) → List (Value × Value) → Bool
  | [], t => t.isEmpty
  | (k, v) :: s, t =>
    match t with
    | (k', v') :: t => k.isCopy k' && v.isCopy v' && Scope.isCopy s t
    | [] => false
termination_by structural s => s

/-- Whether a call has got as far as another and has copies of its parts. -/
def Call.isCopy : Call → Call → Bool
  | ⟨fn, args, resolved, prepared, body⟩, d =>
    fn.isCopy d.fn && Value.areCopies args d.args && resolved == d.resolved &&
      prepared == d.prepared && body.isCopy d.body
termination_by structural c => c

end

/-- A function has only one number. -/
theorem Function.number?_eq_of_same {f g : Function} (h : f.same g = true) :
    f.number? = g.number? := by
  cases f with
  | builtin a =>
    cases g with
    | builtin b => rfl
    | user e => cases h
  | user d =>
    cases g with
    | builtin b => cases h
    | user e => exact congrArg some (eq_of_beq h)

section Similarity

variable {M : Revision}

mutual

/-- A copy is similar to what the value is similar to. -/
theorem Value.Similar.of_isCopy (v : Value) {u t : Value} (h : v.isCopy u = true)
    (hu : u.Similar M t) : v.Similar M t := by
  cases v with
  | none =>
    cases u with
    | none => exact hu
    | _ => cases h
  | bool a =>
    cases u with
    | bool b =>
      obtain rfl : a = b := eq_of_beq h
      exact hu
    | _ => cases h
  | int m =>
    cases u with
    | int n =>
      obtain rfl : m = n := eq_of_beq h
      exact hu
    | _ => cases h
  | float x => cases h
  | symbol s =>
    cases u with
    | symbol t =>
      obtain rfl : s = t := eq_of_beq h
      exact hu
    | _ => cases h
  | text s =>
    cases u with
    | text t =>
      obtain rfl : s = t := eq_of_beq h
      exact hu
    | _ => cases h
  | tuple xs =>
    cases u with
    | tuple ys =>
      cases hu with
      | atom hatom => cases hatom
      | tuple hys => exact .tuple (similar_of_areCopies xs h hys)
    | _ => cases h
  | list xs =>
    cases u with
    | list ys =>
      cases hu with
      | atom hatom => cases hatom
      | list hys => exact .list (similar_of_areCopies xs h hys)
    | _ => cases h
  | function f =>
    cases u with
    | function g =>
      cases hu with
      | atom hatom => cases hatom
      | function hg hnumber =>
        obtain ⟨hsame, hcopy⟩ := Bool.and_eq_true_iff.mp h
        exact .function (Function.Similar.of_isCopy f hcopy hg)
          ((Function.number?_eq_of_same hsame).trans hnumber)
    | _ => cases h
  | call c =>
    cases u with
    | call d =>
      cases hu with
      | atom hatom => cases hatom
      | call hd => exact .call (Call.Similar.of_isCopy c h hd)
    | _ => cases h
termination_by structural v

theorem similar_of_areCopies (vs : List Value) {us ts : List Value}
    (h : Value.areCopies vs us = true) (hus : List.Forall₂ (Value.Similar M) us ts) :
    List.Forall₂ (Value.Similar M) vs ts := by
  cases vs with
  | nil =>
    cases us with
    | nil => exact hus
    | cons u us => cases h
  | cons v vs =>
    cases us with
    | nil => cases h
    | cons u us =>
      obtain ⟨hv, hvs⟩ := Bool.and_eq_true_iff.mp h
      cases hus with
      | cons hu hus =>
        exact .cons (Value.Similar.of_isCopy v hv hu) (similar_of_areCopies vs hvs hus)
termination_by structural vs

theorem Function.Similar.of_isCopy (f : Function) {g k : Function} (h : f.isCopy g = true)
    (hg : g.Similar M k) : f.Similar M k := by
  cases f with
  | builtin a =>
    cases g with
    | builtin b =>
      obtain rfl : a = b := eq_of_beq h
      exact hg
    | user e => cases h
  | user d =>
    cases g with
    | builtin b => cases h
    | user e =>
      obtain ⟨id, name, params, variadic, body, captures⟩ := d
      simp only [Function.isCopy, Definition.isCopy, Bool.and_eq_true, beq_iff_eq] at h
      obtain ⟨⟨⟨⟨hname, hparams⟩, hvariadic⟩, hbody⟩, hcaptures⟩ := h
      cases hg with
      | user hname' hparams' hvariadic' hbody' hcaptures' =>
        have heq : name = e.name := Value.eq_of_isSameSymbol hname
        exact .user (by rw [heq, hname']) (similar_of_areCopies params hparams hparams')
          (hvariadic.trans hvariadic') (Value.Similar.of_isCopy body hbody hbody')
          (Scope.Similar.of_isCopy captures hcaptures hcaptures')
termination_by structural f

theorem Scope.Similar.of_isCopy (s : List (Value × Value)) {t r : List (Value × Value)}
    (h : Scope.isCopy s t = true) (ht : Scope.Similar M t r) : Scope.Similar M s r := by
  cases s with
  | nil =>
    cases t with
    | nil => exact ht
    | cons e t => cases h
  | cons e s =>
    obtain ⟨k, v⟩ := e
    cases t with
    | nil => cases h
    | cons e t =>
      obtain ⟨k', v'⟩ := e
      simp only [Scope.isCopy, Bool.and_eq_true] at h
      cases ht with
      | cons hk' hv' hs' =>
        exact .cons (Value.Similar.of_isCopy k h.1.1 hk') (Value.Similar.of_isCopy v h.1.2 hv')
          (Scope.Similar.of_isCopy s h.2 hs')
termination_by structural s

theorem Call.Similar.of_isCopy (c : Call) {d e : Call} (h : c.isCopy d = true)
    (hd : d.Similar M e) : c.Similar M e := by
  obtain ⟨fn, args, resolved, prepared, body⟩ := c
  simp only [Call.isCopy, Bool.and_eq_true, beq_iff_eq] at h
  obtain ⟨⟨⟨⟨hfn, hargs⟩, hresolved⟩, hprepared⟩, hbody⟩ := h
  cases hd with
  | parts hfn' hargs' hresolved' hprepared' hbody' =>
    exact .parts (Function.Similar.of_isCopy fn hfn hfn') (similar_of_areCopies args hargs hargs')
      (hresolved.trans hresolved') (hprepared.trans hprepared')
      (Value.Similar.of_isCopy body hbody hbody')
  | @bound name d xs ys hM hname hxs =>
    -- a copy of a deferred call is deferred too, with the same head
    cases args with
    | nil => cases hargs
    | cons head xs' =>
      obtain ⟨hhead, hxs'⟩ := Bool.and_eq_true_iff.mp hargs
      have hsimilar : List.Forall₂ (Value.Similar M) xs' ys := similar_of_areCopies xs' hxs' hxs
      obtain rfl : fn = .builtin .deferred := by
        cases fn with
        | builtin b => rw [eq_of_beq hfn]
        | user e => cases hfn
      obtain rfl : head = .symbol name := by
        cases head with
        | symbol s => rw [eq_of_beq hhead]
        | _ => cases hhead
      obtain rfl : body = .none := by
        cases body with
        | none => rfl
        | _ => cases hbody
      cases hresolved
      cases hprepared
      exact .bound hM hname hsimilar
termination_by structural c

end

/-- A copy of a defined function is a defined function of the same name. -/
theorem Function.exists_user_of_isCopy {f : Function} {d : Definition}
    (h : f.isCopy (.user d) = true) : ∃ e, f = .user e ∧ e.name = d.name := by
  cases f with
  | builtin a => cases h
  | user e =>
    obtain ⟨id, name, params, variadic, body, captures⟩ := e
    simp only [Function.isCopy, Definition.isCopy, Bool.and_eq_true] at h
    exact ⟨_, rfl, Value.eq_of_isSameSymbol h.1.1.1.1⟩

/-- A copy of a builtin is that builtin. -/
theorem Function.eq_of_isCopy_builtin {f : Function} {b : Builtin}
    (h : f.isCopy (.builtin b) = true) : f = .builtin b := by
  cases f with
  | builtin a => rw [eq_of_beq h]
  | user d => cases h

end Similarity

end MiniLisp

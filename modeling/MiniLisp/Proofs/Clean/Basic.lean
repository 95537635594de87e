import MiniLisp.Proofs.Kinds.Basic

/-!
# Values without calls

A call is an argument that still has to be run; an evaluated value never holds one. A value is
*clean* if no call stands in it, and if the functions in it have bodies whose calls have not begun
and captured nothing but clean values. An argument may also be a clean call: one that has not begun,
with clean arguments, and with no call behind a starred variable if its head is looked up late.

The main statements are about looking up: clean arguments are looked up to clean ones
(`lookupAll_clean`), and where no call stands behind a star each call keeps its position
(`lookupAll_call_lt`).
-/

namespace MiniLisp

/-! ## Clean values -/

/-- Whether an argument asks for the items of a variable. -/
def Value.isStar : Value → Bool
  | .symbol s => (variableOf s).1
  | _ => false

/-- Whether no call stands behind a starred variable. -/
def starsLast : List Value → Bool
  | [] => true
  | v :: vs => if v.isStar then vs.all (!·.isCall) else starsLast vs

mutual

/-- Whether a value is clean; as an argument, `arg`, it may be a call. -/
def Value.isClean (arg : Bool) : Value → Bool
  | .tuple items => Value.allClean false items
  | .list items => Value.allClean false items
  | .function f => f.isClean
  | .call c => arg && c.isClean
  | _ => true

/-- Whether all values of a list are clean. -/
def Value.allClean (arg : Bool) : List Value → Bool
  | [] => true
  | v :: vs => v.isClean arg && Value.allClean arg vs

/-- Whether the body of a function and what it captured are clean. -/
def Function.isClean : Function → Bool
  | .builtin _ => true
  | .user d => d.isClean

/-- Whether the body of a definition and what it captured are clean. -/
def Definition.isClean : Definition → Bool
  | ⟨_, _, _, _, body, captures⟩ => body.isClean true && Scope.isClean captures

/-- Whether the values of a scope are clean. -/
def Scope.isClean : List (Value × Value) → Bool
  | [] => true
  | (_, v) :: rest => v.isClean false && Scope.isClean rest

/-- Whether a call has not begun, and all that it consists of is clean. -/
def Call.isClean : Call → Bool
  | ⟨fn, args, resolved, prepared, body⟩ =>
    !resolved && !prepared && fn.isClean && Value.allClean true args &&
      (!(Call.mk fn args resolved prepared body).isDeferred || starsLast args)

end

section Basic

variable {v : Value} {vs : List Value} {s : Scope} {arg : Bool}

theorem allClean_iff : Value.allClean arg vs = true ↔ ∀ v ∈ vs, v.isClean arg = true := by
  induction vs with
  | nil => simp [Value.allClean]
  | cons v vs ih => simp [Value.allClean, ih]

theorem Scope.isClean_iff :
    Scope.isClean s = true ↔ s.All fun v => v.isClean false = true := by
  induction s with
  | nil => simp [Scope.isClean, Scope.all_nil]
  | cons e s ih =>
    obtain ⟨k, v⟩ := e
    rw [Scope.isClean, Bool.and_eq_true, Scope.all_cons, ih]

/-- What a clean call is made of. -/
theorem Call.isClean_iff (c : Call) :
    c.isClean = true ↔
      c.resolved = false ∧ c.prepared = false ∧ c.fn.isClean = true ∧
        (∀ v ∈ c.args, v.isClean true = true) ∧
          (c.isDeferred = true → starsLast c.args = true) := by
  obtain ⟨fn, args, resolved, prepared, body⟩ := c
  rw [Call.isClean, ← allClean_iff]
  cases hd : (Call.mk fn args resolved prepared body).isDeferred <;> simp [and_assoc]

/-- A clean value is no call. -/
theorem Value.isCall_eq_false (h : v.isClean false = true) : v.isCall = false := by
  cases v with
  | call c => simp [Value.isClean] at h
  | _ => rfl

/-- A clean value is clean as an argument. -/
theorem Value.isClean_arg (h : v.isClean false = true) : v.isClean true = true := by
  cases v with
  | call c => simp [Value.isClean] at h
  | _ => exact h

/-- A clean argument that is no call is a clean value. -/
theorem Value.isClean_value (h : v.isClean true = true) (hv : v.isCall = false) :
    v.isClean false = true := by
  cases v with
  | call c => cases hv
  | _ => exact h

@[simp] theorem Value.isClean_call (c : Call) :
    (Value.call c).isClean true = c.isClean := by
  simp [Value.isClean]

/-- What a clean function is made of. -/
theorem isClean_user_iff {d : Definition} :
    (Value.function (.user d)).isClean false = true ↔
      d.body.isClean true = true ∧ ∀ e ∈ d.captures, e.2.isClean false = true := by
  obtain ⟨id, name, params, variadic, body, captures⟩ := d
  rw [Value.isClean, Function.isClean, Definition.isClean, Bool.and_eq_true, Scope.isClean_iff]
  rfl

/-- Clean values are a kind of values, and clean arguments the arguments that belong to it. -/
theorem isClean_kind : Kind (fun v => v.isClean false = true) (fun v => v.isClean true = true) where
  atom {v} h := by
    cases v with
    | tuple _ | list _ | function _ | call _ => cases h
    | _ => rfl
  tuple {items} := by rw [Value.isClean, allClean_iff]
  list {items} := by rw [Value.isClean, allClean_iff]
  made hbody hcaptures := isClean_user_iff.mpr ⟨hbody, hcaptures⟩
  value := Value.isCall_eq_false
  arg h := ⟨fun hc => Value.isClean_value hc h, Value.isClean_arg⟩

end Basic

/-! ## Looking up -/

section Lookup

variable {scope globals : Scope} {c : Call} {arg v : Value} {args vs : List Value}

/-- The functions of a clean scope are clean. -/
theorem Function.isClean_of_find? {s : Scope} {k : Value} {fn : Function}
    (hs : Scope.isClean s = true) (h : s.find? k = .ok (some (.function fn))) :
    fn.isClean = true :=
  (Scope.isClean_iff.mp hs).find? h

/-- Only a starred variable asks for its items. -/
theorem isStar_of_lookup (h : lookup scope globals c arg = .ok (true, v)) : arg.isStar = true := by
  rcases lookup_cases h with ⟨-, he, -⟩ | ⟨s, rfl, ⟨q, he, -⟩ | ⟨n, he, -⟩ | ⟨he, -⟩⟩
  · cases he
  · cases he
  · cases he
  · exact he.symm

/-- Clean arguments are looked up to clean ones, and to calls only if these are among them. -/
theorem lookupAll_clean (hs : Scope.isClean scope = true) (hg : Scope.isClean globals = true)
    (ha : ∀ a ∈ args, a.isClean true = true) (h : lookupAll scope globals c args = .ok vs) :
    ∀ v ∈ vs, v.isClean true = true ∧ (v.isCall = true → v ∈ args) := by
  intro v hv
  rcases isClean_kind.lookupAll (Scope.isClean_iff.mp hs) (Scope.isClean_iff.mp hg) ha h v hv with
    hclean | ⟨hmem, -⟩
  · refine ⟨Value.isClean_arg hclean, fun hcall => ?_⟩
    rw [Value.isCall_eq_false hclean] at hcall
    cases hcall
  · exact ⟨ha v hmem, fun _ => hmem⟩

/-- Where no call stands behind a star, expansion moves no call: each keeps its position. -/
theorem lookupAll_call_lt (hs : Scope.isClean scope = true)
    (hg : Scope.isClean globals = true) (ha : ∀ a ∈ args, a.isClean true = true)
    (hstar : starsLast args = true) (h : lookupAll scope globals c args = .ok vs)
    {j : Nat} {d : Call} (hj : vs[j]? = some (.call d)) : j < args.length := by
  induction args generalizing vs j with
  | nil =>
    cases h
    simp at hj
  | cons arg args ih =>
    obtain ⟨front, rest, rfl, hrest, hfront⟩ := lookupAll_cons_iff.mp h
    have hargs : ∀ a ∈ args, a.isClean true = true :=
      fun a hm => ha a (List.mem_cons_of_mem arg hm)
    rw [starsLast] at hstar
    by_cases hst : arg.isStar = true
    · -- behind a star there are no calls at all
      rw [if_pos hst, List.all_eq_true] at hstar
      have hnone : ∀ a ∈ arg :: args, a.isCall = false := by
        intro a hm
        rcases List.mem_cons.mp hm with rfl | hm
        · cases a with
          | call c => cases hst
          | _ => rfl
        · simpa using hstar a hm
      have hmem : Value.call d ∈ arg :: args :=
        (lookupAll_clean hs hg ha h _ (List.mem_of_getElem? hj)).2 rfl
      cases hnone _ hmem
    · rw [if_neg hst] at hstar
      rcases hfront with ⟨v, hl, rfl⟩ | ⟨v, hl, hi⟩
      · cases j with
        | zero => simp
        | succ j =>
          rw [List.singleton_append, List.getElem?_cons_succ] at hj
          have hlt := ih hargs hstar hrest hj
          simpa using hlt
      · exact absurd (isStar_of_lookup hl) hst

end Lookup

end MiniLisp

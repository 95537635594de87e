import MiniLisp.Proofs.Calls

/-!
# Kinds of values

Evaluation takes values apart and puts them together again, and it makes functions of the values of
variables. A property of values that only depends on their parts is kept by all of this. A `Kind` is
such a property, together with the property of arguments that belongs to it: the values of the
kind, and some calls.

Here scopes, looking up and reading are told in such terms: variables hold values of the kind
(`Kind.lookup`), an argument is looked up to a call only if it is one (`Kind.lookupAll`), and a call
that is read has the properties that calls get from their items (`prop_of_readCall`).
-/

namespace MiniLisp

/-- Whether a value has no parts. -/
def Value.isAtom : Value → Bool
  | .tuple _ | .list _ | .function _ | .call _ => false
  | _ => true

/-- A kind of values `P` with the kind of arguments `C` that belongs to it. Whether a tuple or a
list is of the kind depends on its items. A function that is made of a body, which is an argument,
and of captured values of the kind is of the kind. A call is no value. -/
structure Kind (P C : Value → Prop) : Prop where
  atom : ∀ {v}, v.isAtom = true → P v
  tuple : ∀ {items}, P (.tuple items) ↔ ∀ v ∈ items, P v
  list : ∀ {items}, P (.list items) ↔ ∀ v ∈ items, P v
  made : ∀ {d}, C d.body → (∀ e ∈ d.captures, P e.2) → P (.function (.user d))
  value : ∀ {v}, P v → v.isCall = false
  arg : ∀ {v}, v.isCall = false → (C v ↔ P v)

namespace Kind

variable {P C : Value → Prop} (hK : Kind P C) {v : Value}
include hK

/-- A value of the kind can stand as an argument. -/
theorem ofValue (h : P v) : C v :=
  (hK.arg (hK.value h)).mpr h

/-- The items of a value of the kind are of the kind. -/
theorem items {items : List Value} (h : P v) (hi : v.items? = some items) : ∀ u ∈ items, P u := by
  cases v with
  | tuple xs =>
    cases hi
    exact hK.tuple.mp h
  | list xs =>
    cases hi
    exact hK.list.mp h
  | symbol s =>
    cases hi
    intro u hu
    obtain ⟨c, -, rfl⟩ := List.mem_map.mp hu
    exact hK.atom rfl
  | text s =>
    cases hi
    intro u hu
    obtain ⟨c, -, rfl⟩ := List.mem_map.mp hu
    exact hK.atom rfl
  | _ => cases hi

end Kind

/-! ## Scopes -/

namespace Scope

variable {P : Value → Prop} {s s' : Scope} {k v : Value}

/-- All values of a scope have a property. -/
def All (P : Value → Prop) (s : Scope) : Prop :=
  ∀ e ∈ s, P e.2

theorem all_nil : All P [] := by
  intro e he
  cases he

theorem all_cons : All P ((k, v) :: s) ↔ P v ∧ s.All P :=
  List.forall_mem_cons

/-- The keys of a scope, in the order in which they were first bound. -/
def keys (s : Scope) : List Value :=
  s.map Prod.fst

/-- Finding a key, told from the first entry on. -/
theorem find?_cons {k' v' : Value} {r : Option Value}
    (h : Scope.find? ((k', v') :: s) k = .ok r) :
    Value.isKey k' k = .ok true ∧ r = some v' ∨
      Value.isKey k' k = .ok false ∧ s.find? k = .ok r := by
  rw [Scope.find?] at h
  cases hk : Value.isKey k' k with
  | error e => rw [hk] at h; cases h
  | ok b =>
    rw [hk] at h
    cases b with
    | true =>
      cases h
      exact Or.inl ⟨rfl, rfl⟩
    | false => exact Or.inr ⟨rfl, h⟩

/-- The function of a name, if one has been defined. -/
def definition? (s : Scope) (name : String) : Option Definition :=
  match s.find? (.symbol name) with
  | .ok (some (.function (.user d))) => some d
  | _ => none

theorem find?_of_definition? {name : String} {d : Definition}
    (h : s.definition? name = some d) :
    s.find? (.symbol name) = .ok (some (.function (.user d))) := by
  unfold definition? at h
  split at h
  · rename_i hfind
    cases h
    exact hfind
  · cases h

theorem definition?_of_find? {name : String} {d : Definition}
    (h : s.find? (.symbol name) = .ok (some (.function (.user d)))) :
    s.definition? name = some d := by
  rw [definition?, h]

/-- Putting a key, told from the first entry on. -/
theorem put_cons {k' v' : Value} (h : Scope.put ((k', v') :: s) k v = .ok s') :
    Value.isKey k' k = .ok true ∧ s' = (k', v) :: s ∨
      ∃ rest, Value.isKey k' k = .ok false ∧ s.put k v = .ok rest ∧ s' = (k', v') :: rest := by
  rw [Scope.put] at h
  cases hk : Value.isKey k' k with
  | error e => rw [hk] at h; cases h
  | ok b =>
    rw [hk] at h
    cases b with
    | true =>
      cases h
      exact Or.inl ⟨rfl, rfl⟩
    | false =>
      obtain ⟨rest, hp, hs⟩ := map_eq_ok_iff.mp h
      exact Or.inr ⟨rest, rfl, hp, hs⟩

/-- The bindings after a key is bound: those from before, of which one may have a new value, and
that of the key. -/
theorem mem_put (h : s.put k v = .ok s') {e : Value × Value} (he : e ∈ s') :
    e ∈ s ∨ e.2 = v ∧ (e.1 = k ∨ ∃ u, (e.1, u) ∈ s) := by
  induction s generalizing s' with
  | nil =>
    cases h
    rw [List.mem_singleton] at he
    subst he
    exact Or.inr ⟨rfl, Or.inl rfl⟩
  | cons e' s ih =>
    obtain ⟨k', u⟩ := e'
    rcases put_cons h with ⟨-, rfl⟩ | ⟨rest, -, hput, rfl⟩
    · rcases List.mem_cons.mp he with rfl | he
      · exact Or.inr ⟨rfl, Or.inr ⟨u, List.mem_cons_self⟩⟩
      · exact Or.inl (List.mem_cons_of_mem _ he)
    · rcases List.mem_cons.mp he with rfl | he
      · exact Or.inl List.mem_cons_self
      · rcases ih hput he with hold | ⟨hv, hk | ⟨u', hu'⟩⟩
        · exact Or.inl (List.mem_cons_of_mem _ hold)
        · exact Or.inr ⟨hv, Or.inl hk⟩
        · exact Or.inr ⟨hv, Or.inr ⟨u', List.mem_cons_of_mem _ hu'⟩⟩

theorem put_of_insert (h : s.insert k v = .ok s') : s.put k v = .ok s' := by
  unfold Scope.insert at h
  by_cases hk : k.hashable = true
  · rw [if_pos hk] at h
    exact h
  · rw [if_neg hk] at h
    cases h

theorem All.find? (hs : s.All P) (h : s.find? k = .ok (some v)) : P v := by
  induction s with
  | nil => cases h
  | cons e s ih =>
    obtain ⟨k', v'⟩ := e
    rw [all_cons] at hs
    rcases find?_cons h with ⟨-, hv⟩ | ⟨-, hrest⟩
    · cases hv
      exact hs.1
    · exact ih hs.2 hrest

theorem All.insert (hs : s.All P) (hv : P v) (h : s.insert k v = .ok s') : s'.All P := by
  have hput := put_of_insert h
  clear h
  induction s generalizing s' with
  | nil =>
    cases hput
    exact all_cons.mpr ⟨hv, all_nil⟩
  | cons e s ih =>
    obtain ⟨k', v'⟩ := e
    rw [all_cons] at hs
    rcases put_cons hput with ⟨-, rfl⟩ | ⟨rest, -, hrest, rfl⟩
    · exact all_cons.mpr ⟨hv, hs.2⟩
    · exact all_cons.mpr ⟨hs.1, ih hs.2 hrest⟩

/-- Binding a key leaves the keys where they are. -/
theorem keys_insert (h : s.insert k v = .ok s') : s.keys <+: s'.keys := by
  have hput := put_of_insert h
  clear h
  induction s generalizing s' with
  | nil => exact List.nil_prefix
  | cons e s ih =>
    obtain ⟨k', v'⟩ := e
    rcases put_cons hput with ⟨-, rfl⟩ | ⟨rest, -, hrest, rfl⟩
    · exact List.prefix_rfl
    · exact (List.prefix_cons_inj k').mpr (ih hrest)

end Scope

/-! ## Looking up -/

section Lookup

variable {scope globals : Scope} {c : Call} {arg v : Value} {expand : Bool} {args vs : List Value}

/-- What looking up an argument can give: the argument itself unless it is a symbol, and for a
symbol the symbol without its quote, an integer or the value of a variable. -/
theorem lookup_cases (h : lookup scope globals c arg = .ok (expand, v)) :
    ((∀ s, arg ≠ .symbol s) ∧ expand = false ∧ v = arg) ∨
      (∃ s, arg = .symbol s ∧
        ((∃ q, expand = false ∧ v = .symbol q) ∨ (∃ n, expand = false ∧ v = .int n) ∨
          (expand = (variableOf s).1 ∧
            findVariable scope globals (variableOf s).2 c = .ok v))) := by
  cases arg with
  | symbol s =>
    refine Or.inr ⟨s, rfl, ?_⟩
    unfold lookup at h
    dsimp only at h
    split at h
    · cases h
      exact Or.inl ⟨_, rfl, rfl⟩
    · split at h
      · cases h
        exact Or.inr (Or.inl ⟨_, rfl, rfl⟩)
      · obtain ⟨u, hf, hu⟩ := map_eq_ok_iff.mp h
        cases hu
        exact Or.inr (Or.inr ⟨rfl, hf⟩)
  | _ =>
    refine Or.inl ⟨by simp, ?_⟩
    cases h
    exact ⟨rfl, rfl⟩

/-- What looking up several arguments leads to: the first is replaced by a value or by items, and
the rest follows. -/
theorem lookupAll_cons_iff :
    lookupAll scope globals c (arg :: args) = .ok vs ↔
      ∃ front rest, vs = front ++ rest ∧ lookupAll scope globals c args = .ok rest ∧
        ((∃ v, lookup scope globals c arg = .ok (false, v) ∧ front = [v]) ∨
          (∃ v, lookup scope globals c arg = .ok (true, v) ∧ v.items? = some front)) := by
  rw [lookupAll]
  constructor
  · intro h
    cases hl : lookup scope globals c arg with
    | error e => rw [hl] at h; cases h
    | ok r =>
      obtain ⟨expand, v⟩ := r
      rw [hl] at h
      cases expand with
      | false =>
        obtain ⟨rest, hr, rfl⟩ := map_eq_ok_iff.mp h
        exact ⟨[v], rest, rfl, hr, Or.inl ⟨v, rfl, rfl⟩⟩
      | true =>
        dsimp only at h
        cases hi : v.items? with
        | none => rw [hi] at h; cases h
        | some items =>
          rw [hi] at h
          obtain ⟨rest, hr, rfl⟩ := map_eq_ok_iff.mp h
          exact ⟨items, rest, rfl, hr, Or.inr ⟨v, rfl, hi⟩⟩
  · rintro ⟨front, rest, rfl, hr, ⟨v, hl, rfl⟩ | ⟨v, hl, hi⟩⟩
    · rw [hl]
      dsimp only
      rw [hr]
      rfl
    · rw [hl]
      dsimp only
      rw [hi]
      dsimp only
      rw [hr]
      rfl

variable {P C : Value → Prop} (hK : Kind P C)

theorem Scope.All.findVariable {name : String} (hs : scope.All P) (hg : globals.All P)
    (h : findVariable scope globals name c = .ok v) : P v := by
  unfold MiniLisp.findVariable at h
  cases hf : scope.find? (.symbol name) with
  | error e => rw [hf] at h; cases h
  | ok r =>
    rw [hf] at h
    cases r with
    | some u =>
      cases h
      exact hs.find? hf
    | none =>
      dsimp only at h
      cases hf' : globals.find? (.symbol name) with
      | error e => rw [hf'] at h; cases h
      | ok r =>
        rw [hf'] at h
        cases r with
        | some u =>
          cases h
          exact hg.find? hf'
        | none => cases h

include hK

/-- An argument is looked up to itself or to a value. -/
theorem Kind.lookup (hs : scope.All P) (hg : globals.All P)
    (ha : C arg) (h : lookup scope globals c arg = .ok (expand, v)) :
    P v ∨ expand = false ∧ v = arg ∧ arg.isCall = true := by
  rcases lookup_cases h with ⟨-, rfl, rfl⟩ | ⟨s, rfl, ⟨q, rfl, rfl⟩ | ⟨n, rfl, rfl⟩ | ⟨rfl, hf⟩⟩
  · cases hv : v.isCall with
    | false => exact Or.inl ((hK.arg hv).mp ha)
    | true => exact Or.inr ⟨rfl, rfl, rfl⟩
  · exact Or.inl (hK.atom rfl)
  · exact Or.inl (hK.atom rfl)
  · exact Or.inl (hs.findVariable hg hf)

/-- Arguments are looked up to values and to the calls among them. -/
theorem Kind.lookupAll (hs : scope.All P) (hg : globals.All P) (ha : ∀ a ∈ args, C a)
    (h : lookupAll scope globals c args = .ok vs) :
    ∀ v ∈ vs, P v ∨ v ∈ args ∧ v.isCall = true := by
  induction args generalizing vs with
  | nil =>
    cases h
    simp
  | cons arg args ih =>
    obtain ⟨front, rest, rfl, hrest, hfront⟩ := lookupAll_cons_iff.mp h
    have harg : C arg := ha arg List.mem_cons_self
    intro v hv
    rcases List.mem_append.mp hv with hv | hv
    · rcases hfront with ⟨u, hl, rfl⟩ | ⟨u, hl, hi⟩
      · obtain rfl := List.mem_singleton.mp hv
        rcases hK.lookup hs hg harg hl with hv | ⟨-, rfl, hcall⟩
        · exact Or.inl hv
        · exact Or.inr ⟨List.mem_cons_self, hcall⟩
      · rcases hK.lookup hs hg harg hl with hu | ⟨he, -⟩
        · exact Or.inl (hK.items hu hi v hv)
        · cases he
    · rcases ih (fun a hm => ha a (List.mem_cons_of_mem arg hm)) hrest v hv with hv | ⟨hv, hcall⟩
      · exact Or.inl hv
      · exact Or.inr ⟨List.mem_cons_of_mem arg hv, hcall⟩

end Lookup

/-! ## Reading -/

section Reading

variable {globals : Scope} {C : Value → Prop} (htoken : ∀ cs, C (Token.read cs).value)
  (hcall : ∀ head args c, (∀ v ∈ head :: args, C v) → makeCall globals head args = .ok c →
    C (.call c))
include htoken hcall

/-- A call that is read has a property if tokens have it and calls get it from their items. -/
theorem prop_of_readItems (parts : List Value) (cs : List Char) {c : Call}
    {rest : { rest : List Char // rest.length < cs.length }} (hp : ∀ v ∈ parts, C v)
    (h : readItems globals parts cs = .ok (c, rest)) : C (.call c) := by
  have hsnoc : ∀ (parts : List Value) (u : Value), (∀ v ∈ parts, C v) → C u →
      ∀ v ∈ parts ++ [u], C v := by
    intro parts u hp hu v hv
    rcases List.mem_append.mp hv with hv | hv
    · exact hp v hv
    · rw [List.mem_singleton.mp hv]
      exact hu
  fun_induction readItems globals parts cs generalizing c with
  | case1 => cases h
  | case2 => cases h
  | case3 => cases h
  | case4 parts x cs hx inner rest1 hin call rest2 hrest ihin ihrest =>
    cases h
    exact ihrest (hsnoc parts _ hp (ihin (by simp) hin)) hrest
  | case5 => cases h
  | case6 parts x cs hx hx' call hclose =>
    cases h
    cases parts with
    | nil => cases hclose
    | cons head args => exact hcall head args _ hp hclose
  | case7 => cases h
  | case8 parts x cs hx hx' hsep inner rest1 hin ih =>
    cases h
    exact ih hp hin
  | case9 => cases h
  | case10 parts x cs hx hx' hsep token call rest1 hrest =>
    rename_i ih
    cases h
    exact ih (hsnoc parts _ hp (htoken _)) hrest

theorem prop_of_readCall {cs rest : List Char} {c : Call}
    (h : readCall globals cs = .ok (c, rest)) : C (.call c) := by
  unfold readCall at h
  split at h
  · cases h
  · split at h
    · rename_i cs _
      cases hr : readItems globals [] cs with
      | error e => rw [hr] at h; cases h
      | ok r =>
        obtain ⟨d, rest'⟩ := r
        rw [hr] at h
        cases h
        exact prop_of_readItems htoken hcall [] cs (by simp) hr
    · cases h

end Reading

/-- A call that is read has not begun. -/
theorem readCall_fresh {globals : Scope} {cs rest : List Char} {c : Call}
    (h : readCall globals cs = .ok (c, rest)) : c.resolved = false ∧ c.prepared = false := by
  refine prop_of_readCall (C := fun v => ∀ c, v = .call c → c.resolved = false ∧ c.prepared = false)
    (fun cs c hc => ?_) (fun head args c _ hc => ?_) h c rfl
  · unfold Token.read at hc
    split at hc <;> cases hc
  · rintro _ ⟨⟩
    unfold makeCall at hc
    split at hc
    · cases hc
    · cases hc
      exact ⟨rfl, rfl⟩
    · rw [Function.eq_of_begin hc]
      exact ⟨rfl, rfl⟩
    · cases hc

end MiniLisp

import MiniLisp.Proofs.Reading.Incomplete
import MiniLisp.Proofs.Similarity.Reading

/-!
# The wording of calls

Messages quote calls. A call is read to different things under different global scopes, since its
head may or may not be bound, and so may the heads of the calls inside it. But a function is written
with its name, so that all of them are written alike: with the items that stand in the text
(`readCall_shown`). Hence what messages quote does not depend on what is defined
(`readCallAt_shown_alike`).
-/

namespace MiniLisp

/-! ## Functions under their names -/

/-- The name of a function. -/
def Function.name : Function → Value
  | .builtin b => .symbol b.name
  | .user d => d.name

/-- A function is written with its name. -/
theorem Function.writeName_eq (f : Function) : f.writeName = f.name.write true := by
  cases f with
  | builtin b => rw [Function.writeName, Function.name, Value.write, if_pos rfl]
  | user d =>
    obtain ⟨id, name, params, variadic, body, captures⟩ := d
    rw [Function.writeName, Definition.writeName, Function.name]

namespace Scope

/-- Every symbol and every text that a scope binds is bound to a function of that name. Nothing else
that can be bound can be written as the head of a call. -/
def BindsByName (s : Scope) : Prop :=
  ∀ e ∈ s, e.1.characters?.isSome = true → ∃ f, e.2 = .function f ∧ f.name = e.1

variable {s : Scope} {k v : Value}

/-- The text of a name is no other key. -/
theorem eq_of_isKey_text {t : String} (h : Value.isKey k (.text t) = .ok true) : k = .text t := by
  unfold Value.isKey at h
  split at h
  · cases k with
    | text u =>
      have heq : (Value.text t).equal (.text u) = .ok (t == u) := rfl
      rw [heq] at h
      have htu : (t == u) = true := Except.ok.inj h
      rw [eq_of_beq htu]
    | _ => cases h
  · cases h

/-- A symbol or a text is no other key. -/
theorem eq_of_isKey {h : Value} (hh : h.characters?.isSome = true)
    (hk : Value.isKey k h = .ok true) : k = h := by
  cases h with
  | symbol n => exact eq_of_isKey_symbol hk
  | text t => exact eq_of_isKey_text hk
  | _ => cases hh

theorem BindsByName.find? (hs : s.BindsByName) (hk : k.characters?.isSome = true)
    (h : s.find? k = .ok (some v)) : ∃ f, v = .function f ∧ f.name = k := by
  induction s with
  | nil => cases h
  | cons e s ih =>
    obtain ⟨k', v'⟩ := e
    obtain ⟨hfirst, hrest⟩ := List.forall_mem_cons.mp hs
    rcases find?_cons h with ⟨hkey, hv⟩ | ⟨-, hlater⟩
    · obtain rfl := eq_of_isKey hk hkey
      cases hv
      exact hfirst hk
    · exact ih hrest hlater

end Scope

/-! ## Calls under the names of their functions -/

/-- Whether a value can be the head of a call that is read: a symbol, which has characters, a text
or a call. -/
def Value.isHead : Value → Bool
  | .symbol s => s != ""
  | .text _ => true
  | .call _ => true
  | _ => false

/-- A call of a function is written as the deferred call of its name. -/
theorem Call.write_begin {f : Function} {args : List Value} (hf : f.name ≠ .symbol "") :
    (Call.begin f args).write = Value.writeDeferred (f.name :: args) := by
  have hname := f.writeName_eq
  rw [Value.writeDeferred, ← hname]
  cases f with
  | user d => rw [Call.begin, Call.write]; simp
  | builtin b =>
    cases b with
    | deferred => exact absurd rfl hf
    | _ => rw [Call.begin, Call.write]; simp

section Closing

variable {globals : Scope} {head : Value} {args : List Value} {c : Call}

/-- **A call is written with its head**, whatever the head is bound to. -/
theorem makeCall_write (hg : globals.BindsByName) (hhead : head.isHead = true)
    (h : makeCall globals head args = .ok c) : c.write = Value.writeDeferred (head :: args) := by
  have hdefer : (Call.defer head args).write = Value.writeDeferred (head :: args) := by
    rw [Call.defer, Call.begin, Call.write]
  unfold makeCall at h
  cases hfind : globals.find? head with
  | error e =>
    rw [hfind] at h
    cases h
  | ok found =>
    rw [hfind] at h
    cases found with
    | none =>
      cases h
      exact hdefer
    | some v =>
      have hchars : head.characters?.isSome = true := by
        cases head with
        | call d =>
          rw [Scope.find?_call] at hfind
          cases hfind
        | symbol s => rfl
        | text s => rfl
        | _ => cases hhead
      obtain ⟨f, rfl, rfl⟩ := hg.find? hchars hfind
      have hne : f.name ≠ .symbol "" := by
        intro hempty
        rw [hempty] at hhead
        cases hhead
      rw [Function.eq_of_begin h, Call.write_begin hne]

end Closing

/-! ## Items and what is read of them -/

/-- A value that can be a head is written as an item is shown. -/
def Item.ShownAs (item : Item) (v : Value) : Prop :=
  v.isHead = true ∧ ∀ bare, v.write bare = .ok (item.shown bare)

section Items

variable {globals : Scope} {items : List Item} {vs : List Value} {c : Call}

theorem writeAll_of_shownAs (h : List.Forall₂ Item.ShownAs items vs) :
    Value.writeAll vs = .ok (Item.shownAll items) := by
  induction h with
  | nil => rw [Value.writeAll, Item.shownAll]
  | cons hv _ ih => rw [Value.writeAll, hv.2, ih, Item.shownAll]

theorem closeCall_shown (hg : globals.BindsByName) (h : List.Forall₂ Item.ShownAs items vs)
    (hc : closeCall globals vs = .ok c) : c.write = .ok (Item.shownCall items) := by
  cases h with
  | nil => cases hc
  | cons hhead hargs =>
    rw [closeCall] at hc
    rw [makeCall_write hg hhead.1 hc, Value.writeDeferred, hhead.2, writeAll_of_shownAs hargs,
      Item.shownCall]

/-- What is read of written items is written as they are shown. -/
theorem Written.shownAs (hg : globals.BindsByName) {cs : List Char} (h : Written items cs) :
    ∀ {vs : List Value}, Item.buildAll globals items = .ok vs →
      List.Forall₂ Item.ShownAs items vs := by
  induction h with
  | nil =>
    intro vs hvs
    cases hvs
    exact .nil
  | separator _ _ ih => exact ih
  | @symbol items name cs hname _ _ ih =>
    intro vs hvs
    obtain ⟨v, hv, hrest⟩ := bind_eq_ok_iff.mp hvs
    obtain ⟨us, hus, rfl⟩ := map_eq_ok_iff.mp hrest
    cases hv
    refine .cons ⟨?_, fun bare => ?_⟩ (ih hus)
    · obtain ⟨d, name, rfl⟩ := exists_cons_of_isSymbolText hname
      simp [Value.isHead]
    · rw [Value.write, Item.shown]
  | text _ _ ih =>
    intro vs hvs
    obtain ⟨v, hv, hrest⟩ := bind_eq_ok_iff.mp hvs
    obtain ⟨us, hus, rfl⟩ := map_eq_ok_iff.mp hrest
    cases hv
    refine .cons ⟨rfl, fun bare => ?_⟩ (ih hus)
    rw [Value.write, Item.shown]
  | call _ _ _ ihinner ih =>
    intro vs hvs
    obtain ⟨v, hv, hrest⟩ := bind_eq_ok_iff.mp hvs
    obtain ⟨us, hus, rfl⟩ := map_eq_ok_iff.mp hrest
    rw [Item.build] at hv
    obtain ⟨inner, hinner, hclose⟩ := bind_eq_ok_iff.mp hv
    obtain ⟨d, hd, rfl⟩ := map_eq_ok_iff.mp hclose
    refine .cons ⟨rfl, fun bare => ?_⟩ (ih hus)
    rw [Value.write, closeCall_shown hg (ihinner hinner) hd, Item.shown]

/-- **A call is written as its items are shown**, and it ends where it ends while nothing is
bound. -/
theorem readCall_shown (hg : globals.BindsByName) {cs rest : List Char}
    (h : readCall globals cs = .ok (c, rest)) :
    ∃ items, readCall [] cs = .ok (Item.toCall items, rest) ∧
      c.write = .ok (Item.shownCall items) := by
  obtain ⟨items, text, rfl, htext, hclose⟩ := readCall_eq_ok_iff.mp h
  refine ⟨items, ?_, ?_⟩
  · rw [htext.readCall_append, htext.close_nothing]
    rfl
  · obtain ⟨-, inner, -, hwritten⟩ := htext
    obtain ⟨vs, hvs, hc⟩ := bind_eq_ok_iff.mp hclose
    exact closeCall_shown hg (hwritten.shownAs hg hvs) hc

end Items

/-! ## Two readings of one text -/

/-- **What messages quote does not depend on what is defined.** If a call is read at a position of a
text under two global scopes that bind names to functions of these names only, then it ends at the
same position, and both calls are written alike, as the items are shown that are read there while
nothing is bound. The functions of the calls and of the calls inside them may be different ones. -/
theorem readCallAt_shown_alike {globals globals' : Scope} (hg : globals.BindsByName)
    (hg' : globals'.BindsByName) {s : String} {i j j' : Int} {c c' : Call}
    (h : readCallAt globals s i = .ok (c, j)) (h' : readCallAt globals' s i = .ok (c', j')) :
    j = j' ∧ ∃ items, readCallAt [] s i = .ok (Item.toCall items, j) ∧
      c.write = .ok (Item.shownCall items) ∧ c'.write = .ok (Item.shownCall items) := by
  unfold readCallAt at h h' ⊢
  cases htext : textFrom s.toList i with
  | none =>
    rw [htext] at h
    cases h
  | some cs =>
    rw [htext] at h h'
    obtain ⟨⟨d, rest⟩, hread, hr⟩ := map_eq_ok_iff.mp h
    obtain ⟨⟨d', rest'⟩, hread', hr'⟩ := map_eq_ok_iff.mp h'
    cases hr
    cases hr'
    obtain ⟨items, hnothing, hshown⟩ := readCall_shown hg hread
    obtain ⟨items', hnothing', hshown'⟩ := readCall_shown hg' hread'
    -- both are compared with what is read while nothing is bound
    have hboth := Except.ok.inj (hnothing.symm.trans hnothing')
    obtain rfl := Item.toCall_inj (congrArg Prod.fst hboth)
    obtain rfl : rest = rest' := congrArg Prod.snd hboth
    exact ⟨rfl, items, map_eq_ok_iff.mpr ⟨_, hnothing, rfl⟩, hshown, hshown'⟩

theorem bindsByName_builtinScope (script : Bool) : (builtinScope script).BindsByName := by
  intro e he _
  obtain ⟨b, -, rfl⟩ := List.mem_map.mp he
  exact ⟨.builtin b, rfl, rfl⟩

/-- `(f (+ 1 "a"))`: where only `f` is defined the outer call is that of a function and the inner
one is deferred, and where only the builtins are there it is the other way round. -/
theorem readCallAt_shown_alike_nested :
    let f : Definition := ⟨0, .symbol "f", [.symbol "x"], false, .none, []⟩
    let globals : Scope := [(.symbol "f", .function (.user f))]
    let s : String := String.ofList
      ['(', 'f', ' ', '(', '+', ' ', '1', ' ', '"', 'a', '"', ')', ')']
    let args : List Value := [.symbol (String.ofList ['1']), .text (String.ofList ['a'])]
    let c : Call := .begin (.user f) [.call (.defer (.symbol (String.ofList ['+'])) args)]
    let c' : Call := .defer (.symbol (String.ofList ['f'])) [.call (.begin (.builtin .sum) args)]
    globals.BindsByName ∧ (builtinScope false).BindsByName ∧
      readCallAt globals s 0 = .ok (c, 13) ∧ readCallAt (builtinScope false) s 0 = .ok (c', 13) ∧
        ∃ text, c.write = .ok text ∧ c'.write = .ok text := by
  intro f globals s args c c'
  let inner : List Item := [.symbol (String.ofList ['+']), .symbol (String.ofList ['1']),
    .text (String.ofList ['a'])]
  have hinner : Written inner ['+', ' ', '1', ' ', '"', 'a', '"'] := by
    have htext := @Written.text [] ['a'] [] (by decide) .nil
    have hone := @Written.symbol _ ['1'] _ rfl (fun _ => rfl) (.separator (c := ' ') rfl htext)
    exact @Written.symbol _ ['+'] _ rfl (fun _ => rfl) (.separator (c := ' ') rfl hone)
  have hitems : CallText [.symbol (String.ofList ['f']), .call inner]
      ['(', 'f', ' ', '(', '+', ' ', '1', ' ', '"', 'a', '"', ')', ')'] := by
    have hcall := @Written.call _ [] _ [] (List.cons_ne_nil _ _) hinner .nil
    exact ⟨List.cons_ne_nil _ _, _, rfl,
      @Written.symbol _ ['f'] _ rfl (fun _ => rfl) (.separator (c := ' ') rfl hcall)⟩
  have hglobals : globals.BindsByName := by
    intro e he _
    obtain rfl := List.mem_singleton.mp he
    exact ⟨.user f, rfl, rfl⟩
  have hread : readCallAt globals s 0 = .ok (c, 13) :=
    (@readCallAt_eq_ok_iff globals [] _ c 13 (List.cons_ne_nil _ _)).mpr
      ⟨_, _, [], rfl, rfl, hitems, rfl⟩
  have hread' : readCallAt (builtinScope false) s 0 = .ok (c', 13) :=
    (@readCallAt_eq_ok_iff (builtinScope false) [] _ c' 13 (List.cons_ne_nil _ _)).mpr
      ⟨_, _, [], rfl, rfl, hitems, rfl⟩
  obtain ⟨-, items, -, hshown, hshown'⟩ := readCallAt_shown_alike hglobals
    (bindsByName_builtinScope false) hread hread'
  exact ⟨hglobals, bindsByName_builtinScope false, hread, hread', _, hshown, hshown'⟩

end MiniLisp

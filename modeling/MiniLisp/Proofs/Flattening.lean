import Mathlib.Data.List.Forall2
import MiniLisp.Proofs.Calls

/-!
# Flattening

Tuples and lists nest to trees. A place in such a tree is the position of an item, then the position
of an item of this item, and so on; places are ordered from left to right. `flatten` yields what
stands at the places of the leaves, all of them and in their order, if no symbol is among them
(`Value.exists_leaves`). What it yields has no deeper leaves, and it goes through a concatenation
one part after the other (`flatten_yields_leaves`). Trees may be of any depth, since no limit on the
recursion is modelled.
-/

namespace MiniLisp

namespace Value

/-! ## Trees -/

/-- The items of a tuple or of a list. All other values are leaves. -/
def branches? : Value → Option (List Value)
  | tuple items => some items
  | list items => some items
  | _ => Option.none

/-- What stands at a place in a value. -/
def at? : Value → List Nat → Option Value
  | v, [] => some v
  | v, i :: place => (v.branches?.bind (·[i]?)).bind fun u => u.at? place

mutual

/-- Whether a symbol stands in a value. -/
def hasSymbol : Value → Bool
  | symbol _ => true
  | tuple items => anySymbol items
  | list items => anySymbol items
  | _ => false
termination_by structural v => v

/-- Whether a symbol stands in one of several values. -/
def anySymbol : List Value → Bool
  | [] => false
  | v :: vs => v.hasSymbol || anySymbol vs
termination_by structural vs => vs

end

/-- The values `ls` are the leaves of `v` from left to right: they stand at the places of leaves, at
each of them once and in the order of the places. -/
def HasLeaves (v : Value) (ls : List Value) : Prop :=
  ∃ places : List (List Nat), places.Pairwise (List.Lex (· < ·)) ∧
    (∀ place, place ∈ places ↔ ∃ l, v.at? place = some l ∧ l.branches? = Option.none) ∧
    List.Forall₂ (fun place l => v.at? place = some l) places ls

section Trees

variable {v : Value} {items : List Value}

/-- The first number of a place chooses an item. -/
theorem at?_cons (h : v.branches? = some items) (i : Nat) (place : List Nat) :
    v.at? (i :: place) = (items[i]?).bind fun u => u.at? place := by
  rw [at?, h]
  rfl

/-- There is no place below a leaf. -/
theorem at?_cons_of_leaf (h : v.branches? = Option.none) (i : Nat) (place : List Nat) :
    v.at? (i :: place) = Option.none := by
  rw [at?, h]
  rfl

/-- A value that is no leaf is a tuple or a list. -/
theorem eq_of_branches? (h : v.branches? = some items) : v = .tuple items ∨ v = .list items := by
  cases v with
  | tuple _ =>
    cases h
    exact Or.inl rfl
  | list _ =>
    cases h
    exact Or.inr rfl
  | _ => cases h

theorem items?_of_branches? (h : v.branches? = some items) : v.items? = some items := by
  rcases eq_of_branches? h with rfl | rfl
  · rfl
  · rfl

theorem hasSymbol_of_branches? (h : v.branches? = some items) : v.hasSymbol = anySymbol items := by
  rcases eq_of_branches? h with rfl | rfl
  · rw [hasSymbol]
  · rw [hasSymbol]

/-- The leaves of a sequence are those of its items. -/
theorem leaves_of_branches? (h : v.branches? = some items) : v.leaves = leavesOf items := by
  rcases eq_of_branches? h with rfl | rfl
  · rw [leaves]
  · rw [leaves]

/-- A leaf is its own only leaf. -/
theorem leaves_of_leaf (h : v.branches? = Option.none) (hs : v.hasSymbol = false) :
    v.leaves = .ok [v] := by
  cases v with
  | tuple _ => cases h
  | list _ => cases h
  | symbol _ => cases hs
  | _ => rfl

end Trees

mutual

/-- What holds of every leaf, and of a branch if it holds of its items, holds of every value. -/
theorem tree_induction {P : Value → Prop} (hleaf : ∀ v, v.branches? = Option.none → P v)
    (hbranch : ∀ v items, v.branches? = some items → (∀ u ∈ items, P u) → P v) : ∀ v : Value, P v
  | .tuple items => hbranch _ items rfl (tree_induction_items hleaf hbranch items)
  | .list items => hbranch _ items rfl (tree_induction_items hleaf hbranch items)
  | .none => hleaf _ rfl
  | .bool _ => hleaf _ rfl
  | .int _ => hleaf _ rfl
  | .float _ => hleaf _ rfl
  | .symbol _ => hleaf _ rfl
  | .text _ => hleaf _ rfl
  | .function _ => hleaf _ rfl
  | .call _ => hleaf _ rfl
termination_by structural v => v

/-- Induction over sequences, for each of several values. -/
theorem tree_induction_items {P : Value → Prop} (hleaf : ∀ v, v.branches? = Option.none → P v)
    (hbranch : ∀ v items, v.branches? = some items → (∀ u ∈ items, P u) → P v) :
    ∀ vs : List Value, ∀ u ∈ vs, P u
  | [] => by simp
  | v :: vs => List.forall_mem_cons.mpr
      ⟨tree_induction hleaf hbranch v, tree_induction_items hleaf hbranch vs⟩
termination_by structural vs => vs

end

/-! ## The places of leaves -/

mutual

/-- The places of the leaves of a value, from left to right. -/
def leafPlaces : Value → List (List Nat)
  | tuple items => leafPlacesFrom 0 items
  | list items => leafPlacesFrom 0 items
  | _ => [[]]
termination_by structural v => v

/-- The places of the leaves of items, the first of which has the position `i`. -/
def leafPlacesFrom (i : Nat) : List Value → List (List Nat)
  | [] => []
  | v :: vs => v.leafPlaces.map (i :: ·) ++ leafPlacesFrom (i + 1) vs
termination_by structural vs => vs

end

theorem leafPlaces_of_branches? {v : Value} {items : List Value} (h : v.branches? = some items) :
    v.leafPlaces = leafPlacesFrom 0 items := by
  rcases eq_of_branches? h with rfl | rfl
  · rw [leafPlaces]
  · rw [leafPlaces]

theorem leafPlaces_of_leaf {v : Value} (h : v.branches? = Option.none) : v.leafPlaces = [[]] := by
  cases v with
  | tuple _ => cases h
  | list _ => cases h
  | _ => rfl

/-- A place among items begins with the position of one of them. -/
theorem mem_leafPlacesFrom {place : List Nat} (vs : List Value) (i : Nat) :
    place ∈ leafPlacesFrom i vs ↔
      ∃ k u rest, vs[k]? = some u ∧ rest ∈ u.leafPlaces ∧ place = (i + k) :: rest := by
  induction vs generalizing i with
  | nil => simp [leafPlacesFrom]
  | cons v vs ih =>
    rw [leafPlacesFrom, List.mem_append, List.mem_map, ih]
    constructor
    · rintro (⟨rest, hrest, rfl⟩ | ⟨k, u, rest, hk, hrest, rfl⟩)
      · exact ⟨0, v, rest, rfl, hrest, rfl⟩
      · exact ⟨k + 1, u, rest, hk, hrest, by rw [Nat.add_assoc, Nat.add_comm 1 k]⟩
    · rintro ⟨k, u, rest, hk, hrest, rfl⟩
      cases k with
      | zero =>
        cases hk
        exact Or.inl ⟨rest, hrest, rfl⟩
      | succ k =>
        exact Or.inr ⟨k, u, rest, hk, hrest, by rw [Nat.add_assoc, Nat.add_comm 1 k]⟩

/-- The places of leaves are those at which a leaf stands. -/
theorem mem_leafPlaces (place : List Nat) (v : Value) :
    place ∈ v.leafPlaces ↔ ∃ l, v.at? place = some l ∧ l.branches? = Option.none := by
  induction place generalizing v with
  | nil =>
    cases hv : v.branches? with
    | none => simp [leafPlaces_of_leaf hv, at?, hv]
    | some items => simp [leafPlaces_of_branches? hv, mem_leafPlacesFrom, at?, hv]
  | cons i place ih =>
    cases hv : v.branches? with
    | none => simp [leafPlaces_of_leaf hv, at?_cons_of_leaf hv]
    | some items =>
      rw [leafPlaces_of_branches? hv, mem_leafPlacesFrom, at?_cons hv]
      constructor
      · rintro ⟨k, u, rest, hk, hrest, hplace⟩
        rw [Nat.zero_add] at hplace
        cases hplace
        rw [hk]
        exact (ih u).mp hrest
      · rintro ⟨l, hl, hleaf⟩
        obtain ⟨u, hu, hat⟩ := Option.bind_eq_some_iff.mp hl
        exact ⟨i, u, place, hu, (ih u).mpr ⟨l, hat, hleaf⟩, by rw [Nat.zero_add]⟩

/-- Items one after the other have their places one after the other. -/
theorem leafPlacesFrom_ordered {vs : List Value}
    (h : ∀ v ∈ vs, v.leafPlaces.Pairwise (List.Lex (· < ·))) (i : Nat) :
    (leafPlacesFrom i vs).Pairwise (List.Lex (· < ·)) := by
  induction vs generalizing i with
  | nil => simp [leafPlacesFrom]
  | cons v vs ih =>
    obtain ⟨hv, hvs⟩ := List.forall_mem_cons.mp h
    rw [leafPlacesFrom, List.pairwise_append]
    refine ⟨List.pairwise_map.mpr (hv.imp fun hlt => .cons hlt), ih hvs (i + 1), ?_⟩
    intro p hp q hq
    obtain ⟨rest, -, rfl⟩ := List.mem_map.mp hp
    obtain ⟨k, u, rest', -, -, rfl⟩ := (mem_leafPlacesFrom vs (i + 1)).mp hq
    exact .rel (by omega)

/-- The places of leaves come in the order of reading. -/
theorem leafPlaces_ordered (v : Value) : v.leafPlaces.Pairwise (List.Lex (· < ·)) := by
  induction v using tree_induction with
  | hleaf v hv =>
    rw [leafPlaces_of_leaf hv]
    exact List.pairwise_singleton _ _
  | hbranch v items hv ih =>
    rw [leafPlaces_of_branches? hv]
    exact leafPlacesFrom_ordered ih 0

/-! ## The leaves -/

/-- The leaves of the first value come before those of the others. -/
theorem leavesOf_cons {v : Value} {vs ls : List Value} :
    leavesOf (v :: vs) = .ok ls ↔
      ∃ front back, v.leaves = .ok front ∧ leavesOf vs = .ok back ∧ ls = front ++ back := by
  rw [leavesOf]
  cases v.leaves with
  | error e => simp
  | ok front =>
    cases leavesOf vs with
    | error e => simp
    | ok back => simp [eq_comm]

theorem leavesOf_append_eq (xs ys : List Value) :
    leavesOf (xs ++ ys) = (leavesOf xs).bind fun ls => (leavesOf ys).map (ls ++ ·) := by
  induction xs with
  | nil =>
    rw [List.nil_append, leavesOf]
    cases leavesOf ys <;> rfl
  | cons v xs ih =>
    rw [List.cons_append, leavesOf, leavesOf, ih]
    cases v.leaves with
    | error e => rfl
    | ok front =>
      cases leavesOf xs with
      | error e => rfl
      | ok ls =>
        cases leavesOf ys with
        | error e => rfl
        | ok ls' => simp [Except.bind, Except.map]

/-- The leaves of two rows of values one behind the other. -/
theorem leavesOf_append {xs ys ls ls' : List Value} (hx : leavesOf xs = .ok ls)
    (hy : leavesOf ys = .ok ls') : leavesOf (xs ++ ys) = .ok (ls ++ ls') := by
  rw [leavesOf_append_eq, hx, hy]
  rfl

/-- The items of a tuple can stand in its place. -/
theorem leavesOf_tuple_cons (items vs : List Value) :
    leavesOf (tuple items :: vs) = leavesOf (items ++ vs) := by
  rw [leavesOf_append_eq, leavesOf, leaves]
  cases leavesOf items with
  | error e => rfl
  | ok ls => cases leavesOf vs <;> rfl

theorem leavesOf_singleton_tuple {items : List Value} :
    leavesOf [tuple items] = leavesOf items := by
  rw [leavesOf_tuple_cons, List.append_nil]

theorem leavesOf_cons_congr (v : Value) {us vs : List Value} (h : leavesOf us = leavesOf vs) :
    leavesOf (v :: us) = leavesOf (v :: vs) := by
  rw [leavesOf, leavesOf, h]

/-- The leaves of items that stand in a row among all items of a value, from the position `i` on. -/
theorem exists_leavesOf {v : Value} {items vs : List Value} (hv : v.branches? = some items)
    (h : ∀ u ∈ vs, u.hasSymbol = false →
      ∃ ls, u.leaves = .ok ls ∧ List.Forall₂ (fun p l => u.at? p = some l) u.leafPlaces ls)
    (hs : anySymbol vs = false) (i : Nat) (hi : items.drop i = vs) :
    ∃ ls, leavesOf vs = .ok ls ∧
      List.Forall₂ (fun p l => v.at? p = some l) (leafPlacesFrom i vs) ls := by
  induction vs generalizing i with
  | nil => exact ⟨[], rfl, .nil⟩
  | cons u vs ih =>
    obtain ⟨hu, hvs⟩ := List.forall_mem_cons.mp h
    rw [anySymbol, Bool.or_eq_false_iff] at hs
    have hat : items[i]? = some u := by
      rw [← List.head?_drop, hi]
      rfl
    have hnext : items.drop (i + 1) = vs := by
      rw [← List.tail_drop, hi]
      rfl
    obtain ⟨front, hfront, hplaces⟩ := hu hs.1
    obtain ⟨back, hback, hplaces'⟩ := ih hvs hs.2 (i + 1) hnext
    refine ⟨front ++ back, leavesOf_cons.mpr ⟨front, back, hfront, hback, rfl⟩, ?_⟩
    rw [leafPlacesFrom]
    refine List.rel_append (List.forall₂_map_left_iff.mpr ?_) hplaces'
    refine hplaces.imp fun p l hp => ?_
    rw [at?_cons hv, hat]
    exact hp

/-- A value without symbols has leaves, and they stand at the places of leaves. -/
theorem exists_leaves_at (v : Value) (hs : v.hasSymbol = false) :
    ∃ ls, v.leaves = .ok ls ∧ List.Forall₂ (fun p l => v.at? p = some l) v.leafPlaces ls := by
  induction v using tree_induction with
  | hleaf v hv =>
    refine ⟨[v], leaves_of_leaf hv hs, ?_⟩
    rw [leafPlaces_of_leaf hv]
    exact .cons rfl .nil
  | hbranch v items hv ih =>
    rw [hasSymbol_of_branches? hv] at hs
    rw [leaves_of_branches? hv, leafPlaces_of_branches? hv]
    exact exists_leavesOf hv ih hs 0 rfl

/-- **A value without symbols has all its leaves**, from left to right. -/
theorem exists_leaves (v : Value) (hs : v.hasSymbol = false) :
    ∃ ls, v.leaves = .ok ls ∧ v.HasLeaves ls := by
  obtain ⟨ls, hls, hplaces⟩ := exists_leaves_at v hs
  exact ⟨ls, hls, v.leafPlaces, leafPlaces_ordered v, fun p => mem_leafPlaces p v, hplaces⟩

/-! ## Leaves of leaves -/

/-- A leaf is its own leaf. -/
theorem leaves_of_mem_leavesOf {vs ls : List Value}
    (h : ∀ v ∈ vs, ∀ {front}, v.leaves = .ok front → ∀ l ∈ front, l.leaves = .ok [l])
    (hls : leavesOf vs = .ok ls) : ∀ l ∈ ls, l.leaves = .ok [l] := by
  induction vs generalizing ls with
  | nil =>
    cases hls
    simp
  | cons v vs ih =>
    obtain ⟨hv, hvs⟩ := List.forall_mem_cons.mp h
    obtain ⟨front, back, hfront, hback, rfl⟩ := leavesOf_cons.mp hls
    exact List.forall_mem_append.mpr ⟨hv hfront, ih hvs hback⟩

/-- What flattening yields has no deeper leaves. -/
theorem leaves_of_mem_leaves (v : Value) {ls : List Value} (hls : v.leaves = .ok ls) :
    ∀ l ∈ ls, l.leaves = .ok [l] := by
  induction v using tree_induction generalizing ls with
  | hleaf v hv =>
    cases hs : v.hasSymbol with
    | false =>
      rw [leaves_of_leaf hv hs] at hls
      cases hls
      exact List.forall_mem_singleton.mpr (leaves_of_leaf hv hs)
    | true =>
      -- an empty symbol has no leaves, and every other one is refused
      cases v with
      | symbol s =>
        rw [leaves] at hls
        split at hls
        · cases hls
          simp
        · cases hls
      | tuple _ => cases hv
      | list _ => cases hv
      | _ => cases hs
  | hbranch v items hv ih =>
    rw [leaves_of_branches? hv] at hls
    exact leaves_of_mem_leavesOf (fun u hu _ hfront => ih u hu hfront) hls

theorem leavesOf_eq_self {ls : List Value} (h : ∀ l ∈ ls, l.leaves = .ok [l]) :
    leavesOf ls = .ok ls := by
  induction ls with
  | nil => rfl
  | cons l ls ih =>
    obtain ⟨hl, hls⟩ := List.forall_mem_cons.mp h
    exact leavesOf_cons.mpr ⟨[l], ls, hl, ih hls, rfl⟩

/-- Flattening twice is flattening once. -/
theorem leavesOf_leavesOf {vs ls : List Value} (h : leavesOf vs = .ok ls) : leavesOf ls = .ok ls :=
  leavesOf_eq_self (leaves_of_mem_leavesOf (fun v _ _ hv => leaves_of_mem_leaves v hv) h)

/-! ## Sequences -/

/-- The sum of two sequences has the items of both. -/
theorem items?_add {a b sum : Value} {xs ys : List Value} (h : a.add b = .ok sum)
    (ha : a.items? = some xs) (hb : b.items? = some ys) : sum.items? = some (xs ++ ys) := by
  cases a with
  | text s =>
    cases b with
    | text t =>
      cases h
      cases ha
      cases hb
      simp [items?]
    | _ => cases h
  | symbol s =>
    cases b with
    | symbol t =>
      cases h
      cases ha
      cases hb
      simp [items?]
    | _ => cases h
  | tuple _ =>
    cases b with
    | tuple _ =>
      cases h
      cases ha
      cases hb
      rfl
    | _ => cases h
  | list _ =>
    cases b with
    | list _ =>
      cases h
      cases ha
      cases hb
      rfl
    | _ => cases h
  | _ => cases ha

end Value

/-! ## The function -/

/-- Applied to a value, `flatten` yields the tuple of some values and changes nothing. -/
def FlattensTo (v : Value) (ls : List Value) : Prop :=
  ∀ (c : Call) (w : World) (scope : Scope), c.fn = .builtin .flatten →
    c.apply w scope [v] = (w, .ok (.tuple ls))

theorem Call.apply_flatten {c : Call} (hc : c.fn = .builtin .flatten) (w : World) (scope : Scope)
    (v : Value) : c.apply w scope [v] = (w, c.applyFlatten v) := by
  rw [Call.apply, hc]
  rfl

/-- `flatten` goes through the items of its operand. -/
theorem flattensTo_iff {v : Value} {ls : List Value} :
    FlattensTo v ls ↔ ∃ items, v.items? = some items ∧ Value.leavesOf items = .ok ls := by
  constructor
  · intro h
    have happly := h (.begin (.builtin .flatten) []) (World.start false) [] rfl
    rw [Call.apply_flatten rfl] at happly
    have hflat := congrArg Prod.snd happly
    dsimp only at hflat
    unfold Call.applyFlatten at hflat
    split at hflat
    · cases hflat
    · rename_i items hitems
      obtain ⟨ls', hleaves, htuple⟩ := map_eq_ok_iff.mp hflat
      cases htuple
      exact ⟨items, hitems, hleaves⟩
  · rintro ⟨items, hitems, hleaves⟩ c w scope hc
    rw [Call.apply_flatten hc, Call.applyFlatten, hitems]
    dsimp only
    rw [hleaves]
    rfl

/-- A text is flattened to its characters. -/
theorem flattensTo_text (s : String) :
    FlattensTo (.text s) (s.toList.map fun c => .text (String.singleton c)) := by
  refine flattensTo_iff.mpr ⟨_, rfl, Value.leavesOf_eq_self fun l hl => ?_⟩
  obtain ⟨c, -, rfl⟩ := List.mem_map.mp hl
  rfl

/-- **`flatten` yields the leaves in order.** Applied to a tuple or a list in which no symbol
stands, however deep it is nested, it yields the tuple of its leaves from left to right, each of
them once. What it yields is left unchanged when it is flattened again; the sum of two sequences is
flattened to what the first is flattened to, followed by what the second is; and a text on its own
is taken apart into texts of one character. -/
theorem flatten_yields_leaves :
    (∀ v : Value, v.branches?.isSome = true → v.hasSymbol = false →
        ∃ ls, v.HasLeaves ls ∧ FlattensTo v ls) ∧
      (∀ v ls, FlattensTo v ls → FlattensTo (.tuple ls) ls) ∧
      (∀ (a b sum : Value) (ls ls' : List Value), a.add b = .ok sum → FlattensTo a ls →
        FlattensTo b ls' → FlattensTo sum (ls ++ ls')) ∧
      ∀ s : String, FlattensTo (.text s) (s.toList.map fun c => .text (String.singleton c)) := by
  refine ⟨fun v hv hs => ?_, fun v ls h => ?_, fun a b sum ls ls' hsum ha hb => ?_, flattensTo_text⟩
  · obtain ⟨items, hitems⟩ := Option.isSome_iff_exists.mp hv
    obtain ⟨ls, hls, hleaves⟩ := v.exists_leaves hs
    rw [Value.leaves_of_branches? hitems] at hls
    exact ⟨ls, hleaves, flattensTo_iff.mpr ⟨items, Value.items?_of_branches? hitems, hls⟩⟩
  · obtain ⟨items, -, hls⟩ := flattensTo_iff.mp h
    exact flattensTo_iff.mpr ⟨ls, rfl, Value.leavesOf_leavesOf hls⟩
  · obtain ⟨xs, hxs, hls⟩ := flattensTo_iff.mp ha
    obtain ⟨ys, hys, hls'⟩ := flattensTo_iff.mp hb
    exact flattensTo_iff.mpr ⟨xs ++ ys, Value.items?_add hsum hxs hys,
      Value.leavesOf_append hls hls'⟩

/-- A tuple with leaves of every kind, an empty tuple among them, and its sum with itself. -/
theorem flatten_yields_leaves_nested :
    let v : Value := .tuple [.int 1, .list [.tuple [], .text "ab", .tuple [.bool true, .none]],
      .function (.builtin .sum)]
    let ls : List Value := [.int 1, .text "ab", .bool true, .none, .function (.builtin .sum)]
    v.branches?.isSome = true ∧ v.hasSymbol = false ∧ v.HasLeaves ls ∧ FlattensTo v ls ∧
      FlattensTo (.tuple ls) ls ∧ ∃ sum, v.add v = .ok sum ∧ FlattensTo sum (ls ++ ls) := by
  intro v ls
  obtain ⟨hleaves, hagain, hsum, -⟩ := flatten_yields_leaves
  obtain ⟨ls', hls', hflat⟩ := hleaves v rfl rfl
  obtain ⟨items, hitems, hof⟩ := flattensTo_iff.mp hflat
  cases hitems
  cases hof
  exact ⟨rfl, rfl, hls', hflat, hagain v ls hflat, _, rfl, hsum v v _ ls ls rfl hflat hflat⟩

end MiniLisp

import MiniLisp.Proofs.Kinds.Preparation

/-!
# Applying functions to values of a kind

Applied to values of a kind a function makes a value of the kind, and what it adds to the global
scope is of the kind too (`Kind.apply`). Only definitions change the global scope, each by binding
one key (`Call.apply_cases`).
-/

namespace MiniLisp

/-! ## Operations -/

section Operations

variable {P C : Value → Prop} (hK : Kind P C) {a b v : Value} {vs : List Value}

/-- An answer that is wrapped without looking at it. -/
theorem prop_of_map_eq_ok {α : Type} {r : Except Error α} {f : α → Value} (hf : ∀ a, P (f a))
    (h : r.map f = .ok v) : P v := by
  obtain ⟨a, -, rfl⟩ := map_eq_ok_iff.mp h
  exact hf a

/-- Combining values of a kind gives a value of the kind if the operation does. -/
theorem prop_of_combine {op : Value → Value → Except Error Value}
    (hop : ∀ a b v, P a → P b → op a b = .ok v → P v) (hvs : ∀ u ∈ vs, P u)
    (h : Value.combine op vs = .ok v) : P v := by
  cases vs with
  | nil => cases h
  | cons a vs =>
    rw [Value.combine] at h
    have ha : P a := hvs a List.mem_cons_self
    have hrest : ∀ u ∈ vs, P u := fun u hu => hvs u (List.mem_cons_of_mem a hu)
    clear hvs
    induction vs generalizing a with
    | nil =>
      rw [List.foldlM_nil] at h
      cases h
      exact ha
    | cons b vs ih =>
      rw [List.foldlM_cons] at h
      cases hab : op a b with
      | error e => rw [hab] at h; cases h
      | ok u =>
        rw [hab] at h
        exact ih u h (hop a b u ha (hrest b List.mem_cons_self) hab)
          fun x hx => hrest x (List.mem_cons_of_mem b hx)

/-- The last argument is one of the arguments. -/
theorem prop_of_lastArg (hvs : ∀ u ∈ vs, P u) (h : Call.lastArg vs = .ok v) : P v := by
  unfold Call.lastArg at h
  split at h
  · rename_i u hl
    cases h
    exact hvs _ (List.mem_of_getLast? hl)
  · cases h

/-- What a function of one argument makes is of a kind if the operation makes it so. -/
theorem prop_of_unary {op : Value → Except Error Value} (hop : ∀ a ∈ vs, op a = .ok v → P v)
    (h : Call.unary op vs = .ok v) : P v := by
  unfold Call.unary at h
  split at h
  · exact hop _ List.mem_cons_self h
  · cases h

/-- What a function of two arguments makes is of a kind if the operation makes it so. -/
theorem prop_of_binary {op : Value → Value → Except Error Value}
    (hop : ∀ a, ∀ b ∈ vs, op a b = .ok v → P v) (h : Call.binary op vs = .ok v) : P v := by
  unfold Call.binary at h
  split at h
  · exact hop _ _ (by simp) h
  · cases h

include hK

/-- Numbers are atoms, and so of every kind. -/
theorem Kind.toValue (n : Number) : P n.toValue := by
  cases n <;> exact hK.atom rfl

theorem Kind.onNumbers {op : Number → Number → Except Error Number}
    (h : Value.onNumbers op a b = .ok v) : P v := by
  unfold Value.onNumbers at h
  split at h
  · exact prop_of_map_eq_ok hK.toValue h
  · cases h

/-- Sums of texts and of sequences hold what their operands hold. -/
theorem Kind.add (ha : P a) (hb : P b) (h : a.add b = .ok v) : P v := by
  unfold Value.add at h
  split at h
  · cases h
    exact hK.atom rfl
  · cases h
  · cases h
    exact hK.atom rfl
  · cases h
    rw [hK.tuple] at ha hb ⊢
    exact fun u hu => (List.mem_append.mp hu).elim (ha u) (hb u)
  · cases h
    rw [hK.list] at ha hb ⊢
    exact fun u hu => (List.mem_append.mp hu).elim (ha u) (hb u)
  · exact hK.onNumbers h

theorem Kind.mod (h : a.mod b = .ok v) : P v := by
  unfold Value.mod at h
  cases a with
  | symbol s => exact prop_of_map_eq_ok (fun _ => hK.atom rfl) h
  | _ => exact hK.onNumbers h

theorem Kind.neg (h : a.neg = .ok v) : P v := by
  unfold Value.neg at h
  split at h
  · cases h
    exact hK.toValue _
  · cases h

theorem Kind.sqrt (h : a.sqrt = .ok v) : P v := by
  unfold Value.sqrt at h
  split at h
  · exact prop_of_map_eq_ok hK.toValue h
  · cases h

theorem Kind.charCode (h : a.charCode = .ok v) : P v := by
  unfold Value.charCode at h
  split at h
  · split at h
    · cases h
      exact hK.atom rfl
    · cases h
  · cases h

theorem Kind.codeChar (h : a.codeChar = .ok v) : P v := by
  have hcode : ∀ n, Value.codeChar.ofCode n = .ok v → P v := by
    intro n h
    unfold Value.codeChar.ofCode at h
    split at h
    · cases h
    · split at h
      · cases h
      · cases h
        exact hK.atom rfl
  unfold Value.codeChar at h
  split at h
  · exact hcode _ h
  · exact hcode _ h
  · cases h

/-- The item at a position is an item of the sequence. -/
theorem Kind.nth (hb : P b) (h : a.nth b = .ok v) : P v := by
  unfold Value.nth at h
  split at h
  · rename_i items k hi _
    split at h
    · rename_i p _
      cases h
      rw [List.getD_eq_getElem?_getD]
      cases hp : items[p]? with
      | none => exact hK.atom rfl
      | some u => exact hK.items hb hi u (List.mem_of_getElem? hp)
    · cases h
  · cases h

omit hK

mutual

/-- The leaves of a value of a kind are of the kind. -/
theorem Kind.leaves (hK : Kind P C) : (a : Value) → {ls : List Value} → P a →
    a.leaves = .ok ls → ∀ u ∈ ls, P u
  | .tuple items, _, ha, h => by
    rw [Value.leaves] at h
    exact Kind.leavesOf hK items (hK.tuple.mp ha) h
  | .list items, _, ha, h => by
    rw [Value.leaves] at h
    exact Kind.leavesOf hK items (hK.list.mp ha) h
  | .symbol s, ls, _, h => by
    rw [Value.leaves] at h
    split at h
    · cases h
      simp
    · cases h
  | .none, _, ha, h => by cases h; simpa using ha
  | .bool _, _, ha, h => by cases h; simpa using ha
  | .int _, _, ha, h => by cases h; simpa using ha
  | .float _, _, ha, h => by cases h; simpa using ha
  | .text _, _, ha, h => by cases h; simpa using ha
  | .function _, _, ha, h => by cases h; simpa using ha
  | .call _, _, ha, h => by cases h; simpa using ha

/-- The leaves of values of a kind are of the kind. -/
theorem Kind.leavesOf (hK : Kind P C) : (vs : List Value) → {ls : List Value} →
    (∀ v ∈ vs, P v) → Value.leavesOf vs = .ok ls → ∀ u ∈ ls, P u
  | [], _, _, h => by
    cases h
    simp
  | v :: vs, ls, hvs, h => by
    rw [Value.leavesOf] at h
    cases hv : v.leaves with
    | error e => rw [hv] at h; cases h
    | ok l1 =>
      rw [hv] at h
      dsimp only at h
      cases hr : Value.leavesOf vs with
      | error e => rw [hr] at h; cases h
      | ok l2 =>
        rw [hr] at h
        cases h
        intro u hu
        rcases List.mem_append.mp hu with hu | hu
        · exact Kind.leaves hK v (hvs v List.mem_cons_self) hv u hu
        · exact Kind.leavesOf hK vs (fun x hx => hvs x (List.mem_cons_of_mem v hx)) hr u hu

end

include hK

/-- Flattening keeps the leaves and makes nothing new. -/
theorem Kind.applyFlatten {c : Call} (ha : P a) (h : c.applyFlatten a = .ok v) : P v := by
  unfold Call.applyFlatten at h
  split at h
  · cases h
  · rename_i items hi
    obtain ⟨ls, hl, rfl⟩ := map_eq_ok_iff.mp h
    rw [hK.tuple]
    exact hK.leavesOf items (hK.items ha hi) hl

theorem Kind.applyDifference (ha : ∀ u ∈ vs, P u) (h : Call.applyDifference vs = .ok v) : P v := by
  unfold Call.applyDifference at h
  split at h
  · exact hK.neg h
  · exact prop_of_combine (fun a b u _ _ => hK.onNumbers) ha h

/-- A builtin that does not change the world makes a value of a kind from values of the kind. -/
theorem Kind.applyPure {c : Call} {f : Builtin} (ha : ∀ u ∈ vs, P u)
    (h : c.applyPure f vs = .ok v) : P v := by
  unfold Call.applyPure at h
  split at h
  · exact prop_of_unary (fun a _ hv => by cases hv; exact hK.atom rfl) h
  · exact prop_of_map_eq_ok (fun _ => hK.atom rfl) h
  · exact prop_of_binary (fun a b _ hv => prop_of_map_eq_ok (fun _ => hK.atom rfl) hv) h
  · cases h
    exact hK.atom rfl
  · cases h
    exact hK.atom rfl
  · exact prop_of_unary (fun a _ hv => hK.charCode hv) h
  · exact prop_of_unary (fun a _ hv => hK.codeChar hv) h
  · split at h
    · exact prop_of_lastArg ha h
    · cases h
      exact hK.atom rfl
  · split at h
    · exact prop_of_lastArg ha h
    · cases h
      exact hK.atom rfl
  · exact prop_of_binary (fun a b _ hv => hK.mod hv) h
  · exact prop_of_combine (fun a b u => hK.add) ha h
  · exact hK.applyDifference ha h
  · exact prop_of_unary (fun a _ hv => hK.sqrt hv) h
  · exact prop_of_unary (fun a _ hv => prop_of_map_eq_ok (fun _ => hK.atom rfl) hv) h
  · exact prop_of_binary (fun a b hb hv => hK.nth (ha b hb) hv) h
  · exact prop_of_unary (fun a hm hv => hK.applyFlatten (ha a hm) hv) h
  · cases h
    exact hK.atom rfl
  · exact prop_of_lastArg ha h

end Operations

/-! ## Changes of the world -/

section Changes

variable {w w' : World} {scope : Scope} {c : Call} {args : List Value} {v : Value}
  {r : Except Error Value}

/-- Writing values adds to the text written. -/
theorem World.exists_writeValues_eq (w : World) (vs : List Value) :
    ∃ text, (w.writeValues vs).1 = w.write text := by
  induction vs generalizing w with
  | nil => exact ⟨"", by simp [World.writeValues, World.write]⟩
  | cons v vs ih =>
    unfold World.writeValues
    cases v.printed with
    | error e => exact ⟨"", by simp [World.write]⟩
    | ok s =>
      cases vs with
      | nil => exact ⟨s, rfl⟩
      | cons u vs =>
        obtain ⟨text, htext⟩ := ih (w.write (s ++ " "))
        exact ⟨s ++ " " ++ text, htext.trans (by simp [World.write, String.append_assoc])⟩

/-- Printing only writes, even where a value cannot be written. -/
theorem World.exists_print_eq (w : World) (vs : List Value) :
    ∃ text, (w.print vs).1 = w.write text := by
  obtain ⟨text, htext⟩ := World.exists_writeValues_eq w vs
  unfold World.print
  rcases hw : w.writeValues vs with ⟨w1, r⟩
  rw [hw] at htext
  cases r with
  | error e => exact ⟨text, htext⟩
  | ok _ =>
    refine ⟨text ++ "\n", ?_⟩
    show w1.write "\n" = _
    have hw1 : w1 = w.write text := htext
    rw [hw1]
    simp [World.write, String.append_assoc]

theorem World.globals_print (w : World) (vs : List Value) :
    (w.print vs).1.globals = w.globals := by
  obtain ⟨text, htext⟩ := World.exists_print_eq w vs
  rw [htext]
  rfl

/-- Printing gives none. -/
theorem World.print_value {vs : List Value} (h : w.print vs = (w', .ok v)) : v = .none := by
  unfold World.print at h
  split at h
  · cases h
  · cases h
    rfl

/-- Defining a function changes nothing, or it makes the function and binds its name. -/
theorem World.define_cases {name : Value} {params : List Value} {variadic : Bool} {body : Value}
    {captures : Scope} (h : w.define name params variadic body captures = (w', r)) :
    (w' = w ∧ ∃ e, r = .error e) ∨
      ∃ globals, w.globals.insert name (.function (.user
          ⟨w.made, name, params, variadic, body, captures⟩)) = .ok globals ∧
        w' = { w with globals := globals, made := w.made + 1 } ∧
          r = .ok (.function (.user ⟨w.made, name, params, variadic, body, captures⟩)) := by
  unfold World.define at h
  split at h
  · cases h
    exact Or.inl ⟨rfl, _, rfl⟩
  · split at h
    · cases h
      exact Or.inl ⟨rfl, _, rfl⟩
    · dsimp only at h
      split at h
      · cases h
        exact Or.inl ⟨rfl, _, rfl⟩
      · rename_i globals hi
        cases h
        exact Or.inr ⟨globals, hi, rfl, rfl⟩

/-- A definition fails, or defines a function with the body that the call has kept. -/
theorem Call.applyDefine_cases {captures : Scope} (h : c.applyDefine w captures args = (w', r)) :
    (w' = w ∧ ∃ e, r = .error e) ∨
      ∃ name params, args = name :: params ∧
        w.define (Call.bindingName name) params (hasRest c.args) c.body captures = (w', r) := by
  cases args with
  | nil =>
    cases h
    exact Or.inl ⟨rfl, _, rfl⟩
  | cons name params => exact Or.inr ⟨name, params, rfl, h⟩

/-- A lambda fails, or captures its variables and defines a function without a name. -/
theorem Call.applyLambda_cases (h : c.applyLambda w scope args = (w', r)) :
    (w' = w ∧ ∃ e, r = .error e) ∨
      ∃ names params items captures, args = names :: params ∧ names.items? = some items ∧
        capture scope w.globals c [] items = .ok captures ∧
          c.applyDefine w captures (.symbol "" :: params) = (w', r) := by
  cases args with
  | nil =>
    cases h
    exact Or.inl ⟨rfl, _, rfl⟩
  | cons names params =>
    rw [Call.applyLambda] at h
    cases hi : names.items? with
    | none =>
      rw [hi] at h
      cases h
      exact Or.inl ⟨rfl, _, rfl⟩
    | some items =>
      rw [hi] at h
      dsimp only at h
      cases hc : capture scope w.globals c [] items with
      | error e =>
        rw [hc] at h
        cases h
        exact Or.inl ⟨rfl, _, rfl⟩
      | ok captures =>
        rw [hc] at h
        exact Or.inr ⟨names, params, items, captures, rfl, hi, hc, h⟩

/-- **What applying a function does to the world**: nothing, or it writes a text, or it makes a
function and binds a key to it. -/
theorem Call.apply_cases (h : c.apply w scope args = (w', r)) :
    w' = w ∨ (∃ text, w' = w.write text) ∨
      ∃ k d globals, d.id = w.made ∧ w.globals.insert k (.function (.user d)) = .ok globals ∧
        w' = { w with globals := globals, made := w.made + 1 } := by
  have hdefine : ∀ captures args, c.applyDefine w captures args = (w', r) →
      w' = w ∨ (∃ text, w' = w.write text) ∨
        ∃ k d globals, d.id = w.made ∧ w.globals.insert k (.function (.user d)) = .ok globals ∧
          w' = { w with globals := globals, made := w.made + 1 } := by
    intro captures args h
    rcases Call.applyDefine_cases h with ⟨rfl, -⟩ | ⟨name, params, -, h⟩
    · exact Or.inl rfl
    · rcases World.define_cases h with ⟨rfl, -⟩ | ⟨globals, hi, rfl, -⟩
      · exact Or.inl rfl
      · exact Or.inr (Or.inr ⟨_, _, globals, rfl, hi, rfl⟩)
  unfold Call.apply at h
  split at h
  · obtain ⟨text, htext⟩ := World.exists_print_eq w args
    rw [h] at htext
    exact Or.inr (Or.inl ⟨text, htext⟩)
  · exact hdefine _ _ h
  · rcases Call.applyLambda_cases h with ⟨rfl, -⟩ | ⟨_, _, _, captures, -, -, -, h⟩
    · exact Or.inl rfl
    · exact hdefine _ _ h
  · cases h
    exact Or.inl rfl
  · cases h
    exact Or.inl rfl

variable {P C : Value → Prop} (hK : Kind P C)
include hK

/-- A defined function is of the kind if its body and its captures are. -/
theorem Kind.define {name : Value} {params : List Value} {variadic : Bool} {body : Value}
    {captures : Scope} (hg : w.globals.All P) (hb : C body) (hc : captures.All P)
    (h : w.define name params variadic body captures = (w', r)) :
    w'.globals.All P ∧ ∀ v, r = .ok v → P v := by
  rcases World.define_cases h with ⟨rfl, e, rfl⟩ | ⟨globals, hi, rfl, rfl⟩
  · exact ⟨hg, by simp⟩
  · have hf : P (.function (.user ⟨w.made, name, params, variadic, body, captures⟩)) :=
      hK.made hb hc
    refine ⟨hg.insert hf hi, ?_⟩
    rintro v ⟨⟩
    exact hf

/-- Captured values are of the kind. -/
theorem Kind.capture {globals captures captures' : Scope} {names : List Value}
    (hs : scope.All P) (hg : globals.All P) (hn : ∀ u ∈ names, P u) (hc : captures.All P)
    (h : capture scope globals c captures names = .ok captures') : captures'.All P := by
  induction names generalizing captures with
  | nil =>
    cases h
    exact hc
  | cons name names ih =>
    rw [MiniLisp.capture] at h
    cases hl : MiniLisp.lookup scope globals c name with
    | error e => rw [hl] at h; cases h
    | ok r =>
      obtain ⟨expand, v⟩ := r
      rw [hl] at h
      dsimp only at h
      cases hi : captures.insert name v with
      | error e => rw [hi] at h; cases h
      | ok captures1 =>
        rw [hi] at h
        have hname : P name := hn name List.mem_cons_self
        have hv : P v := by
          rcases hK.lookup hs hg (hK.ofValue hname) hl with hv | ⟨-, -, hcall⟩
          · exact hv
          · rw [hK.value hname] at hcall
            cases hcall
        cases expand with
        | true => cases h
        | false => exact ih (fun u hu => hn u (List.mem_cons_of_mem name hu)) (hc.insert hv hi) h

/-- **Applying a function to values of a kind** adds only values of the kind to the global scope,
and if there is a value it is of the kind. -/
theorem Kind.apply (hs : scope.All P) (hg : w.globals.All P)
    (hb : c.fn.isDefining = true → C c.body) (ha : ∀ u ∈ args, P u)
    (h : c.apply w scope args = (w', r)) : w'.globals.All P ∧ ∀ v, r = .ok v → P v := by
  have hdefine : ∀ captures args, C c.body → captures.All P →
      c.applyDefine w captures args = (w', r) → w'.globals.All P ∧ ∀ v, r = .ok v → P v := by
    intro captures args hb hc h
    rcases Call.applyDefine_cases h with ⟨rfl, e, rfl⟩ | ⟨name, params, -, h⟩
    · exact ⟨hg, by simp⟩
    · exact hK.define hg hb hc h
  unfold Call.apply at h
  split at h
  · refine ⟨?_, ?_⟩
    · have hglobals : w'.globals = w.globals := by rw [← World.globals_print w args, h]
      rw [hglobals]
      exact hg
    · rintro v rfl
      rw [World.print_value h]
      exact hK.atom rfl
  · rename_i hfn
    exact hdefine _ _ (hb (by rw [hfn]; rfl)) Scope.all_nil h
  · rename_i hfn
    rcases Call.applyLambda_cases h with ⟨rfl, e, rfl⟩ | ⟨names, _, items, _, rfl, hi, hc, h⟩
    · exact ⟨hg, by simp⟩
    · have hitems := hK.items (ha names List.mem_cons_self) hi
      exact hdefine _ _ (hb (by rw [hfn]; rfl)) (hK.capture hs hg hitems Scope.all_nil hc) h
  · cases h
    exact ⟨hg, fun v hv => hK.applyPure ha hv⟩
  · cases h
    exact ⟨hg, fun v hv => prop_of_lastArg ha hv⟩

end Changes

end MiniLisp

import MiniLisp.Proofs.Similarity.Preparation
import MiniLisp.Proofs.Similarity.Templates

/-!
# Applying similar functions

Similar functions do similar things with similar arguments (`Call.Alike.apply`). Functions that
are compared, called, passed on, put into lists and printed show nothing but whether they are the
same. The functions that are defined in similar worlds get numbers that correspond to each other.
-/

namespace MiniLisp

/-- Similar worlds: with similar global scopes and the same text written. The functions that are
made next correspond to each other. -/
structure World.Similar (M : Revision) (w w' : World) : Prop where
  globals : Scope.Similar M w.globals w'.globals
  output : w.output = w'.output
  numbers : ∀ i, M.origin (w'.made + i) = some (w.made + i)

section Similarity

variable {M : Revision} {c d : Call} {scope scope' : Scope} {w w' : World}
  {v u a b a' b' : Value} {vs us : List Value}

/-! ## Operations on values -/

theorem Number.isAtom_toValue (n : Number) : n.toValue.isAtom = true := by
  cases n <;> rfl

/-- What is computed from the same numbers agrees. -/
theorem agree_map_toValue (r : Except Error Number) :
    Agree (Value.Similar M) (r.map Number.toValue) (r.map Number.toValue) := by
  cases r with
  | error e => exact .error e
  | ok n => exact .ok (.atom n.isAtom_toValue)

/-- Operations on numbers look at nothing but the numbers. -/
theorem onNumbers_similar (op : Number → Number → Except Error Number) (ha : a.Similar M a')
    (hb : b.Similar M b') :
    Agree (Value.Similar M) (Value.onNumbers op a b) (Value.onNumbers op a' b') := by
  unfold Value.onNumbers
  rw [ha.number?_eq, hb.number?_eq]
  split
  · exact agree_map_toValue _
  · exact .error _

/-- Similar values have similar sums. -/
theorem add_similar (ha : a.Similar M a') (hb : b.Similar M b') :
    Agree (Value.Similar M) (a.add b) (a'.add b') := by
  have hnumbers := onNumbers_similar Number.add ha hb
  cases ha with
  | atom h =>
    cases a with
    | tuple _ | list _ | function _ | call _ => cases h
    | text s =>
      cases hb with
      | atom h' =>
        cases b with
        | text t => exact .ok (.atom rfl)
        | _ => exact .error _
      | _ => exact .error _
    | symbol s =>
      cases hb with
      | atom h' =>
        cases b with
        | symbol t => exact .ok (.atom rfl)
        | _ => exact hnumbers
      | _ => exact hnumbers
    | _ => exact hnumbers
  | tuple h =>
    cases hb with
    | tuple h' => exact .ok (.tuple (List.rel_append h h'))
    | atom h' =>
      cases b with
      | tuple _ => cases h'
      | _ => exact hnumbers
    | _ => exact hnumbers
  | list h =>
    cases hb with
    | list h' => exact .ok (.list (List.rel_append h h'))
    | atom h' =>
      cases b with
      | list _ => cases h'
      | _ => exact hnumbers
    | _ => exact hnumbers
  | function h _ => exact hnumbers
  | call h => exact hnumbers

/-- Similar values have the same remainder, and similar values fill a template alike. -/
theorem mod_similar (ha : a.Similar M a') (hb : b.Similar M b') :
    Agree (Value.Similar M) (a.mod b) (a'.mod b') := by
  have hnumbers := onNumbers_similar Number.mod ha hb
  cases ha with
  | atom h =>
    cases a with
    | symbol s =>
      rw [Value.mod, Value.mod, fillTemplate_similar s hb]
      cases fillTemplate s b' with
      | error e => exact .error e
      | ok text => exact .ok (.atom rfl)
    | tuple _ | list _ | function _ | call _ => cases h
    | _ => exact hnumbers
  | _ => exact hnumbers

/-- The negative of a value depends on its number only. -/
theorem neg_similar (h : a.Similar M a') : Agree (Value.Similar M) a.neg a'.neg := by
  unfold Value.neg
  rw [h.number?_eq]
  split
  · exact .ok (.atom (Number.isAtom_toValue _))
  · exact .error _

/-- So does its square root. -/
theorem sqrt_similar (h : a.Similar M a') : Agree (Value.Similar M) a.sqrt a'.sqrt := by
  unfold Value.sqrt
  rw [h.number?_eq]
  split
  · exact agree_map_toValue _
  · exact .error _

/-- Similar values have the same character code. -/
theorem charCode_similar (h : a.Similar M a') : Agree (Value.Similar M) a.charCode a'.charCode := by
  cases h with
  | atom h =>
    cases a with
    | text s =>
      rw [Value.charCode]
      split
      · exact .ok (.atom rfl)
      · exact .error _
    | _ => exact .error _
  | _ => exact .error _

/-- Similar values are the code of the same character. -/
theorem codeChar_similar (h : a.Similar M a') : Agree (Value.Similar M) a.codeChar a'.codeChar := by
  have hcode : ∀ n,
      Agree (Value.Similar M) (Value.codeChar.ofCode n) (Value.codeChar.ofCode n) := by
    intro n
    unfold Value.codeChar.ofCode
    split
    · exact .error _
    · split
      · exact .error _
      · exact .ok (.atom rfl)
  cases h with
  | atom h =>
    cases a with
    | int n => exact hcode n
    | bool b => exact hcode _
    | _ => exact .error _
  | _ => exact .error _

/-- An operation that agrees on similar values agrees when it goes through similar lists. -/
theorem combine_similar {op : Value → Value → Except Error Value}
    (hop : ∀ {a b a' b' : Value}, a.Similar M a' → b.Similar M b' →
      Agree (Value.Similar M) (op a b) (op a' b'))
    (h : List.Forall₂ (Value.Similar M) vs us) :
    Agree (Value.Similar M) (Value.combine op vs) (Value.combine op us) := by
  cases h with
  | nil => exact .error _
  | @cons v u vs us hv h =>
    rw [Value.combine, Value.combine]
    induction h generalizing v u with
    | nil => exact .ok hv
    | @cons x y _ _ hxy _ ih =>
      rw [List.foldlM_cons, List.foldlM_cons]
      rcases (hop hv hxy).cases with ⟨e, h1, h2⟩ | ⟨r, r', h1, h2, hr⟩
      · rw [h1, h2]
        exact .error e
      · rw [h1, h2]
        exact ih hr

/-- Similar values have the same length. -/
theorem length_similar (h : v.Similar M u) : v.length = u.length := by
  unfold Value.length
  rcases h.items? with ⟨h1, h2⟩ | ⟨xs, ys, h1, h2, hitems⟩
  · simp only [h1, h2]
  · simp only [h1, h2, hitems.length_eq]

/-- Similar values have similar items at each index. -/
theorem nth_similar (ha : a.Similar M a') (hv : v.Similar M u) :
    Agree (Value.Similar M) (Value.nth a v) (Value.nth a' u) := by
  unfold Value.nth
  rw [ha.index?_eq]
  rcases hv.items? with ⟨h1, h2⟩ | ⟨xs, ys, h1, h2, hitems⟩
  · rw [h1, h2]
    exact .error _
  · rw [h1, h2]
    cases a'.index? with
    | none => exact .error _
    | some k =>
      dsimp only
      rw [hitems.length_eq]
      cases Value.position? ys.length k with
      | none => exact .error _
      | some p =>
        refine .ok ?_
        rw [List.getD_eq_getElem?_getD, List.getD_eq_getElem?_getD]
        have hitem := forall₂_getElem? hitems p
        generalize xs[p]? = x at hitem ⊢
        generalize ys[p]? = y at hitem ⊢
        cases hitem with
        | none => exact .atom rfl
        | some h => exact h

mutual

/-- Similar values have similar leaves, in the same order. -/
theorem leaves_similar (v : Value) {u : Value} (h : v.Similar M u) :
    Agree (List.Forall₂ (Value.Similar M)) v.leaves u.leaves := by
  cases v with
  | tuple items =>
    cases h with
    | atom h => cases h
    | tuple h => exact leavesOf_similar items h
  | list items =>
    cases h with
    | atom h => cases h
    | list h => exact leavesOf_similar items h
  | function f =>
    cases h with
    | atom h => cases h
    | function h hnumber => exact .ok (.cons (.function h hnumber) .nil)
  | call c =>
    cases h with
    | atom h => cases h
    | call h => exact .ok (.cons (.call h) .nil)
  | symbol s =>
    cases h
    rw [Value.leaves]
    split
    · exact .ok .nil
    · exact .error _
  | _ =>
    cases h
    exact .ok (.cons (.atom rfl) .nil)

theorem leavesOf_similar (vs : List Value) {us : List Value}
    (h : List.Forall₂ (Value.Similar M) vs us) :
    Agree (List.Forall₂ (Value.Similar M)) (Value.leavesOf vs) (Value.leavesOf us) := by
  cases vs with
  | nil =>
    cases h
    exact .ok .nil
  | cons v vs =>
    cases h with
    | cons hv h =>
      rw [Value.leavesOf, Value.leavesOf]
      rcases (leaves_similar v hv).cases with ⟨e, h1, h2⟩ | ⟨xs, ys, h1, h2, hfirst⟩
      · rw [h1, h2]
        exact .error e
      · rw [h1, h2]
        dsimp only
        rcases (leavesOf_similar vs h).cases with ⟨e, h1, h2⟩ | ⟨xs', ys', h1, h2, hrest⟩
        · rw [h1, h2]
          exact .error e
        · rw [h1, h2]
          exact .ok (List.rel_append hfirst hrest)

end

/-! ## Builtin functions that leave the world alone -/

/-- An operation on one value agrees on similar arguments. -/
theorem unary_similar {op op' : Value → Except Error Value}
    (hop : ∀ {a a' : Value}, a.Similar M a' → Agree (Value.Similar M) (op a) (op' a'))
    (h : List.Forall₂ (Value.Similar M) vs us) :
    Agree (Value.Similar M) (Call.unary op vs) (Call.unary op' us) := by
  cases h with
  | nil => exact .error _
  | cons hv h =>
    cases h with
    | nil => exact hop hv
    | cons _ _ => exact .error _

/-- An operation on two values agrees on similar arguments. -/
theorem binary_similar {op op' : Value → Value → Except Error Value}
    (hop : ∀ {a b a' b' : Value}, a.Similar M a' → b.Similar M b' →
      Agree (Value.Similar M) (op a b) (op' a' b'))
    (h : List.Forall₂ (Value.Similar M) vs us) :
    Agree (Value.Similar M) (Call.binary op vs) (Call.binary op' us) := by
  cases h with
  | nil => exact .error _
  | cons ha h =>
    cases h with
    | nil => exact .error _
    | cons hb h =>
      cases h with
      | nil => exact hop ha hb
      | cons _ _ => exact .error _

/-- `-` agrees on similar arguments, whether there is one or more. -/
theorem applyDifference_similar (h : List.Forall₂ (Value.Similar M) vs us) :
    Agree (Value.Similar M) (Call.applyDifference vs) (Call.applyDifference us) := by
  have hcombine : Agree (Value.Similar M) (Value.combine Value.sub vs)
      (Value.combine Value.sub us) :=
    combine_similar (onNumbers_similar Number.sub) h
  cases h with
  | nil => exact hcombine
  | cons ha h =>
    cases h with
    | nil => exact neg_similar ha
    | cons _ _ => exact hcombine

/-- The last of similar arguments is similar. -/
theorem lastArg_similar (h : List.Forall₂ (Value.Similar M) vs us) :
    Agree (Value.Similar M) (Call.lastArg vs) (Call.lastArg us) := by
  unfold Call.lastArg
  have hlast := forall₂_getLast? h
  generalize vs.getLast? = x at hlast ⊢
  generalize us.getLast? = y at hlast ⊢
  cases hlast with
  | none => exact .error _
  | some h => exact .ok h

/-- `flatten` agrees on similar values. -/
theorem Call.Alike.applyFlatten (h : c.Alike M d) (hv : v.Similar M u) :
    Agree (Value.Similar M) (c.applyFlatten v) (d.applyFlatten u) := by
  unfold Call.applyFlatten
  rcases hv.items? with ⟨h1, h2⟩ | ⟨xs, ys, h1, h2, hitems⟩
  · rw [h1, h2, Call.fail_congr h.write_eq]
    exact .error _
  · rw [h1, h2]
    exact (leavesOf_similar xs hitems).map fun _ _ h => .tuple h

/-- The builtins that leave the world alone agree on similar arguments. -/
theorem Call.Alike.applyPure (h : c.Alike M d) (b : Builtin)
    (hargs : List.Forall₂ (Value.Similar M) vs us) :
    Agree (Value.Similar M) (c.applyPure b vs) (d.applyPure b us) := by
  have hlen := hargs.length_eq
  unfold Call.applyPure
  cases b with
  | negation =>
    refine unary_similar (fun ha => ?_) hargs
    rw [ha.isTrue_eq]
    exact .ok (.atom rfl)
  | equality =>
    dsimp only
    rw [similar_allEqual_eq hargs]
    cases Value.allEqual us with
    | error e => exact .error e
    | ok same => exact .ok (.atom rfl)
  | lessThan =>
    refine binary_similar (fun {a b a' b'} ha hb => ?_) hargs
    rw [Value.Similar.less_eq a ha hb]
    cases a'.less b' with
    | error e => exact .error e
    | ok less => exact .ok (.atom rfl)
  | remainder => exact binary_similar mod_similar hargs
  | nothing | truth | load => exact .ok (.atom rfl)
  | charToInt => exact unary_similar charCode_similar hargs
  | intToChar => exact unary_similar codeChar_similar hargs
  | choice =>
    dsimp only
    rw [h.args.length_eq, hlen]
    split
    · exact lastArg_similar hargs
    · exact .ok (.atom rfl)
  | branch =>
    dsimp only
    rw [hlen]
    split
    · exact lastArg_similar hargs
    · exact .ok (.atom rfl)
  | sum => exact combine_similar add_similar hargs
  | difference => exact applyDifference_similar hargs
  | squareRoot => exact unary_similar sqrt_similar hargs
  | length =>
    refine unary_similar (fun ha => ?_) hargs
    rw [length_similar ha]
    cases Value.length _ with
    | error e => exact .error e
    | ok n => exact .ok (.atom rfl)
  | nth => exact binary_similar nth_similar hargs
  | flatten => exact unary_similar h.applyFlatten hargs
  | _ => exact lastArg_similar hargs

/-! ## Printing and defining -/

/-- Similar worlds stay similar when the same text is written. -/
theorem World.Similar.write (hw : w.Similar M w') (s : String) :
    (w.write s).Similar M (w'.write s) :=
  ⟨hw.globals, congrArg (· ++ s) hw.output, hw.numbers⟩

/-- The world and the result of a computation that changes the world. -/
def AgreeIn {α β : Type} (M : Revision) (R : α → β → Prop)
    (r : World × Except Error α) (r' : World × Except Error β) : Prop :=
  r.1.Similar M r'.1 ∧ Agree R r.2 r'.2

/-- Similar values are written alike, up to the first that cannot be written. -/
theorem World.Similar.writeValues (hw : w.Similar M w')
    (h : List.Forall₂ (Value.Similar M) vs us) :
    AgreeIn M (fun _ _ => True) (w.writeValues vs) (w'.writeValues us) := by
  induction h generalizing w w' with
  | nil => exact ⟨hw, .ok trivial⟩
  | @cons v u vs us hv h ih =>
    unfold World.writeValues
    rw [hv.printed_eq]
    cases u.printed with
    | error e => exact ⟨hw, .error e⟩
    | ok s =>
      cases h with
      | nil => exact ⟨hw.write s, .ok trivial⟩
      | cons _ _ => exact ih (hw.write (s ++ " "))

/-- Similar values are printed alike. -/
theorem World.Similar.print (hw : w.Similar M w') (h : List.Forall₂ (Value.Similar M) vs us) :
    AgreeIn M (Value.Similar M) (w.print vs) (w'.print us) := by
  unfold World.print
  have hvalues := hw.writeValues h
  generalize w.writeValues vs = r at hvalues ⊢
  generalize w'.writeValues us = r' at hvalues ⊢
  obtain ⟨w1, r⟩ := r
  obtain ⟨w2, r'⟩ := r'
  obtain ⟨hw1, hr⟩ := hvalues
  dsimp only at hw1 hr
  cases hr with
  | error e => exact ⟨hw1, .error e⟩
  | ok _ => exact ⟨hw1.write "\n", .ok (.atom rfl)⟩

/-- Functions that are defined alike in similar worlds are similar: their numbers are the next ones
in both. -/
theorem World.Similar.define (hw : w.Similar M w') {name name' : Value}
    (hname : name.Similar M name') {params params' : List Value}
    (hparams : List.Forall₂ (Value.Similar M) params params') (variadic : Bool)
    {body body' : Value} (hbody : body.Similar M body') {captures captures' : Scope}
    (hcaptures : Scope.Similar M captures captures') :
    AgreeIn M (Value.Similar M) (w.define name params variadic body captures)
      (w'.define name' params' variadic body' captures') := by
  have hf : Value.Similar M (.function (.user ⟨w.made, name, params, variadic, body, captures⟩))
      (.function (.user ⟨w'.made, name', params', variadic, body', captures'⟩)) :=
    .function (.user hname.display_eq hparams rfl hbody hcaptures) (hw.numbers 0).symm
  unfold World.define
  rw [hname.display_eq]
  cases name'.display with
  | error e => exact ⟨hw, .error e⟩
  | ok s =>
    dsimp only
    split
    · exact ⟨hw, .error _⟩
    · rcases (hw.globals.insert hname hf).cases with ⟨e, h1, h2⟩ | ⟨s, t, h1, h2, hs⟩
      · rw [h1, h2]
        exact ⟨hw, .error e⟩
      · rw [h1, h2]
        refine ⟨⟨hs, hw.output, fun i => ?_⟩, .ok hf⟩
        have hnext := hw.numbers (1 + i)
        rwa [← Nat.add_assoc, ← Nat.add_assoc] at hnext

/-- Variables with similar names are captured with similar values. -/
theorem capture_similar {globals globals' captures captures' : Scope} (h : c.write = d.write)
    (hs : Scope.Similar M scope scope') (hg : Scope.Similar M globals globals')
    (hcaptures : Scope.Similar M captures captures')
    (hnames : List.Forall₂ (Value.Similar M) vs us) :
    Agree (Scope.Similar M) (capture scope globals c captures vs)
      (capture scope' globals' d captures' us) := by
  induction hnames generalizing captures captures' with
  | nil => exact .ok hcaptures
  | cons hname _ ih =>
    rw [capture, capture]
    rcases (lookup_similar h hs hg hname).cases with
      ⟨e, h1, h2⟩ | ⟨⟨starred, x⟩, ⟨starred', y⟩, h1, h2, hstar, hxy⟩
    · rw [h1, h2]
      exact .error e
    · rw [h1, h2]
      cases hstar
      dsimp only
      rcases (hcaptures.insert hname hxy).cases with ⟨e, h1, h2⟩ | ⟨s, t, h1, h2, hst⟩
      · rw [h1, h2]
        exact .error e
      · rw [h1, h2]
        dsimp only
        split
        · exact .error _
        · exact ih hst

/-- `defun` binds similar names to similar functions. -/
theorem Call.Alike.applyDefine (h : c.Alike M d) (hw : w.Similar M w')
    {captures captures' : Scope} (hcaptures : Scope.Similar M captures captures')
    (hargs : List.Forall₂ (Value.Similar M) vs us) :
    AgreeIn M (Value.Similar M) (c.applyDefine w captures vs) (d.applyDefine w' captures' us) := by
  cases hargs with
  | nil => exact ⟨hw, .error _⟩
  | cons hname hparams =>
    rw [Call.applyDefine, Call.applyDefine, hasRest_similar h.args]
    exact hw.define hname.bindingName hparams _ h.body hcaptures

/-- `lambda` captures similar values and makes similar functions. -/
theorem Call.Alike.applyLambda (h : c.Alike M d) (hw : w.Similar M w')
    (hs : Scope.Similar M scope scope') (hargs : List.Forall₂ (Value.Similar M) vs us) :
    AgreeIn M (Value.Similar M) (c.applyLambda w scope vs) (d.applyLambda w' scope' us) := by
  cases hargs with
  | nil => exact ⟨hw, .error _⟩
  | cons hnames hparams =>
    rw [Call.applyLambda, Call.applyLambda]
    rcases hnames.items? with ⟨h1, h2⟩ | ⟨xs, ys, h1, h2, hitems⟩
    · rw [h1, h2]
      exact ⟨hw, .error _⟩
    · rw [h1, h2]
      dsimp only
      rcases (capture_similar h.write_eq hs hw.globals .nil hitems).cases with
        ⟨e, h1, h2⟩ | ⟨s, t, h1, h2, hst⟩
      · rw [h1, h2]
        exact ⟨hw, .error e⟩
      · rw [h1, h2]
        exact h.applyDefine hw hst (.cons (.atom rfl) hparams)

/-- **Similar functions do similar things with similar arguments.** -/
theorem Call.Alike.apply (h : c.Alike M d) (hw : w.Similar M w')
    (hs : Scope.Similar M scope scope') (hargs : List.Forall₂ (Value.Similar M) vs us) :
    AgreeIn M (Value.Similar M) (c.apply w scope vs) (d.apply w' scope' us) := by
  unfold Call.apply
  rcases h.fn.cases with ⟨b, h1, h2⟩ | ⟨d1, d2, h1, h2, -⟩
  · rw [h1, h2]
    have hpure := h.applyPure b hargs
    cases b with
    | print => exact hw.print hargs
    | define => exact h.applyDefine hw .nil hargs
    | lambda => exact h.applyLambda hw hs hargs
    | _ => exact ⟨hw, hpure⟩
  · rw [h1, h2]
    exact ⟨hw, lastArg_similar hargs⟩

end Similarity

end MiniLisp

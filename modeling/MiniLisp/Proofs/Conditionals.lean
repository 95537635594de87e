import MiniLisp.Proofs.Turns

/-!
# Conditionals

`cond` evaluates all of its conditions and then the action of the first that is true; `if` evaluates
its condition and then one of its branches. Nothing else is run (`conditionals_run_selected`). But
the symbols among their arguments are looked up when they begin. So an action that is a symbol
stands for what it did before the conditions were evaluated (`cond_keeps_meaning_of_actions`).

When `cond` is done it has forgotten whether there was an action. It compares the number of values
that it has got with half the number of the arguments that it was written with. Stars change the one
and not the other, and if they change it too much the value of `cond` is a wrong one
(`cond_counts_written_arguments`).
-/

namespace MiniLisp

/-! ## The first true condition -/

/-- The value at `i` is the first that counts as true. -/
structure IsFirstTrue (us : List Value) (i : Nat) : Prop where
  isTrue : ∃ u, us[i]? = some u ∧ u.isTrue = true
  before : ∀ u ∈ us.take i, u.isTrue = false

/-- The action `a` belongs to the first condition that is true, where the conditions have the values
`us`. -/
def Chooses (us actions : List Value) (a : Value) : Prop :=
  ∃ i, IsFirstTrue us i ∧ actions[i]? = some a

/-- No condition is true. -/
def AllFalse (us : List Value) : Prop :=
  ∀ u ∈ us, u.isTrue = false

/-- The action of the first condition that is true. -/
def firstAction (us actions : List Value) : Option Value :=
  ((us.zip actions).find? (·.1.isTrue)).map (·.2)

section Choosing

variable {u a b : Value} {us actions : List Value} {i : Nat}

theorem not_isFirstTrue_nil : ¬IsFirstTrue [] i := by
  rintro ⟨⟨u, hu, -⟩, -⟩
  cases hu

theorem isFirstTrue_cons_of_true (hu : u.isTrue = true) : IsFirstTrue (u :: us) i ↔ i = 0 := by
  constructor
  · intro h
    cases i with
    | zero => rfl
    | succ i =>
      have hfalse := h.before u (by rw [List.take_succ_cons]; exact List.mem_cons_self)
      rw [hu] at hfalse
      cases hfalse
  · rintro rfl
    exact ⟨⟨u, rfl, hu⟩, by simp⟩

theorem isFirstTrue_cons_of_false (hu : u.isTrue = false) :
    IsFirstTrue (u :: us) i ↔ ∃ j, i = j + 1 ∧ IsFirstTrue us j := by
  constructor
  · intro h
    cases i with
    | zero =>
      obtain ⟨v, hv, htrue⟩ := h.isTrue
      cases hv
      rw [hu] at htrue
      cases htrue
    | succ i =>
      refine ⟨i, rfl, h.isTrue, fun v hv => h.before v ?_⟩
      rw [List.take_succ_cons]
      exact List.mem_cons_of_mem u hv
  · rintro ⟨j, rfl, h⟩
    refine ⟨h.isTrue, ?_⟩
    rw [List.take_succ_cons]
    exact List.forall_mem_cons.mpr ⟨hu, h.before⟩

theorem chooses_cons_of_true (hu : u.isTrue = true) :
    Chooses (u :: us) (b :: actions) a ↔ b = a := by
  unfold Chooses
  simp [isFirstTrue_cons_of_true hu]

theorem chooses_cons_of_false (hu : u.isTrue = false) :
    Chooses (u :: us) (b :: actions) a ↔ Chooses us actions a := by
  unfold Chooses
  simp only [isFirstTrue_cons_of_false hu]
  constructor
  · rintro ⟨_, ⟨j, rfl, hj⟩, ha⟩
    exact ⟨j, hj, ha⟩
  · rintro ⟨j, hj, ha⟩
    exact ⟨j + 1, ⟨j, rfl, hj⟩, ha⟩

theorem firstAction_cons :
    firstAction (u :: us) (b :: actions) = if u.isTrue then some b else firstAction us actions := by
  unfold firstAction
  rw [List.zip_cons_cons, List.find?_cons]
  cases u.isTrue <;> rfl

theorem firstAction_eq_some_iff (hlen : us.length = actions.length) :
    firstAction us actions = some a ↔ Chooses us actions a := by
  induction us generalizing actions with
  | nil => simp [firstAction, Chooses, List.eq_nil_of_length_eq_zero hlen.symm]
  | cons u us ih =>
    cases actions with
    | nil => cases hlen
    | cons b actions =>
      rw [firstAction_cons]
      cases hu : u.isTrue with
      | true => rw [chooses_cons_of_true hu, if_pos rfl, Option.some_inj]
      | false =>
        rw [chooses_cons_of_false hu, if_neg Bool.false_ne_true]
        exact ih (Nat.succ.inj hlen)

theorem firstAction_eq_none_iff (hlen : us.length = actions.length) :
    firstAction us actions = none ↔ AllFalse us := by
  unfold AllFalse
  induction us generalizing actions with
  | nil => simp [firstAction]
  | cons u us ih =>
    cases actions with
    | nil => cases hlen
    | cons b actions =>
      rw [firstAction_cons, List.forall_mem_cons]
      cases hu : u.isTrue with
      | true => simp
      | false =>
        rw [if_neg Bool.false_ne_true, ih (Nat.succ.inj hlen)]
        simp

/-- What is chosen among some actions corresponds to what is chosen among others. -/
theorem exists_chosen_iff {R : Value → Value → Prop} {P Q : Value → Prop} {vs : List Value}
    (h : List.Forall₂ R actions vs) (hR : ∀ a ∈ actions, ∀ v, R a v → (P a ↔ Q v)) :
    (∃ a, Chooses us actions a ∧ P a) ↔ ∃ v, Chooses us vs v ∧ Q v := by
  induction h generalizing us with
  | nil => simp [Chooses]
  | @cons b v actions vs hbv _ ih =>
    rw [List.forall_mem_cons] at hR
    cases us with
    | nil => simp [Chooses, not_isFirstTrue_nil]
    | cons u us =>
      cases hu : u.isTrue with
      | true => simp [chooses_cons_of_true hu, hR.1 v hbv]
      | false =>
        simp only [chooses_cons_of_false hu]
        exact ih hR.2

theorem firstAction_mem (h : firstAction us actions = some a) : a ∈ actions := by
  obtain ⟨p, hp, rfl⟩ := Option.map_eq_some_iff.mp h
  exact (List.of_mem_zip (List.mem_of_find?_eq_some hp)).2

end Choosing

/-! ## Conditions and actions in turn -/

section Turns

variable {α : Type} (pairs : List (α × α))

theorem everyOther_inTurn : everyOther (inTurn pairs) = pairs.map Prod.fst := by
  induction pairs with
  | nil => rfl
  | cons p pairs ih => rw [inTurn, everyOther, ih, List.map_cons]

theorem everyOther_tail_inTurn : everyOther (inTurn pairs).tail = pairs.map Prod.snd := by
  induction pairs with
  | nil => rfl
  | cons p pairs ih =>
    cases pairs with
    | nil => rfl
    | cons q pairs =>
      rw [List.map_cons, ← ih]
      rfl

end Turns

/-! ## `cond` -/

/-- What `cond` should come to when its conditions have the values `us`: the action of the first
that is true is evaluated and no other; without one the value is none. -/
def CondEnds (files : Files) (scope : Scope) (actions : List Value) (w : World) (us : List Value)
    (o : Outcome) : Prop :=
  (∃ a, Chooses us actions a ∧ ArgEnds files scope w a o) ∨
    AllFalse us ∧ o = ⟨w, .value .none⟩

section Cond

variable {files : Files} {scope : Scope} {w : World} {args us vs : List Value}
  {actions : List Value} {pairs : List (Value × Value)} {v : Value} {o : Outcome}

theorem Call.chooseAction_append (hlen : us.length = actions.length) :
    Call.chooseAction (us ++ actions) = us ++ (firstAction us actions).toList := by
  have hhalf : (us ++ actions).length / 2 = us.length := by
    rw [List.length_append, ← hlen]
    omega
  unfold Call.chooseAction firstAction
  rw [hhalf, List.take_left, List.drop_left]
  dsimp only
  cases (us.zip actions).find? (·.1.isTrue) with
  | none => exact (List.append_nil us).symm
  | some p => rfl

/-- `cond` as a special form. -/
theorem choice_form (hpos : 0 < actions.length) :
    Form (.begin (.builtin .choice) args) scope actions.length actions
      fun us => .ok (scope, (firstAction us actions).toList) where
  direct := rfl
  pos := hpos
  ready vs i hlen := by
    show (2 * (i + 1) == (vs.length : Int)) = true ↔ _
    rw [beq_iff_eq, hlen]
    omega
  prepare globals us hlen := by
    show Except.ok (⟨_, Call.chooseAction (us ++ actions), scope, none⟩ : Prepared) = _
    rw [Call.chooseAction_append hlen]
    rfl
  scope us r _ hs hr := by
    cases hr
    exact hs
  chosen us r hr v hv := by
    cases hr
    exact firstAction_mem (Option.mem_toList.mp hv)

theorem Call.resolveArgs_choice {globals : Scope} (hpairs : pairs ≠ [])
    (hvs : lookupAll scope globals (.begin (.builtin .choice) args) args = .ok (inTurn pairs)) :
    (Call.begin (.builtin .choice) args).resolveArgs scope globals =
      .ok (pairs.map Prod.fst ++ pairs.map Prod.snd) := by
  have hsort : (Call.begin (.builtin .choice) args).sortArgs (inTurn pairs) =
      pairs.map Prod.fst ++ pairs.map Prod.snd := by
    show everyOther (inTurn pairs) ++ everyOther (inTurn pairs).tail = _
    rw [everyOther_inTurn, everyOther_tail_inTurn]
  have hlen : (pairs.map Prod.fst ++ pairs.map Prod.snd).length = 2 * pairs.length := by
    simp only [List.length_append, List.length_map]
    omega
  have hpos : 0 < pairs.length := List.length_pos_iff.mpr hpairs
  rw [← hsort]
  refine Call.resolveArgs_early rfl hvs ?_
  rw [hsort]
  unfold Call.validate Call.begin
  dsimp only
  rw [hlen, if_neg (by omega), if_neg (by rw [beq_iff_eq]; omega)]

/-- How `cond` is concluded: it takes its last value to be that of an action if it has got more
values than half of the arguments that it was written with. -/
theorem Call.conclude_choice :
    (Call.begin (.builtin .choice) args).conclude w scope (vs ++ [v]) =
      if args.length < 2 * (vs.length + 1) then ⟨w, .value v⟩ else ⟨w, .value .none⟩ := by
  have happly : (Call.begin (.builtin .choice) args).apply w scope (vs ++ [v]) =
      (w, if args.length < 2 * (vs ++ [v]).length then Call.lastArg (vs ++ [v])
        else .ok .none) := rfl
  have hearly : (Call.begin (.builtin .choice) args).fn.checksEarly = true := rfl
  rw [Call.conclude, hearly, if_pos rfl]
  dsimp only
  rw [happly, Call.lastArg, List.getLast?_concat, List.length_append, List.length_singleton]
  split <;> rfl

/-- A call of `cond` evaluates its conditions, then the action that they choose, and is concluded.
What is said of this, `k`, needs to be right for as many values as there are conditions. -/
theorem Place.ends_cond_iff (hplace : Place scope w args) (hpairs : pairs ≠ [])
    (hvs : lookupAll scope w.globals (.begin (.builtin .choice) args) args = .ok (inTurn pairs))
    {k : World → List Value → Outcome → Prop}
    (hk : ∀ w us o, us.length = pairs.length → (k w us o ↔
      (∃ a, Chooses us (pairs.map Prod.snd) a ∧ AfterArgs files scope w [a] (fun w vs o =>
          o = (Call.begin (.builtin .choice) args).conclude w scope (us ++ vs)) o) ∨
        AllFalse us ∧ o = (Call.begin (.builtin .choice) args).conclude w scope us)) :
    Ends files w (.start (.begin (.builtin .choice) args) scope) o ↔
      AfterArgs files scope w (pairs.map Prod.fst) k o := by
  have hpos : 0 < (pairs.map Prod.snd).length := by
    rw [List.length_map]
    exact List.length_pos_iff.mpr hpairs
  have hmem : ∀ v ∈ pairs.map Prod.fst ++ pairs.map Prod.snd, v ∈ inTurn pairs := by
    intro v hv
    rw [← everyOther_inTurn, ← everyOther_tail_inTurn] at hv
    rcases List.mem_append.mp hv with hv | hv
    · exact mem_of_mem_everyOther hv
    · exact List.mem_of_mem_tail (mem_of_mem_everyOther hv)
  have hall : Place scope w (pairs.map Prod.fst ++ pairs.map Prod.snd) :=
    (hplace.looked hvs).mono hmem
  rw [(choice_form hpos).ends_iff ⟨rfl, rfl⟩ (Call.resolveArgs_choice hpairs hvs) (by simp) hall]
  refine afterArgs_congr hall.eachYields.of_append hplace.globals fun w us _ hlen _ => ?_
  have hus : us.length = (pairs.map Prod.snd).length := by simpa using hlen
  rw [hk w us o (by simpa using hlen), Form.goesOn_ok_iff rfl]
  simp only [← firstAction_eq_some_iff hus, ← firstAction_eq_none_iff hus]
  cases firstAction us (pairs.map Prod.snd) with
  | none => simp
  | some a => simp

/-- Where the value of an action counts, evaluating the action is all there is to do. -/
theorem afterArgs_action_iff {a : Value} (hlt : args.length < 2 * (us.length + 1)) :
    AfterArgs files scope w [a] (fun w vs o =>
        o = (Call.begin (.builtin .choice) args).conclude w scope (us ++ vs)) o ↔
      ArgEnds files scope w a o := by
  refine afterArgs_singleton fun w v => ?_
  rw [Call.conclude_choice, if_pos hlt]

/-- Where it does not, the action is evaluated and its value is lost. -/
theorem afterArgs_lost_action_iff {a : Value} (hle : 2 * (us.length + 1) ≤ args.length) :
    AfterArgs files scope w [a] (fun w vs o =>
        o = (Call.begin (.builtin .choice) args).conclude w scope (us ++ vs)) o ↔
      AfterArgs files scope w [a] (fun w _ o => o = ⟨w, .value .none⟩) o := by
  have hlost : ∀ w v, (Call.begin (.builtin .choice) args).conclude w scope (us ++ [v]) =
      ⟨w, .value .none⟩ := by
    intro w v
    rw [Call.conclude_choice, if_neg (Nat.not_lt.mpr hle)]
  simp only [afterArgs_cons, afterArgs_nil, hlost]

/-- Without an action the last condition is not taken for one if at least as many arguments were
written as there are. -/
theorem Call.conclude_conditions (hpos : 0 < us.length) :
    (Call.begin (.builtin .choice) args).conclude w scope us =
      ⟨w, .value (if args.length < 2 * us.length then us.getLastD .none else .none)⟩ := by
  obtain ⟨n, hn⟩ := Nat.exists_eq_succ_of_ne_zero (Nat.ne_of_gt hpos)
  obtain ⟨front, u, rfl, -⟩ := exists_concat_of_length hn
  rw [Call.conclude_choice, List.length_append, List.length_singleton]
  split
  · simp
  · rfl

/-- `cond` means what it should if its arguments are as many as were written, or one less. -/
theorem Place.ends_cond_iff_of_count (hplace : Place scope w args) (hpairs : pairs ≠ [])
    (hvs : lookupAll scope w.globals (.begin (.builtin .choice) args) args = .ok (inTurn pairs))
    (hle : 2 * pairs.length ≤ args.length) (hle' : args.length ≤ 2 * pairs.length + 1) :
    Ends files w (.start (.begin (.builtin .choice) args) scope) o ↔
      AfterArgs files scope w (pairs.map Prod.fst)
        (CondEnds files scope (pairs.map Prod.snd)) o := by
  have hpos : 0 < pairs.length := List.length_pos_iff.mpr hpairs
  refine hplace.ends_cond_iff hpairs hvs fun w us o hus => ?_
  have hlt : args.length < 2 * (us.length + 1) := by omega
  rw [Call.conclude_conditions (by omega), if_neg (by omega), CondEnds]
  simp only [afterArgs_action_iff hlt]

end Cond

/-! ## `if` -/

/-- What `if` should come to when its condition has a value: one branch is evaluated and not the
other; without a branch for what is false the value is none. -/
def IfEnds (files : Files) (scope : Scope) (yes : Value) (no : Option Value) (w : World)
    (us : List Value) (o : Outcome) : Prop :=
  ∃ u, us = [u] ∧
    ((u.isTrue = true ∧ ArgEnds files scope w yes o) ∨
      (u.isTrue = false ∧ ∃ b, no = some b ∧ ArgEnds files scope w b o) ∨
        (u.isTrue = false ∧ no = none ∧ o = ⟨w, .value .none⟩))

/-- The branch that the value of the condition selects. -/
def selectedBranch (yes : Value) (no : Option Value) (us : List Value) : List Value :=
  if us.any Value.isTrue then [yes] else no.toList

section If

variable {files : Files} {scope : Scope} {w : World} {args us vs : List Value}
  {condition yes u v : Value} {no : Option Value} {o : Outcome}

theorem selectedBranch_singleton :
    selectedBranch yes no [u] = if u.isTrue then [yes] else no.toList := by
  rw [selectedBranch, List.any_cons, List.any_nil, Bool.or_false]

theorem Call.chooseBranch_cons :
    Call.chooseBranch (u :: yes :: no.toList) = .ok (u :: selectedBranch yes no [u]) := by
  rw [selectedBranch_singleton]
  cases no with
  | none =>
    show Except.ok (if u.isTrue then [u, yes] else [u]) = _
    cases u.isTrue <;> rfl
  | some b =>
    show Except.ok [u, if u.isTrue then yes else b] = _
    cases u.isTrue <;> rfl

/-- `if` as a special form. -/
theorem branch_form :
    Form (.begin (.builtin .branch) args) scope 1 (yes :: no.toList)
      fun us => .ok (scope, selectedBranch yes no us) where
  direct := rfl
  pos := Nat.one_pos
  ready vs i _ := by
    show (i == 0) = true ↔ _
    rw [beq_iff_eq]
    omega
  prepare globals us hlen := by
    obtain ⟨u, rfl⟩ := List.length_eq_one_iff.mp hlen
    show (Call.chooseBranch (u :: yes :: no.toList)).map _ = _
    rw [Call.chooseBranch_cons]
    rfl
  scope us r _ hs hr := by
    cases hr
    exact hs
  chosen us r hr v hv := by
    cases hr
    unfold selectedBranch at hv
    split at hv
    · rw [List.mem_singleton.mp hv]
      exact List.mem_cons_self
    · exact List.mem_cons_of_mem yes hv

theorem Call.resolveArgs_branch {globals : Scope}
    (hvs : lookupAll scope globals (.begin (.builtin .branch) args) args =
      .ok (condition :: yes :: no.toList)) :
    (Call.begin (.builtin .branch) args).resolveArgs scope globals =
      .ok ([condition] ++ yes :: no.toList) := by
  refine Call.resolveArgs_early rfl hvs ?_
  cases no <;> rfl

/-- A call of `if` evaluates its condition and then the branch that it selects. -/
theorem Place.ends_if_iff (hplace : Place scope w args)
    (hvs : lookupAll scope w.globals (.begin (.builtin .branch) args) args =
      .ok (condition :: yes :: no.toList)) :
    Ends files w (.start (.begin (.builtin .branch) args) scope) o ↔
      AfterArgs files scope w [condition] (IfEnds files scope yes no) o := by
  have hall : Place scope w ([condition] ++ yes :: no.toList) := hplace.looked hvs
  rw [branch_form.ends_iff ⟨rfl, rfl⟩ (Call.resolveArgs_branch hvs) rfl hall]
  refine afterArgs_congr hall.eachYields.of_append hplace.globals fun w us _ hlen _ => ?_
  obtain ⟨u, rfl⟩ := List.length_eq_one_iff.mp hlen
  -- the value of a branch comes last
  have hbranch : ∀ b, AfterArgs files scope w [b] (fun w vs o =>
      o = (Call.begin (.builtin .branch) args).conclude w scope (u :: vs)) o ↔
        ArgEnds files scope w b o := fun b => afterArgs_singleton fun w v => Iff.rfl
  have hnone : (Call.begin (.builtin .branch) args).conclude w scope [u] =
      ⟨w, .value .none⟩ := rfl
  rw [Form.goesOn_ok_iff rfl, selectedBranch_singleton, IfEnds]
  cases hu : u.isTrue with
  | true => simp [hbranch, hu]
  | false =>
    cases no with
    | none => simp [hnone, hu]
    | some b => simp [hbranch, hu]

end If

/-! ## Looking up in turn -/

/-- `cond` as it would be if each argument was looked up when its turn comes: the conditions in
front of the actions, and of these only the one that is chosen. -/
def CondInTurn (files : Files) (scope : Scope) (c : Call) (written : List (Value × Value))
    (w : World) (o : Outcome) : Prop :=
  AfterTurns files scope c w (written.map Prod.fst) (fun w us o =>
    (∃ a, Chooses us (written.map Prod.snd) a ∧ TurnEnds files scope c w a o) ∨
      AllFalse us ∧ o = ⟨w, .value .none⟩) o

/-- `if` as it would be if each argument was looked up when its turn comes. -/
def IfInTurn (files : Files) (scope : Scope) (c : Call) (condition yes : Value) (no : Option Value)
    (w : World) (o : Outcome) : Prop :=
  AfterTurns files scope c w [condition] (fun w us o =>
    ∃ u, us = [u] ∧
      ((u.isTrue = true ∧ TurnEnds files scope c w yes o) ∨
        (u.isTrue = false ∧ ∃ b, no = some b ∧ TurnEnds files scope c w b o) ∨
          (u.isTrue = false ∧ no = none ∧ o = ⟨w, .value .none⟩))) o

section InTurn

variable {files : Files} {scope : Scope} {c : Call} {w : World} {o : Outcome}

/-- `cond` can look up its arguments in turn where its conditions do not change what these stand
for. -/
theorem condInTurn_iff {written pairs : List (Value × Value)} (hargs : c.args = inTurn written)
    (hvs : List.Forall₂ (LooksUp scope w.globals c) (inTurn written) (inTurn pairs))
    (hy : EachYields files scope (fun w' _ => StandAlike scope c w w') w (pairs.map Prod.fst)) :
    CondInTurn files scope c written w o ↔
      AfterArgs files scope w (pairs.map Prod.fst)
        (CondEnds files scope (pairs.map Prod.snd)) o := by
  have hmem : ∀ a, a ∈ written.map Prod.fst ∨ a ∈ written.map Prod.snd → a ∈ c.args := by
    intro a ha
    rw [hargs]
    rw [← everyOther_inTurn, ← everyOther_tail_inTurn] at ha
    rcases ha with ha | ha
    · exact mem_of_mem_everyOther ha
    · exact List.mem_of_mem_tail (mem_of_mem_everyOther ha)
  obtain ⟨hfst, hsnd⟩ := forall₂_of_inTurn hvs
  refine afterTurns_iff_afterArgs hfst (fun a ha => hmem a (.inl ha)) (fun _ _ => rfl) hy ?_
  intro w' us hsame
  refine or_congr (exists_chosen_iff hsnd fun a ha v hv => ?_) Iff.rfl
  exact turnEnds_iff hv (hmem a (.inr ha)) hsame

/-- `if` can look up its arguments in turn where its condition does not change what these stand
for. -/
theorem ifInTurn_iff {condition yes condition' yes' : Value} {no no' : Option Value}
    (hargs : c.args = condition :: yes :: no.toList)
    (hvs : List.Forall₂ (LooksUp scope w.globals c) (condition :: yes :: no.toList)
      (condition' :: yes' :: no'.toList))
    (hy : EachYields files scope (fun w' _ => StandAlike scope c w w') w [condition']) :
    IfInTurn files scope c condition yes no w o ↔
      AfterArgs files scope w [condition'] (IfEnds files scope yes' no') o := by
  obtain ⟨hcondition, hrest⟩ := List.forall₂_cons.mp hvs
  obtain ⟨hyes, hno⟩ := List.forall₂_cons.mp hrest
  refine afterTurns_iff_afterArgs (.cons hcondition .nil) (by simp [hargs]) (fun _ _ => rfl) hy ?_
  intro w' us hsame
  refine exists_congr fun u => and_congr_right fun _ => ?_
  rw [turnEnds_iff hyes (by simp [hargs]) hsame]
  cases no with
  | none =>
    cases no' with
    | none => simp
    | some b' => cases hno
  | some b =>
    cases no' with
    | none => cases hno
    | some b' =>
      have hb : TurnEnds files scope c w' b o ↔ ArgEnds files scope w' b' o :=
        turnEnds_iff (List.forall₂_cons.mp hno).1 (by simp [hargs]) hsame
      simp [hb]

end InTurn

/-! ## Main statements -/

section Conditionals

variable {files : Files} {scope : Scope} {w : World} {args : List Value}

/-- **Conditionals run what they select and nothing else.** When a conditional begins its arguments
are looked up, and if this fails nothing is run. Without stars, `cond` then evaluates all of its
conditions in their order, and after them the action of the first that is true. `if` evaluates its
condition and then the branch that belongs to its value. Where evaluating the conditions does not
change what the arguments stand for, these might as well be looked up in turn. -/
theorem conditionals_run_selected (hplace : Place scope w args) :
    (∀ b e, lookupAll scope w.globals (.begin (.builtin b) args) args = .error e →
        ∀ o, Ends files w (.start (.begin (.builtin b) args) scope) o ↔ o = ⟨w, .failed e⟩) ∧
      (∀ pairs : List (Value × Value), pairs ≠ [] → (∀ a ∈ args, a.isStar = false) →
        lookupAll scope w.globals (.begin (.builtin .choice) args) args = .ok (inTurn pairs) →
          (∀ o, Ends files w (.start (.begin (.builtin .choice) args) scope) o ↔
            AfterArgs files scope w (pairs.map Prod.fst)
              (CondEnds files scope (pairs.map Prod.snd)) o) ∧
            ∀ written, args = inTurn written →
              EachYields files scope (fun w' _ =>
                StandAlike scope (.begin (.builtin .choice) args) w w') w (pairs.map Prod.fst) →
                ∀ o, Ends files w (.start (.begin (.builtin .choice) args) scope) o ↔
                  CondInTurn files scope (.begin (.builtin .choice) args) written w o) ∧
        ∀ (condition yes : Value) (no : Option Value),
          lookupAll scope w.globals (.begin (.builtin .branch) args) args =
              .ok (condition :: yes :: no.toList) →
            (∀ o, Ends files w (.start (.begin (.builtin .branch) args) scope) o ↔
              AfterArgs files scope w [condition] (IfEnds files scope yes no) o) ∧
              ∀ condition' yes' no', args = condition' :: yes' :: Option.toList no' →
                (∀ a ∈ args, a.isStar = false) →
                  EachYields files scope (fun w' _ =>
                    StandAlike scope (.begin (.builtin .branch) args) w w') w [condition] →
                    ∀ o, Ends files w (.start (.begin (.builtin .branch) args) scope) o ↔
                      IfInTurn files scope (.begin (.builtin .branch) args) condition' yes' no'
                        w o := by
  refine ⟨fun b e he o => ends_iff_of_lookupAll_error rfl he, ?_, ?_⟩
  · intro pairs hpairs hstars hvs
    have hlen : args.length = 2 * pairs.length := by
      rw [← length_lookupAll hstars hvs, length_inTurn]
    have hends : ∀ o, Ends files w (.start (.begin (.builtin .choice) args) scope) o ↔
        AfterArgs files scope w (pairs.map Prod.fst)
          (CondEnds files scope (pairs.map Prod.snd)) o :=
      fun o => hplace.ends_cond_iff_of_count hpairs hvs (by omega) (by omega)
    refine ⟨hends, ?_⟩
    rintro written rfl hy o
    rw [hends, condInTurn_iff rfl (forall₂_of_lookupAll hstars hvs) hy]
  · intro condition yes no hvs
    refine ⟨fun o => hplace.ends_if_iff hvs, ?_⟩
    rintro condition' yes' no' rfl hstars hy o
    rw [hplace.ends_if_iff hvs, ifInTurn_iff rfl (forall₂_of_lookupAll hstars hvs) hy]

/-- `(cond (+ 0) (print 1) (+ 3) (+ 7) (+ 1) (print 2))` has the value 7, and `(if (+ 0) (print 1))`
has the value none. Nothing is printed. -/
theorem conditionals_run_selected_seven :
    let call : Builtin → String → Value := fun b n => .call (.begin (.builtin b) [.symbol n])
    let condArgs : List Value := [call .sum "0", call .print "1", call .sum "3", call .sum "7",
      call .sum "1", call .print "2"]
    let ifArgs : List Value := [call .sum "0", call .print "1"]
    let w := World.start false
    Place [] w condArgs ∧ Place [] w ifArgs ∧
      Ends (Files.ofList []) w (.start (.begin (.builtin .choice) condArgs) [])
        ⟨w, .value (.int 7)⟩ ∧
        Ends (Files.ofList []) w (.start (.begin (.builtin .branch) ifArgs) [])
          ⟨w, .value .none⟩ := by
  intro call condArgs ifArgs w
  have hcond : Place [] w condArgs := by
    refine ⟨rfl, rfl, allProper_iff.mp rfl, ?_⟩
    simp [condArgs, call, Call.begin]
  have hif : Place [] w ifArgs := by
    refine ⟨rfl, rfl, allProper_iff.mp rfl, ?_⟩
    simp [ifArgs, call, Call.begin]
  refine ⟨hcond, hif, ?_, ?_⟩
  · refine (((conditionals_run_selected hcond).2.1 [(call .sum "0", call .print "1"),
      (call .sum "3", call .sum "7"), (call .sum "1", call .print "2")] (by simp)
      (by simp [condArgs, call, Value.isStar]) rfl).1 _).mpr ?_
    have hconditions : ArgsEnd (Files.ofList []) [] w [call .sum "0", call .sum "3", call .sum "1"]
        w [.int 0, .int 3, .int 1] :=
      .cons ⟨rfl, 10, rfl⟩ (.cons ⟨rfl, 10, rfl⟩ (.cons ⟨rfl, 10, rfl⟩ .nil))
    have hfirst : IsFirstTrue [.int 0, .int 3, .int 1] 1 :=
      ⟨⟨.int 3, rfl, rfl⟩, by simp [Value.isTrue]⟩
    exact hconditions.afterArgs_iff.mpr (.inl ⟨call .sum "7", ⟨1, hfirst, rfl⟩, rfl, 10, rfl⟩)
  · refine (((conditionals_run_selected hif).2.2 (call .sum "0") (call .print "1") none rfl).1
      _).mpr ?_
    have hcondition : ArgsEnd (Files.ofList []) [] w [call .sum "0"] w [.int 0] :=
      .cons ⟨rfl, 10, rfl⟩ .nil
    exact hcondition.afterArgs_iff.mpr ⟨.int 0, rfl, .inr (.inr ⟨rfl, rfl, rfl⟩)⟩

/-- `(cond (defun 'x (+ 2)) x)`, begun where `x` is the function that gives 1: the value is that
function. If `x` was looked up when its turn comes, the value would be the function that gives 2. -/
theorem cond_keeps_meaning_of_actions :
    let sum : String → Value := fun n => .call (.begin (.builtin .sum) [.symbol n])
    let one : Definition := ⟨0, .symbol "x", [], false, sum "1", []⟩
    let two : Definition := ⟨1, .symbol "x", [], false, sum "2", []⟩
    let world (d : Definition) : World :=
      { globals := builtinScope false ++ [(.symbol "x", .function (.user d))], made := d.id + 1 }
    let condition : Value := .call (.begin (.builtin .define) [.symbol "'x", sum "2"])
    let c : Call := .begin (.builtin .choice) [condition, .symbol "x"]
    Ends (Files.ofList []) (world one) (.start c []) ⟨world two, .value (.function (.user one))⟩ ∧
      CondInTurn (Files.ofList []) [] c [(condition, .symbol "x")] (world one)
        ⟨world two, .value (.function (.user two))⟩ ∧ one ≠ two := by
  intro sum one two world condition c
  have hcondition : ArgEnds (Files.ofList []) [] (world one) condition
      ⟨world two, .value (.function (.user two))⟩ := ⟨rfl, 10, rfl⟩
  have hfirst : IsFirstTrue [.function (.user two)] 0 := ⟨⟨_, rfl, rfl⟩, by simp⟩
  refine ⟨?_, .inr ⟨_, _, hcondition, .inl ⟨.symbol "x", ⟨0, hfirst, rfl⟩, rfl⟩⟩, ?_⟩
  · have hplace : Place [] (world one) [condition, .symbol "x"] := by
      refine ⟨rfl, rfl, allProper_iff.mp rfl, ?_⟩
      simp [condition, Call.begin]
    have hargs : ArgsEnd (Files.ofList []) [] (world one) [condition] (world two)
        [.function (.user two)] := .cons hcondition .nil
    refine (@Place.ends_cond_iff_of_count _ _ _ _ [(condition, .function (.user one))] _ hplace
      (by simp) rfl (by decide) (by decide)).mpr (hargs.afterArgs_iff.mpr ?_)
    exact .inl ⟨.function (.user one), ⟨0, hfirst, rfl⟩, rfl⟩
  · exact fun h => absurd (congrArg Definition.id h) (by decide)

/-- **`cond` counts the arguments that it was written with.** It means what it should if stars leave
it as many arguments as were written, or one less. If they give it more, and no condition is true,
its value is that of the last condition. If they leave it fewer by two or more, the chosen action is
evaluated and its value is lost. -/
theorem cond_counts_written_arguments {pairs : List (Value × Value)}
    (hplace : Place scope w args) (hpairs : pairs ≠ [])
    (hvs : lookupAll scope w.globals (.begin (.builtin .choice) args) args = .ok (inTurn pairs)) :
    (2 * pairs.length ≤ args.length → args.length ≤ 2 * pairs.length + 1 →
        ∀ o, Ends files w (.start (.begin (.builtin .choice) args) scope) o ↔
          AfterArgs files scope w (pairs.map Prod.fst)
            (CondEnds files scope (pairs.map Prod.snd)) o) ∧
      (args.length < 2 * pairs.length →
        ∀ o, Ends files w (.start (.begin (.builtin .choice) args) scope) o ↔
          AfterArgs files scope w (pairs.map Prod.fst) (fun w us o =>
            (∃ a, Chooses us (pairs.map Prod.snd) a ∧ ArgEnds files scope w a o) ∨
              AllFalse us ∧ o = ⟨w, .value (us.getLastD .none)⟩) o) ∧
        (2 * pairs.length + 2 ≤ args.length →
          ∀ o, Ends files w (.start (.begin (.builtin .choice) args) scope) o ↔
            AfterArgs files scope w (pairs.map Prod.fst) (fun w us o =>
              (∃ a, Chooses us (pairs.map Prod.snd) a ∧
                  AfterArgs files scope w [a] (fun w _ o => o = ⟨w, .value .none⟩) o) ∨
                AllFalse us ∧ o = ⟨w, .value .none⟩) o) := by
  have hpos : 0 < pairs.length := List.length_pos_iff.mpr hpairs
  refine ⟨fun hle hle' o => ?_, fun hmore o => ?_, fun hless o => ?_⟩
  · exact hplace.ends_cond_iff_of_count hpairs hvs hle hle'
  · refine hplace.ends_cond_iff hpairs hvs fun w us o hus => ?_
    have hlt : args.length < 2 * (us.length + 1) := by omega
    rw [Call.conclude_conditions (by omega), if_pos (by omega)]
    simp only [afterArgs_action_iff hlt]
  · refine hplace.ends_cond_iff hpairs hvs fun w us o hus => ?_
    have hle : 2 * (us.length + 1) ≤ args.length := by omega
    rw [Call.conclude_conditions (by omega), if_neg (by omega)]
    simp only [afterArgs_lost_action_iff hle]

/-- With `l` for the tuple of 0 and 1 and `e` for the empty one: `(cond *e 1 5)` has the value 5 as
it should, but `(cond *l)` has the value 0 and `(cond *e *e 1 5)` has the value none. -/
theorem cond_counts_written_arguments_stars :
    let scope : Scope := [(.symbol "l", .tuple [.int 0, .int 1]), (.symbol "e", .tuple [])]
    let w := World.start false
    let args (names : List String) : List Value := names.map Value.symbol
    (∀ names, Place scope w (args names)) ∧
      Ends (Files.ofList []) w
        (.start (.begin (.builtin .choice) (args ["*e", "1", "5"])) scope) ⟨w, .value (.int 5)⟩ ∧
        Ends (Files.ofList []) w
          (.start (.begin (.builtin .choice) (args ["*l"])) scope) ⟨w, .value (.int 0)⟩ ∧
          Ends (Files.ofList []) w
            (.start (.begin (.builtin .choice) (args ["*e", "*e", "1", "5"])) scope)
            ⟨w, .value .none⟩ := by
  intro scope w args
  have hplace : ∀ names, Place scope w (args names) := by
    intro names
    refine ⟨rfl, rfl, ?_, ?_⟩
    · intro a ha
      obtain ⟨n, -, rfl⟩ := List.mem_map.mp ha
      rfl
    · simp [args]
  have hfirst : Chooses [.int 1] [.int 5] (.int 5) := ⟨0, ⟨⟨.int 1, rfl, rfl⟩, by simp⟩, rfl⟩
  refine ⟨hplace, ?_, ?_, ?_⟩
  · refine ((@cond_counts_written_arguments (Files.ofList []) scope w (args ["*e", "1", "5"])
      [(.int 1, .int 5)] (hplace _) (by simp) rfl).1 (by decide) (by decide) _).mpr ?_
    exact (afterArgs_values (by simp [Value.isCall])).mpr (.inl ⟨.int 5, hfirst, rfl⟩)
  · refine ((@cond_counts_written_arguments (Files.ofList []) scope w (args ["*l"])
      [(.int 0, .int 1)] (hplace _) (by simp) rfl).2.1 (by decide) _).mpr ?_
    exact (afterArgs_values (by simp [Value.isCall])).mpr
      (.inr ⟨by simp [AllFalse, Value.isTrue], rfl⟩)
  · refine ((@cond_counts_written_arguments (Files.ofList []) scope w (args ["*e", "*e", "1", "5"])
      [(.int 1, .int 5)] (hplace _) (by simp) rfl).2.2 (by decide) _).mpr ?_
    refine (afterArgs_values (by simp [Value.isCall])).mpr (.inl ⟨.int 5, hfirst, ?_⟩)
    exact (afterArgs_values (by simp [Value.isCall])).mpr rfl

end Conditionals

end MiniLisp

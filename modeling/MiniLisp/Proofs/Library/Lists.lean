import MiniLisp.Proofs.Library.Making

/-!
# Lists in the library

What the small functions of the library come to: `list`, `last`, `empty`, `body`, `head` and `tail`.
These are known to the others by what they give (`list_gives`, `last_gives`, `empty_gives_nil`,
`empty_gives_cons`, `body_gives`, `head_gives`, `tail_gives`).

`head` and `tail` hand the items of a list to a function that they make without a name. For an empty
list this function is not called: the call has no arguments left, and its value is the function
itself (`splitting_gives_nil`).
-/

namespace MiniLisp

/-! ## Builtins on lists -/

namespace Value

/-- The last item of a list. -/
theorem nth_last (front : List Value) (u : Value) :
    nth (int (-1)) (tuple (front ++ [u])) = .ok u := by
  have hplace : (if (-1 : Int) < 0 then -1 + ((front ++ [u]).length : Int) else -1) =
      (front.length : Int) := by
    rw [if_pos (by decide), List.length_append, List.length_singleton]
    omega
  have hrange : (decide ((0 : Int) ≤ front.length) &&
      decide ((front.length : Int) < (front ++ [u]).length)) = true := by
    rw [List.length_append, List.length_singleton, Bool.and_eq_true, decide_eq_true_iff,
      decide_eq_true_iff]
    omega
  have hposition : position? (front ++ [u]).length (-1) = some front.length := by
    unfold position?
    rw [hplace, if_pos hrange, Int.toNat_natCast]
  have hitems : (tuple (front ++ [u])).items? = some (front ++ [u]) := rfl
  have hindex : (int (-1)).index? = some (-1) := rfl
  rw [nth, hitems, hindex]
  dsimp only
  rw [hposition]
  simp

/-- Two values that do not clash are compared by their cores. -/
theorem allEqual_pair {u v : Value} {same : Bool}
    (hcomparable : ∀ a ∈ [u, v], a.isComparable = true) (hclash : ¬ HasClash [u, v])
    (hsame : same = true ↔ u.core = v.core) : allEqual [u, v] = .ok same := by
  rcases allEqual_spec (by simp) hcomparable with ⟨h, -⟩ | ⟨-, b, hb, hiff⟩
  · exact absurd h hclash
  · have hall : AllEqual [u, v] ↔ u.core = v.core := by
      simp only [AllEqual, List.mem_cons, List.not_mem_nil, or_false, forall_eq_or_imp, forall_eq,
        true_and, and_true]
      exact ⟨And.left, fun h => ⟨h, h.symm⟩⟩
    rw [hb, Bool.eq_iff_iff.mpr (hiff.trans (hall.trans hsame.symm))]

theorem allEqual_int (m n : Int) : allEqual [int m, int n] = .ok (decide (m = n)) := by
  refine allEqual_pair (by simp [isComparable]) (by simp [HasClash, Clash, isText]) ?_
  simp [core]

end Value

/-- Whether a value is neither a symbol nor a tuple nor a list, and no call. -/
def Value.isScalar (v : Value) : Bool :=
  v.isPlain && v.branches?.isNone

theorem Value.isPlain_of_isScalar {v : Value} (h : v.isScalar = true) : v.isPlain = true :=
  (Bool.and_eq_true_iff.mp h).1

theorem Value.leaves_of_isScalar {v : Value} (h : v.isScalar = true) : v.leaves = .ok [v] := by
  cases v with
  | tuple _ | list _ | symbol _ => cases h
  | _ => rfl

section Builtins

variable {files : Files} {scope : Scope} {w w' : World} {c c' : Call} {arg v u : Value}
  {items ls us vs : List Value}

/-- The sum of one value is this value. -/
theorem Yields.sum (h : Yields files scope w v w' u)
    (harg : lookupAll scope w.globals (.begin (.builtin .sum) [arg]) [arg] = .ok [v]) :
    Yields files scope w (.call (.begin (.builtin .sum) [arg])) w' u :=
  .call rfl (h.singleton.ends_strict rfl harg rfl) h.isCall_eq_false

theorem sum_yields (hu : u.isCall = false)
    (harg : lookupAll scope w.globals (.begin (.builtin .sum) [arg]) [arg] = .ok [u]) :
    Yields files scope w (.call (.begin (.builtin .sum) [arg])) w u :=
  (Yields.value hu).sum harg

/-- A tuple is flattened to the leaves of its items. -/
theorem Yields.flatten (h : Yields files scope w v w' (.tuple items))
    (harg : lookupAll scope w.globals (.begin (.builtin .flatten) [arg]) [arg] = .ok [v])
    (hleaves : Value.leavesOf items = .ok ls) :
    Yields files scope w (.call (.begin (.builtin .flatten) [arg])) w' (.tuple ls) := by
  refine .call rfl (h.singleton.ends_strict rfl harg ?_) rfl
  show Outcome.ofExcept w' ((Value.leavesOf items).map Value.tuple) = _
  rw [hleaves]
  rfl

/-- The sum of two lists is the one followed by the other. -/
theorem AllYield.sum_tuples
    (h : AllYield files scope w [.call c, .call c'] w' [.tuple us, .tuple vs]) :
    Yields files scope w (.call (.begin (.builtin .sum) [.call c, .call c'])) w'
      (.tuple (us ++ vs)) :=
  .call rfl (h.ends_strict rfl rfl rfl) rfl

end Builtins

namespace Library

/-! ## Small functions -/

section Lists

variable {files : Files} {w : World} {u v : Value} {us front : List Value}

theorem list_gives : list.Gives files w us w (.tuple us) :=
  ⟨[], ⟨⟨rfl, by simp, Scope.isNamed_nil⟩, List.nodup_nil⟩, Or.inr ⟨rfl, Nat.zero_le _⟩,
    .call rfl ⟨rfl, 10, rfl⟩ rfl⟩

/-- `list` with the values of its arguments. -/
theorem yields_list {scope : Scope} {w₁ : World} {args vs : List Value}
    (hargs : lookupAll scope w.globals (.begin (.user list) args) args = .ok vs)
    (h : AllYield files scope w vs w₁ us) :
    Yields files scope w (.call (.begin (.user list) args)) w₁ (.tuple us) :=
  .call rfl (h.ends_user hargs list_gives) rfl

/-- A call at the top of a program with a list of items. -/
theorem passes_list {d : Definition} {items : List Value} (hw : w.IsProper)
    (hitems : ∀ a ∈ items, a.isProper true = true)
    (hus : lookupAll [] w.globals (.begin (.user list) items) items = .ok us)
    (hvalues : ∀ u ∈ us, u.isCall = false) :
    Passes files d [.tuple us] w [] w
      (.begin (.user d) [.call (.begin (.user list) items)]) := by
  refine passes_of_yields hw ?_ rfl (yields_list hus (allYield_values hvalues)).singleton ?_
  · rw [List.forall_mem_singleton, Value.isProper_call]
    exact Call.begin_proper rfl hitems
  · intro c hc
    rw [Value.call.inj (List.mem_singleton.mp hc)]
    rfl

theorem takes_ls {d : Definition} (hparams : d.params = [.symbol "ls"]) (hd : d.variadic = false)
    (hcaptures : d.captures = []) : d.Takes ["ls"] := by
  refine ⟨⟨?_, by simp, ?_⟩, by simp⟩
  · rw [hparams, hd]
    rfl
  · rw [hcaptures]
    exact Scope.isNamed_nil

theorem last_gives (front : List Value) (hu : u.isCall = false) :
    last.Gives files w [.tuple (front ++ [u])] w u := by
  refine ⟨["ls"], takes_ls rfl rfl rfl, Or.inl rfl, .call rfl ?_ hu⟩
  have hvalues : AllYield files (last.bodyScope [.tuple (front ++ [u])]) w
      [.int (-1), .tuple (front ++ [u])] w [.int (-1), .tuple (front ++ [u])] :=
    allYield_values (by simp [Value.isCall])
  refine hvalues.ends_strict rfl rfl ?_
  show Outcome.ofExcept w (Value.nth (.int (-1)) (.tuple (front ++ [u]))) = _
  rw [Value.nth_last]
  rfl

/-- Comparing the length of a list with a number. -/
theorem yields_length_eq {scope : Scope} {arg lit : Value} {k : Int} {same : Bool}
    (us : List Value)
    (harg : lookupAll scope w.globals (.begin (.builtin .length) [arg]) [arg] = .ok [.tuple us])
    (hlit : lookupAll scope w.globals (.begin (.builtin .equality)
      [.call (.begin (.builtin .length) [arg]), lit]) [lit] = .ok [.int k])
    (hsame : decide ((us.length : Int) = k) = same) :
    Yields files scope w (.call (.begin (.builtin .equality)
      [.call (.begin (.builtin .length) [arg]), lit])) w (.bool same) := by
  have hlen : Yields files scope w (.call (.begin (.builtin .length) [arg])) w (.int us.length) :=
    .call rfl ((allYield_values (by simp [Value.isCall])).ends_strict rfl harg rfl) rfl
  have hargs : lookupAll scope w.globals (.begin (.builtin .equality)
      [.call (.begin (.builtin .length) [arg]), lit])
        [.call (.begin (.builtin .length) [arg]), lit] =
      .ok [.call (.begin (.builtin .length) [arg]), .int k] :=
    lookupAll_cons_iff.mpr ⟨[_], [.int k], rfl, hlit, Or.inl ⟨_, rfl, rfl⟩⟩
  have hboth : AllYield files scope w [.call (.begin (.builtin .length) [arg]), .int k] w
      [.int us.length, .int k] := .cons hlen (Yields.value rfl).singleton
  refine .call rfl (hboth.ends_strict rfl hargs ?_) rfl
  rw [Call.conclude_equality (by simp), Value.allEqual_int, hsame]
  rfl

theorem empty_gives_nil : empty.Gives files w [.tuple []] w (.int 1) :=
  ⟨["ls"], takes_ls rfl rfl rfl, Or.inl rfl, .call rfl ⟨rfl, 40, rfl⟩ rfl⟩

theorem empty_gives_cons : empty.Gives files w [.tuple (u :: us)] w .none := by
  refine ⟨["ls"], takes_ls rfl rfl rfl, Or.inl rfl, .call rfl ?_ rfl⟩
  have hequal : Yields files (empty.bodyScope [.tuple (u :: us)]) w
      (.call (.begin (.builtin .equality)
        [.call (.begin (.builtin .length) [.symbol "ls"]), .symbol "0"])) w (.bool false) :=
    yields_length_eq (k := 0) (u :: us) rfl rfl
      (decide_eq_false (Int.ofNat_ne_zero.mpr (Nat.succ_ne_zero _)))
  exact hequal.ends_no_branch rfl rfl

theorem yields_empty {scope : Scope} {arg : Value} (us : List Value)
    (harg : lookupAll scope w.globals (.begin (.user empty) [arg]) [arg] = .ok [.tuple us]) :
    Yields files scope w (.call (.begin (.user empty) [arg])) w
      (if us.isEmpty then .int 1 else .none) := by
  have hvalue : AllYield files scope w [.tuple us] w [.tuple us] := (Yields.value rfl).singleton
  cases us with
  | nil => exact .call rfl (hvalue.ends_user harg empty_gives_nil) rfl
  | cons u us => exact .call rfl (hvalue.ends_user harg empty_gives_cons) rfl

/-- **`body` gives the last of two values**, if neither is a symbol: they are arguments of a
deferred call. -/
theorem body_gives (hw : Provided w) (hu : u.isPlain = true) (hv : v.isPlain = true) :
    body.Gives files w [u, v] w v := by
  have hu' : u.isCall = false := Value.isCall_of_isPlain hu
  have hv' : v.isCall = false := Value.isCall_of_isPlain hv
  refine ⟨["call"], ⟨⟨rfl, by simp, Scope.isNamed_nil⟩, by simp⟩, Or.inr ⟨rfl, by simp⟩,
    .call rfl ?_ hv'⟩
  have hrest : AllYield files (body.bodyScope [u, v]) w [.tuple [v]] w [.tuple [v]] :=
    allYield_values (by simp [Value.isCall])
  have hempty : Yields files (body.bodyScope [u, v]) w
      (.call (.begin (.user empty) [.symbol "*"])) w .none := yields_empty [v] rfl
  have hfirst : Yields files (body.bodyScope [u, v]) w
      (.call (.begin (.builtin .sum) [.symbol "call"])) w u := sum_yields hu' rfl
  have hsecond : Yields files (body.bodyScope [u, v]) w
      (.call (.begin (.user last) [.symbol "*"])) w v :=
    .call rfl (hrest.ends_user rfl (last_gives [] hv')) hv'
  have hboth : Yields files (body.bodyScope [u, v]) w
      (.call (.defer (.symbol "list") [.call (.begin (.builtin .sum) [.symbol "call"]),
        .call (.begin (.user last) [.symbol "*"])])) w (.tuple [u, v]) := by
    have hlist : StandsFor (body.bodyScope [u, v]) w.globals "list" (.user list) :=
      Or.inr ⟨rfl, hw.functions ("list", list) (by simp [definitions])⟩
    exact hlist.yields rfl rfl (inTime_of_length rfl) (.cons hfirst hsecond.singleton)
      (by simp [hu, hv]) list_gives
  have hlast : Yields files (body.bodyScope [u, v]) w
      (.call (.begin (.user last) [.call (.defer (.symbol "list")
        [.call (.begin (.builtin .sum) [.symbol "call"]),
          .call (.begin (.user last) [.symbol "*"])])])) w v :=
    .call rfl (hboth.singleton.ends_user rfl (last_gives [u] hv')) hv'
  exact hempty.ends_branch rfl hlast

/-- `body` gives a single value back. -/
theorem body_gives_single (hu : u.isCall = false) : body.Gives files w [u] w u := by
  refine ⟨["call"], ⟨⟨rfl, by simp, Scope.isNamed_nil⟩, by simp⟩, Or.inl rfl, .call rfl ?_ hu⟩
  have hempty : Yields files (body.bodyScope [u]) w (.call (.begin (.user empty) [.symbol "*"])) w
      (.int 1) := yields_empty [] rfl
  have hvalue : Yields files (body.bodyScope [u]) w
      (.call (.begin (.builtin .sum) [.symbol "call"])) w u := sum_yields hu rfl
  exact hempty.ends_branch rfl hvalue

end Lists

/-! ## The first item and the others -/

section Splitting

variable {files : Files} {w : World} {id : Nat} {name : String} {b : Call} {x v : Value}
  {xs : List Value}

/-- The scope of the body of a function that splits a list, once the function `d` has been made. -/
def splittingScope (d : Definition) (xs : List Value) : Scope :=
  [(.symbol "ls", .tuple xs), (.symbol "f", .function (.user d))]

/-- A function that splits a list comes to what it makes of the list with its anonymous function. -/
theorem splitting_gives_of_yields (hw : Provided w)
    (h : Yields files (splittingScope (madeIn w "" ["head", "*"] b) xs)
      (afterMaking w "" ["head", "*"] b) (.call (.defer (.symbol "f") [.symbol "*ls"]))
        (afterMaking w "" ["head", "*"] b) v) :
    (splitting id name b).Gives files w [.tuple xs] (afterMaking w "" ["head", "*"] b) v := by
  refine ⟨["ls"], takes_ls rfl rfl rfl, Or.inl rfl, .call rfl ?_ h.isCall_eq_false⟩
  have hnames : AllYield files ((splitting id name b).bodyScope [.tuple xs]) w
      [.symbol "f", .call (.defining "" ["head", "*"] b)] (afterMaking w "" ["head", "*"] b)
        [.symbol "f", .function (.user (madeIn w "" ["head", "*"] b))] :=
    .cons (.value rfl) (hw.yields_defining rfl).singleton
  exact AllYield.ends_let [(_, _)] hnames rfl (by simp) rfl h

/-- **Splitting a list** hands its first item and the others to the anonymous function. -/
theorem splitting_gives (hw : Provided w) (hproper : w.IsProper) (hb : b.isProper = true)
    (hrest : hasRest (Call.defining "" ["head", "*"] b).args = true)
    (hxs : ∀ u ∈ x :: xs, u.isPlain = true)
    (h : ∀ w, Yields files [(.symbol "*", .tuple xs), (.symbol "head", x)] w (.call b) w v) :
    ∃ w', (splitting id name b).Gives files w [.tuple (x :: xs)] w' v ∧ OnlyBinds [""] w w' := by
  refine ⟨_, splitting_gives_of_yields hw ?_, hw.onlyBinds_afterMaking hproper rfl hb⟩
  have hgives : (madeIn w "" ["head", "*"] b).Gives files (afterMaking w "" ["head", "*"] b)
      (x :: xs) (afterMaking w "" ["head", "*"] b) v := by
    have hvariadic : (madeIn w "" ["head", "*"] b).variadic = true := hrest
    have hscope : (madeIn w "" ["head", "*"] b).bodyScope (x :: xs) =
        [(.symbol "*", .tuple xs), (.symbol "head", x)] := by
      unfold Definition.bodyScope Call.prepareUser Call.startScope
      rw [hvariadic]
      rfl
    refine ⟨["head"], ⟨⟨?_, by simp, Scope.isNamed_nil⟩, by simp⟩, Or.inr ⟨hvariadic, by simp⟩, ?_⟩
    · rw [hvariadic]
      rfl
    · rw [hscope]
      exact h _
  have hname : StandsFor (splittingScope (madeIn w "" ["head", "*"] b) (x :: xs))
      (afterMaking w "" ["head", "*"] b).globals "f" (.user (madeIn w "" ["head", "*"] b)) :=
    Or.inl rfl
  exact hname.yields_starred rfl [] rfl rfl rfl .nil hxs hgives

/-- An empty list has nothing to hand on, so that the anonymous function itself is the value. -/
theorem splitting_gives_nil (hw : Provided w) :
    (splitting id name b).Gives files w [.tuple []] (afterMaking w "" ["head", "*"] b)
      (.function (.user (madeIn w "" ["head", "*"] b))) := by
  have hname : StandsFor (splittingScope (madeIn w "" ["head", "*"] b) [])
      (afterMaking w "" ["head", "*"] b).globals "f" (.user (madeIn w "" ["head", "*"] b)) :=
    Or.inl rfl
  exact splitting_gives_of_yields hw (.call rfl (AllYield.nil.ends_short
    (lookupAll_standsFor_cons rfl hname rfl) (by simp)) rfl)

theorem head_gives (files : Files) (hw : Provided w) (hproper : w.IsProper)
    (hxs : ∀ u ∈ x :: xs, u.isPlain = true) :
    ∃ w', head.Gives files w [.tuple (x :: xs)] w' x ∧ OnlyBinds [""] w w' :=
  splitting_gives hw hproper rfl rfl hxs fun _ =>
    sum_yields (Value.isCall_of_isPlain (hxs x List.mem_cons_self)) rfl

theorem tail_gives (files : Files) (hw : Provided w) (hproper : w.IsProper)
    (hxs : ∀ u ∈ x :: xs, u.isPlain = true) :
    ∃ w', tail.Gives files w [.tuple (x :: xs)] w' (.tuple xs) ∧ OnlyBinds [""] w w' :=
  splitting_gives hw hproper rfl rfl hxs fun _ => sum_yields rfl rfl

end Splitting

end Library

end MiniLisp

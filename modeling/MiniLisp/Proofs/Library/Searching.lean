import MiniLisp.Proofs.Library.Lists

/-!
# `findif` and `find`

`findif` defines a helper that looks at one position of the list. The helper gives the position if
the function is true of it and of the item there, and otherwise calls itself with the next position,
unless this one is the last (`findifHelper_gives`). For an empty list the helper is not made at all.

`find` makes a function that has captured the value to be found, and calls `findif` with it. What
the function answers, and so what `find` gives, is a matter of comparing two values
(`find_returns`).
-/

namespace MiniLisp

/-! ## Positions -/

namespace Value

/-- A position in a list as a value, or none if there is no such position. -/
def ofPosition : Option Nat → Value
  | some i => int i
  | Option.none => none

theorem isPlain_ofPosition (p : Option Nat) : (ofPosition p).isPlain = true := by
  cases p <;> rfl

/-- The item at a position of a list. -/
theorem nth_of_getElem? {items : List Value} {i : Nat} {u : Value} (h : items[i]? = some u) :
    nth (int i) (tuple items) = .ok u := by
  obtain ⟨hlt, rfl⟩ := List.getElem?_eq_some_iff.mp h
  have hplace : (if (i : Int) < 0 then (i : Int) + (items.length : Int) else (i : Int)) = i :=
    if_neg (by omega)
  have hrange : (decide ((0 : Int) ≤ i) && decide ((i : Int) < items.length)) = true := by
    rw [Bool.and_eq_true, decide_eq_true_iff, decide_eq_true_iff]
    omega
  have hposition : position? items.length (i : Int) = some i := by
    unfold position?
    rw [hplace, if_pos hrange, Int.toNat_natCast]
  have hitems : (tuple items).items? = some items := rfl
  have hindex : (int i).index? = some (i : Int) := rfl
  rw [nth, hitems, hindex]
  dsimp only
  rw [hposition]
  dsimp only
  rw [List.getD_eq_getElem?_getD, h]
  rfl

theorem allEqual_text (s t : String) : allEqual [text s, text t] = .ok (decide (s = t)) := by
  refine allEqual_pair (by simp [isComparable]) (by simp [HasClash, Clash, isText]) ?_
  simp [core]

end Value

namespace Library

/-! ## `findif` -/

/-- The helper of `findif`. -/
def findifHelper (w : World) : Definition :=
  madeIn w "__findif_inner" ["idx", "ls", "pred"] findifInner

/-- The world in which `findif` applies its function: the helper has been made, if there is an
item. -/
def inFindif (w : World) (xs : List Value) : World :=
  if xs.isEmpty then w else afterMaking w "__findif_inner" ["idx", "ls", "pred"] findifInner

/-- The scope in which the helper looks at the position `i`. -/
def positionScope (fn : Function) (i : Nat) (all : List Value) : Scope :=
  [(.symbol "idx", .int i), (.symbol "ls", .tuple all), (.symbol "pred", .function fn)]

section Neq

variable {files : Files} {w : World}

/-- `neq` tells whether two numbers are different. -/
theorem neq_gives (m n : Int) :
    neq.Gives files w [.int m, .int n] w (.bool (!decide (m = n))) := by
  refine ⟨[], ⟨⟨rfl, by simp, Scope.isNamed_nil⟩, List.nodup_nil⟩, Or.inr ⟨rfl, Nat.zero_le _⟩,
    .call rfl ?_ rfl⟩
  have hvalues : AllYield files (neq.bodyScope [.int m, .int n]) w [.int m, .int n] w
      [.int m, .int n] := allYield_values (by simp [Value.isCall])
  have hequal : Yields files (neq.bodyScope [.int m, .int n]) w
      (.call (.begin (.builtin .equality) [.symbol "**"])) w (.bool (decide (m = n))) := by
    refine .call rfl (hvalues.ends_strict rfl rfl ?_) rfl
    rw [Call.conclude_equality (by simp), Value.allEqual_int]
    rfl
  exact hequal.singleton.ends_strict rfl rfl rfl

end Neq

section Findif

variable {files : Files} {fn : Function} {i : Nat} {w₀ w w₁ w' : World} {x v u : Value}
  {all xs vs : List Value} {text : String} {texts : List String}

theorem isProper_positionScope (hfn : fn.isProper = true)
    (hall : ∀ u ∈ all, u.isPlain = true ∧ u.isProper false = true) :
    Scope.isProper (positionScope fn i all) = true := by
  have hitems : Value.allProper false all = true := allProper_iff.mpr fun u hu => (hall u hu).2
  simp [positionScope, Scope.isProper, hitems, Value.isProper, hfn]

/-- `(pred idx (nth idx ls))` applies the function to the position and the item there. -/
theorem Ready.yields_answer {n : String} {d : Definition} (hready : Ready n d w)
    (h : Applies files fn w [.int i, x] w₁ v text) (hfn : fn.isProper = true)
    (hall : ∀ u ∈ all, u.isPlain = true ∧ u.isProper false = true) (hx : all[i]? = some x) :
    Yields files (positionScope fn i all) w (.call (.defer (.symbol "pred")
      [.symbol "idx", .call (.begin (.builtin .nth) [.symbol "idx", .symbol "ls"])])) w₁ v := by
  have hitem : x.isPlain = true ∧ x.isProper false = true := hall x (List.mem_of_getElem? hx)
  have hvalues : AllYield files (positionScope fn i all) w [.int i, .tuple all] w
      [.int i, .tuple all] := allYield_values (by simp [Value.isCall])
  have hnth : Yields files (positionScope fn i all) w
      (.call (.begin (.builtin .nth) [.symbol "idx", .symbol "ls"])) w x := by
    refine .call rfl (hvalues.ends_strict rfl rfl ?_) (Value.isCall_of_isPlain hitem.1)
    show Outcome.ofExcept w (Value.nth (.int i) (.tuple all)) = _
    rw [Value.nth_of_getElem? hx]
    rfl
  refine h.yields_of_allYield hfn hready.proper hready.provided.numbered
    (isProper_positionScope hfn hall) ?_ (Nat.le_refl 2) rfl rfl (.cons (.value rfl) hnth.singleton)
  exact List.forall_mem_cons.mpr ⟨⟨rfl, rfl⟩, List.forall_mem_singleton.mpr hitem⟩

/-- `(neq idx (- (len ls) 1))` tells whether the position is not the last. -/
theorem yields_hasNext {more : Bool} (hmore : (!decide ((i : Int) = all.length - 1)) = more) :
    Yields files (positionScope fn i all) w (.call (.begin (.user neq) [.symbol "idx",
      .call (.begin (.builtin .difference)
        [.call (.begin (.builtin .length) [.symbol "ls"]), .symbol "1"])])) w
          (.bool more) := by
  have hlength : Yields files (positionScope fn i all) w
      (.call (.begin (.builtin .length) [.symbol "ls"])) w (.int all.length) :=
    .call rfl ((Yields.value rfl).singleton.ends_strict rfl rfl rfl) rfl
  have hlast : Yields files (positionScope fn i all) w (.call (.begin (.builtin .difference)
      [.call (.begin (.builtin .length) [.symbol "ls"]), .symbol "1"])) w
        (.int (all.length - 1)) := by
    have hboth : AllYield files (positionScope fn i all) w
        [.call (.begin (.builtin .length) [.symbol "ls"]), .int 1] w
          [.int all.length, .int 1] := .cons hlength (Yields.value rfl).singleton
    exact .call rfl (hboth.ends_strict rfl rfl rfl) rfl
  rw [← hmore]
  exact .call rfl ((AllYield.cons (.value rfl) hlast.singleton).ends_user rfl (neq_gives _ _)) rfl

/-- The helper gives for a position what it chooses by what the function answers. -/
theorem Ready.findifHelper_gives_of_yields {n : String} {d : Definition} (hready : Ready n d w)
    (h : Applies files fn w [.int i, x] w₁ v text) (hfn : fn.isProper = true)
    (hall : ∀ u ∈ all, u.isPlain = true ∧ u.isProper false = true) (hx : all[i]? = some x)
    (hchosen : Yields files (positionScope fn i all) w₁ (if v.isTrue then
      .call (.begin (.builtin .sum) [.symbol "idx"]) else .call nextPosition) w' u) :
    (findifHelper w₀).Gives files w [.int i, .tuple all, .function fn] w' u := by
  refine ⟨["idx", "ls", "pred"], ⟨⟨rfl, by simp, Scope.isNamed_nil⟩, by simp⟩, Or.inl rfl,
    .call rfl ?_ hchosen.isCall_eq_false⟩
  exact (hready.yields_answer h hfn hall hx).ends_branch rfl hchosen

/-- Behind the last position there is nothing to look at. -/
theorem yields_nextPosition_last (hlast : i + 1 = all.length) :
    Yields files (positionScope fn i all) w (.call nextPosition) w .none := by
  have hno : (!decide ((i : Int) = all.length - 1)) = false := by
    rw [decide_eq_true (by omega)]
    rfl
  exact .call rfl ((yields_hasNext hno).ends_no_branch rfl rfl) rfl

/-- Otherwise the helper is called with the next position. -/
theorem Ready.yields_nextPosition (hready : Ready "__findif_inner" (findifHelper w₀) w)
    (hmore : i + 1 < all.length)
    (hgives : (findifHelper w₀).Gives files w [.int (i + 1 : Nat), .tuple all, .function fn] w' u) :
    Yields files (positionScope fn i all) w (.call nextPosition) w' u := by
  have hyes : (!decide ((i : Int) = all.length - 1)) = true := by
    rw [decide_eq_false (by omega)]
    rfl
  have hvalues : AllYield files (positionScope fn i all) w [.int i, .int 1] w [.int i, .int 1] :=
    allYield_values (by simp [Value.isCall])
  have hsum : Yields files (positionScope fn i all) w
      (.call (.begin (.builtin .sum) [.symbol "idx", .symbol "1"])) w (.int (i + 1 : Nat)) :=
    .call rfl (hvalues.ends_strict rfl rfl rfl) rfl
  have hargs : AllYield files (positionScope fn i all) w
      [.call (.begin (.builtin .sum) [.symbol "idx", .symbol "1"]), .tuple all, .function fn] w
        [.int (i + 1 : Nat), .tuple all, .function fn] :=
    .cons hsum (.cons (.value rfl) (Yields.value rfl).singleton)
  have hname : StandsFor (positionScope fn i all) w.globals "__findif_inner"
      (.user (findifHelper w₀)) := Or.inr ⟨rfl, hready.helper⟩
  have hcall : Yields files (positionScope fn i all) w (.call (.defer (.symbol "__findif_inner")
      [.call (.begin (.builtin .sum) [.symbol "idx", .symbol "1"]), .symbol "ls",
        .symbol "pred"])) w' u :=
    hname.yields rfl rfl (inTime_of_length rfl) hargs (by simp [Value.isPlain]) hgives
  exact .call rfl ((yields_hasNext hyes).ends_one_branch rfl rfl hcall) hgives.isCall_eq_false

theorem getElem?_of_drop (h : all.drop i = x :: xs) : all[i]? = some x := by
  have hfirst : (all.drop i)[0]? = some x := by rw [h]; rfl
  rwa [List.getElem?_drop, Nat.add_zero] at hfirst

/-- **The helper of `findif`** gives the first position from `i` on whose result is true. -/
theorem findifHelper_gives (hsearch : SearchesInTurn files fn i w xs w' vs texts)
    (hready : Ready "__findif_inner" (findifHelper w₀) w) (hfn : fn.isProper = true)
    (hall : ∀ u ∈ all, u.isPlain = true ∧ u.isProper false = true) (hdrop : all.drop i = xs)
    (hne : xs ≠ []) :
    (findifHelper w₀).Gives files w [.int i, .tuple all, .function fn] w'
      (.ofPosition ((vs.findIdx? Value.isTrue).map (· + i))) := by
  -- the list stays the same, and the values that are left are those from the position on
  induction hsearch with
  | nil => exact absurd rfl hne
  | @found i w w₁ x v xs text last hit =>
    refine hready.findifHelper_gives_of_yields last hfn hall (getElem?_of_drop hdrop) ?_
    have hhere : ([v].findIdx? Value.isTrue).map (· + i) = some i := by
      rw [List.findIdx?_cons, hit, if_pos rfl, Option.map_some, Nat.zero_add]
    rw [hit, hhere]
    exact sum_yields rfl rfl
  | @next i w w₁ w₂ x v xs vs text texts first miss rest ih =>
    refine hready.findifHelper_gives_of_yields first hfn hall (getElem?_of_drop hdrop) ?_
    have hready₁ := hready.mono first.writes
    have hlen : all.length - i = xs.length + 1 := by rw [← List.length_drop, hdrop]; rfl
    have htail : all.drop (i + 1) = xs := by rw [← List.tail_drop, hdrop]; rfl
    have hlater : ((v :: vs).findIdx? Value.isTrue).map (· + i) =
        (vs.findIdx? Value.isTrue).map (· + (i + 1)) := by
      rw [List.findIdx?_cons, miss, if_neg Bool.false_ne_true, Option.map_map]
      exact congrArg (Option.map · _) (funext fun k => by simp only [Function.comp]; omega)
    rw [miss, hlater]
    cases xs with
    | nil =>
      cases rest
      exact yields_nextPosition_last (by rw [List.length_nil] at hlen; omega)
    | cons y ys =>
      exact hready₁.yields_nextPosition (by rw [List.length_cons] at hlen; omega)
        (ih hready₁ htail (by simp))

theorem findif_gives (hw : Provided w) (hproper : w.IsProper) (hfn : fn.isProper = true)
    (hxs : ∀ u ∈ xs, u.isPlain = true ∧ u.isProper false = true)
    (hsearch : SearchesInTurn files fn 0 (inFindif w xs) xs w' vs texts) :
    findif.Gives files w [.function fn, .tuple xs] w'
      (.ofPosition (vs.findIdx? Value.isTrue)) := by
  have hempty : Yields files (findif.bodyScope [.function fn, .tuple xs]) w
      (.call (.begin (.user empty) [.symbol "ls"])) w (if xs.isEmpty then .int 1 else .none) :=
    yields_empty xs rfl
  have hcall := Value.isCall_of_isPlain (Value.isPlain_ofPosition (vs.findIdx? Value.isTrue))
  refine ⟨["predicate", "ls"], ⟨⟨rfl, by simp, Scope.isNamed_nil⟩, by simp⟩, Or.inl rfl,
    .call rfl ?_ hcall⟩
  cases xs with
  | nil =>
    cases hsearch
    exact hempty.ends_branch rfl (.call rfl ⟨rfl, 10, rfl⟩ rfl)
  | cons x xs =>
    have hready : Ready "__findif_inner" (findifHelper w) (inFindif w (x :: xs)) :=
      hw.ready hproper rfl rfl
    have hdefining : Yields files (findif.bodyScope [.function fn, .tuple (x :: xs)]) w
        (.call (.defining "__findif_inner" ["idx", "ls", "pred"] findifInner))
          (inFindif w (x :: xs)) (.function (.user (findifHelper w))) := hw.yields_defining rfl
    have hargs : AllYield files (findif.bodyScope [.function fn, .tuple (x :: xs)])
        (inFindif w (x :: xs)) [.int 0, .tuple (x :: xs), .function fn] (inFindif w (x :: xs))
          [.int 0, .tuple (x :: xs), .function fn] := allYield_values (by simp [Value.isCall])
    have hname : StandsFor (findif.bodyScope [.function fn, .tuple (x :: xs)])
        (inFindif w (x :: xs)).globals "__findif_inner" (.user (findifHelper w)) :=
      Or.inr ⟨rfl, hready.helper⟩
    have hstart : (vs.findIdx? Value.isTrue).map (· + 0) = vs.findIdx? Value.isTrue :=
      Option.map_id'
    have hgives := findifHelper_gives hsearch hready hfn hxs rfl (by simp)
    rw [hstart] at hgives
    have hhelper : Yields files (findif.bodyScope [.function fn, .tuple (x :: xs)])
        (inFindif w (x :: xs)) (.call (.defer (.symbol "__findif_inner")
          [.symbol "0", .symbol "ls", .symbol "predicate"])) w'
            (.ofPosition (vs.findIdx? Value.isTrue)) :=
      hname.yields rfl rfl (inTime_of_length rfl) hargs (by simp [Value.isPlain]) hgives
    have hboth := AllYield.cons hdefining hhelper.singleton
    exact hempty.ends_branch rfl (.call rfl (hboth.ends_user rfl (body_gives
      (hready.mono hsearch.writes).provided rfl (Value.isPlain_ofPosition _))) hcall)

theorem Provided.onlyBinds_inFindif (hw : Provided w) (hproper : w.IsProper) (xs : List Value) :
    OnlyBinds ["__findif_inner"] w (inFindif w xs) := by
  cases xs with
  | nil => exact .refl hw hproper
  | cons x xs => exact hw.onlyBinds_afterMaking hproper rfl rfl

theorem Provided.writes_inFindif (hw : Provided w) (h : (inFindif w xs).Writes w' text) :
    w'.output = w.output ++ text ∧
      ∀ n, n ≠ "__findif_inner" → w'.globals.find? (.symbol n) = w.globals.find? (.symbol n) := by
  cases xs with
  | nil => exact ⟨h.output, fun n _ => by rw [h.globals]; rfl⟩
  | cons x xs => exact hw.writes_afterMaking rfl h

theorem findif_sound : findif.Sound :=
  sound_of_mem_definitions (e := ("findif", findif)) (by simp [definitions])

end Findif

/-! ## `find` -/

/-- The function that `find` makes in the world `w` to find the value `v`. -/
def wanted (w : World) (v : Value) : Definition :=
  ⟨w.made, .symbol "", [.symbol "idx", .symbol "val"], false, .call isWanted, [(.symbol "v", v)]⟩

/-- The names that `find` binds. -/
def findNames : List String :=
  ["", "__findif_inner"]

section Find

variable {α : Type} {files : Files} {fn : Function} {i : Nat} {w₀ w w₁ : World} {v x : Value}
  {xs : List Value} {same : Bool}

/-- The function compares its second argument with the value. -/
theorem wanted_gives (i : Nat) (hx : x.isCall = false) (hv : v.isCall = false)
    (hsame : Value.allEqual [x, v] = .ok same) :
    (wanted w₀ v).Gives files w [.int i, x] w (.bool same) := by
  refine ⟨["idx", "val"], ⟨⟨rfl, by simp, ?_⟩, by simp⟩, Or.inl rfl, .call rfl ?_ rfl⟩
  · intro e he
    rw [List.mem_singleton.mp he]
    exact ⟨_, rfl⟩
  · have hvalues : AllYield files ((wanted w₀ v).bodyScope [.int i, x]) w [x, v] w [x, v] :=
      allYield_values (by simp [hx, hv])
    refine hvalues.ends_strict rfl rfl ?_
    rw [Call.conclude_equality (by simp), hsame]
    rfl

theorem wanted_applies (i : Nat) (hx : x.isPlain = true) (hv : v.isPlain = true)
    (hsame : Value.allEqual [x, v] = .ok same) :
    Applies files (.user (wanted w₀ v)) w [.int i, x] w (.bool same) "" := by
  have hgives : (wanted w₀ v).Gives files w [.int i, x] w (.bool same) :=
    wanted_gives i (Value.isCall_of_isPlain hx) (Value.isCall_of_isPlain hv) hsame
  exact ⟨hgives.invokes (List.forall_mem_cons.mpr ⟨rfl, List.forall_mem_singleton.mpr hx⟩), rfl,
    String.append_empty.symm⟩

/-- `find` makes its function under the empty name. -/
theorem Provided.yields_wanted (files : Files) (hw : Provided w) (v : Value) (xs : List Value) :
    ∃ w₁, w.Makes "" (wanted w v) w₁ ∧ Yields files (find.bodyScope [v, .tuple xs]) w
      (.call makeWanted) w₁ (.function (.user (wanted w v))) := by
  obtain ⟨w₁, hdefine, hmakes⟩ := hw.exists_makes (n := "") rfl
    [.symbol "idx", .symbol "val"] false (.call isWanted) [(.symbol "v", v)]
  refine ⟨w₁, hmakes, .call rfl ?_ rfl⟩
  have hname : Yields files (find.bodyScope [v, .tuple xs]) w
      (.call (.begin (.user list) [quoted "v"])) w (.tuple [.symbol "v"]) :=
    yields_list rfl (Yields.value rfl).singleton
  have hargs : AllYield files (find.bodyScope [v, .tuple xs]) w
      [.call (.begin (.user list) [quoted "v"]), .symbol "idx", .symbol "val"] w
        [.tuple [.symbol "v"], .symbol "idx", .symbol "val"] :=
    .cons hname (.cons (.value rfl) (Yields.value rfl).singleton)
  have hconclude : ∀ {q}, w.define (.symbol "") [.symbol "idx", .symbol "val"] false
      (.call isWanted) [(.symbol "v", v)] = q →
        (makeWanted.withBody (.call isWanted)).conclude w (find.bodyScope [v, .tuple xs])
          [.tuple [.symbol "v"], .symbol "idx", .symbol "val"] = Outcome.ofExcept q.1 q.2 := by
    rintro _ rfl
    rfl
  rw [ends_defining_iff rfl ⟨rfl, rfl⟩ rfl hargs.eachYields, hargs.argsEnd.afterArgs_iff]
  exact (hconclude hdefine).symm

theorem wanted_isProper (hv : v.isProper false = true) : (wanted w v).isProper = true := by
  have hfun : Value.isProper false (.function (.user (wanted w v))) = true := by
    refine isProper_user_iff.mpr ⟨rfl, fun e he => ?_⟩
    rw [List.mem_singleton.mp he]
    exact hv
  exact hfun

/-- If a function only answers for each value, without doing anything else, a search comes to the
first value for which the answer is yes. -/
theorem searchesInTurn_of_answers (key : α → Value) (p : α → Bool) (xs : List α)
    (h : ∀ (i : Nat) x, Applies files fn w [.int i, key x] w (.bool (p x)) "") :
    ∃ vs texts, SearchesInTurn files fn i w (xs.map key) w vs texts ∧
      vs.findIdx? Value.isTrue = xs.findIdx? p := by
  induction xs generalizing i with
  | nil => exact ⟨[], [], .nil, rfl⟩
  | cons x xs ih =>
    have htruth : (Value.bool (p x)).isTrue = p x := rfl
    cases hp : p x with
    | true =>
      refine ⟨[.bool (p x)], [""], .found (h i x) (htruth.trans hp), ?_⟩
      rw [List.findIdx?_cons, List.findIdx?_cons, htruth, hp, if_pos rfl, if_pos rfl]
    | false =>
      obtain ⟨vs, texts, hsearch, hfirst⟩ := ih (i := i + 1)
      refine ⟨.bool (p x) :: vs, "" :: texts, .next (h i x) (htruth.trans hp) hsearch, ?_⟩
      rw [List.findIdx?_cons, List.findIdx?_cons, htruth, hp, hfirst]

/-- `find` gives what `findif` gives for the function that was made. -/
theorem find_gives {w' : World} {u : Value}
    (hwanted : Yields files (find.bodyScope [v, .tuple xs]) w (.call makeWanted) w₁ (.function fn))
    (hgives : findif.Gives files w₁ [.function fn, .tuple xs] w' u) :
    find.Gives files w [v, .tuple xs] w' u := by
  have hargs : AllYield files (find.bodyScope [v, .tuple xs]) w [.call makeWanted, .tuple xs] w₁
      [.function fn, .tuple xs] := .cons hwanted (Yields.value rfl).singleton
  have hfindif : Yields files (find.bodyScope [v, .tuple xs]) w
      (.call (.begin (.user findif) [.call makeWanted, .symbol "ls"])) w' u :=
    .call rfl (hargs.ends_user rfl hgives) hgives.isCall_eq_false
  refine ⟨["v", "ls"], ⟨⟨rfl, by simp, Scope.isNamed_nil⟩, by simp⟩, Or.inl rfl,
    .call rfl ?_ hgives.isCall_eq_false⟩
  exact hfindif.singleton.ends_user rfl (body_gives_single hgives.isCall_eq_false)

/-- **`find` gives the position of the first item that is equal to a value**, for a kind of values
that can be compared with each other. -/
theorem find_returns (hw : Provided w) (key : α → Value) (p : α → Bool) (xs : List α)
    (hkey : ∀ x, (key x).isPlain = true) (hv : v.isPlain = true)
    (hsame : ∀ x, Value.allEqual [key x, v] = .ok (p x)) :
    find.Returns files w [v, .tuple (xs.map key)] findNames
      (.value (.ofPosition (xs.findIdx? p))) := by
  have hsound : find.Sound := sound_of_mem_definitions (e := ("find", find)) (by simp [definitions])
  refine returns_of_runs hsound fun hproper hus => ?_
  have hproperWanted : (wanted w v).isProper = true := wanted_isProper (hus v (by simp))
  have hfn : (Function.user (wanted w v)).isProper = true := hproperWanted
  have hitems : ∀ u ∈ xs.map key, u.isPlain = true ∧ u.isProper false = true := by
    refine fun u hu => ⟨?_, isProper_kind.tuple.mp (hus (.tuple _) (by simp)) u hu⟩
    obtain ⟨x, -, rfl⟩ := List.mem_map.mp hu
    exact hkey x
  obtain ⟨w₁, hmakes, hwanted⟩ := hw.yields_wanted files v (xs.map key)
  have hkeeps₁ : OnlyBinds [""] w w₁ := hw.onlyBinds hproper hmakes rfl hfn
  have hanswers : ∀ (i : Nat) x, Applies files (.user (wanted w v)) (inFindif w₁ (xs.map key))
      [.int i, key x] (inFindif w₁ (xs.map key)) (.bool (p x)) "" :=
    fun i x => wanted_applies i (hkey x) hv (hsame x)
  obtain ⟨vs, texts, hsearch, hfirst⟩ := searchesInTurn_of_answers (i := 0) key p xs hanswers
  have hgives := findif_gives hkeeps₁.provided hkeeps₁.proper hfn hitems hsearch
  rw [hfirst] at hgives
  have hfind := find_gives hwanted hgives
  exact ⟨_, hfind.runs, (hkeeps₁.mono (by simp [findNames])).trans
    ((hkeeps₁.provided.onlyBinds_inFindif hkeeps₁.proper _).mono (by simp [findNames]))⟩

/-- **`findif` and `find` give the first position.** Let the global scope come from importing the
library once and adding functions under other names.

`findif` first makes its helper, if there is an item. Let `fn`, applied from there on to the
position 0 and the first item of a tuple, to the position 1 and the second item, and so on, succeed
and leave the global scope as it is each time until a result is true. No item is a symbol. Then
every call of `findif` with `fn` and this tuple makes these applications and no others, and has the
first position with a true result, or none if there is no such position. What is written is what the
applications write, and no name but that of the helper has got another value.

Every call of `find` with a number and a tuple of numbers, or with a text and a tuple of texts, has
the first position of an equal item, or none. -/
theorem findif_and_find_give_first_position (hfile : files.contents? path = some source)
    (hw : Extended files w) :
    w.globals.find? (.symbol "findif") = .ok (some (.function (.user findif))) ∧
      w.globals.find? (.symbol "find") = .ok (some (.function (.user find))) ∧
      (∀ fn xs w' vs texts, (∀ x ∈ xs, x.isPlain = true) →
        SearchesInTurn files fn 0 (inFindif w xs) xs w' vs texts →
          (∀ scope w₀ c, Passes files findif [.function fn, .tuple xs] w scope w₀ c →
            ∀ o, Ends files w₀ (.start c scope) o ↔
              o = ⟨w', .value (.ofPosition (vs.findIdx? Value.isTrue))⟩) ∧
          vs.length = (vs.findIdx? Value.isTrue).elim xs.length (· + 1) ∧
          texts.length = vs.length ∧ w'.output = w.output ++ String.join texts ∧
          ∀ n, n ≠ "__findif_inner" →
            w'.globals.find? (.symbol n) = w.globals.find? (.symbol n)) ∧
      (∀ (m : Int) (ns : List Int), find.Returns files w [.int m, .tuple (ns.map .int)]
        ["", "__findif_inner"] (.value (.ofPosition (ns.findIdx? fun n => decide (n = m))))) ∧
      ∀ (t : String) (ts : List String), find.Returns files w [.text t, .tuple (ts.map .text)]
        ["", "__findif_inner"] (.value (.ofPosition (ts.findIdx? fun s => decide (s = t)))) := by
  have hprovided : Provided w := hw.provided hfile
  refine ⟨hprovided.functions ("findif", findif) (by simp [definitions]),
    hprovided.functions ("find", find) (by simp [definitions]), ?_, ?_, ?_⟩
  · intro fn xs w' vs texts hxs hsearch
    obtain ⟨houtput, hglobals⟩ := hprovided.writes_inFindif hsearch.writes
    refine ⟨fun scope w₀ c hc o => ?_, hsearch.length_eq, hsearch.length_texts, houtput, hglobals⟩
    obtain ⟨hproper, hus⟩ := hc.proper
    have hitems : ∀ x ∈ xs, x.isPlain = true ∧ x.isProper false = true :=
      fun x hx => ⟨hxs x hx, isProper_kind.tuple.mp (hus (.tuple xs) (by simp)) x hx⟩
    have hgives := findif_gives hprovided hproper (hus (.function fn) (by simp)) hitems hsearch
    exact hgives.ends_iff findif_sound hc
  · intro m ns
    exact find_returns hprovided .int _ ns (fun _ => rfl) rfl fun n => Value.allEqual_int n m
  · intro t ts
    exact find_returns hprovided .text _ ts (fun _ => rfl) rfl fun s => Value.allEqual_text s t

/-- `(findif small (list 4 0 7))`, where `small` is `(< x i)`, stops at the position 1. `find` gives
the position 0 for a text that comes first, and none for a number in an empty list. -/
theorem findif_and_find_give_first_position_small :
    let files : Files := .ofList [(path, source)]
    let b : Call := .begin (.builtin .lessThan) [.symbol "x", .symbol "i"]
    let w : World := afterMaking (imported false) "small" ["i", "x"] b
    let numbers : Call := .begin (.user list) [.symbol "4", .symbol "0", .symbol "7"]
    let letters : Call := .begin (.user list) [.text "b", .text "a", .text "b"]
    Extended files w ∧
      (∃ w', w'.output = w.output ∧
        Ends files w (.start (.begin (.user findif) [.symbol "small", .call numbers]) [])
          ⟨w', .value (.int 1)⟩) ∧
      (∃ w', Ends files w (.start (.begin (.user find) [.text "b", .call letters]) [])
        ⟨w', .value (.int 0)⟩) ∧
      ∃ w', Ends files w (.start (.begin (.user find)
        [.symbol "5", .call (.begin (.user list) [])]) []) ⟨w', .value .none⟩ := by
  intro files b w numbers letters
  have hw : Extended files w :=
    (extended_imported false rfl).afterMaking rfl (by decide) (by decide)
  have hready : Ready "small" (madeIn (imported false) "small" ["i", "x"] b) w :=
    ready_afterMaking false (by decide) ["i", "x"] rfl
  obtain ⟨-, -, hfindif, hnumbers, htexts⟩ := findif_and_find_give_first_position rfl hw
  refine ⟨hw, ?_, ?_, ?_⟩
  · have hmiss : Applies files (.user (madeIn (imported false) "small" ["i", "x"] b))
        (inFindif w [.int 4, .int 0, .int 7]) [.int 0, .int 4]
          (inFindif w [.int 4, .int 0, .int 7]) (.bool false) "" :=
      ⟨⟨rfl, 30, rfl⟩, rfl, String.append_empty.symm⟩
    have hhit : Applies files (.user (madeIn (imported false) "small" ["i", "x"] b))
        (inFindif w [.int 4, .int 0, .int 7]) [.int 1, .int 0]
          (inFindif w [.int 4, .int 0, .int 7]) (.bool true) "" :=
      ⟨⟨rfl, 30, rfl⟩, rfl, String.append_empty.symm⟩
    obtain ⟨hends, -, -, houtput, -⟩ := hfindif _ [.int 4, .int 0, .int 7] _ _ _
      (by simp [Value.isPlain]) (.next hmiss rfl (.found hhit rfl))
    exact ⟨_, houtput.trans String.append_empty, (hends _ _ _ (hready.passes
      (by simp [Value.isProper]) ⟨rfl, 20, rfl⟩ (by simp) rfl (by simp)) _).mpr rfl⟩
  · have hargs : AllYield files [] w [.text "b", .call letters] w
        [.text "b", .tuple [.text "b", .text "a", .text "b"]] :=
      .cons (.value rfl) (yields_list rfl (allYield_values (by simp [Value.isCall]))).singleton
    obtain ⟨w', hends, -⟩ := htexts "b" ["b", "a", "b"] [] w
      (.begin (.user find) [.text "b", .call letters])
        (passes_of_yields hready.proper (by decide) rfl hargs (by simp [letters, Call.begin]))
    exact ⟨w', (hends _).mpr rfl⟩
  · have hargs : AllYield files [] w [.int 5, .call (.begin (.user list) [])] w
        [.int 5, .tuple []] := .cons (.value rfl) (yields_list rfl .nil).singleton
    obtain ⟨w', hends, -⟩ := hnumbers 5 [] [] w
      (.begin (.user find) [.symbol "5", .call (.begin (.user list) [])])
        (passes_of_yields hready.proper (by decide) rfl hargs (by simp [Call.begin]))
    exact ⟨w', (hends _).mpr rfl⟩

end Find

end Library

end MiniLisp

import MiniLisp.Proofs.Library.Lists

/-!
# `map` and `filter`

Both functions define a helper and call it with the items of the list. The helper looks at the first
item, calls itself with the others, and makes a list of the two results, so that a nested list comes
out, whose leaves are gathered at the end (`gathering_ends_iff`). What the helpers give is found by
induction on the items (`mapHelper_gives_nested`, `filterHelper_gives_nested`).

The function that they are given is called once with each item, from the first to the last. The
results of `map` (`map_applies_to_each_item`) and the items that `filter` keeps
(`filter_keeps_true_items`) must not be lists or symbols, since these are flattened away.
-/

namespace MiniLisp

namespace Library

/-! ## Gathering -/

/-- The helper of a function that gathers. -/
def itemHelper (w : World) (n : String) (inner : Call) : Definition :=
  madeIn w n ["fn", "first", "*"] inner

/-- The world in which the helper of a function that gathers has been made. -/
def withItemHelper (w : World) (n : String) (inner : Call) : World :=
  afterMaking w n ["fn", "first", "*"] inner

/-- The scope of the body of a function that gathers. -/
def listScope (fn : Function) (xs : List Value) : Scope :=
  [(.symbol "fn", .function fn), (.symbol "ls", .tuple xs)]

/-- The scope in which its helper looks at the item `x` with the items `xs` behind it. -/
def itemScope (fn : Function) (x : Value) (xs : List Value) : Scope :=
  [(.symbol "*", .tuple xs), (.symbol "fn", .function fn), (.symbol "first", x)]

section Gathering

variable {files : Files} {fn : Function} {w w₁ w' : World} {n : String} {d : Definition}
  {x y v : Value} {xs ys vs rs : List Value} {text : String} {texts : List String} {inner : Call}

/-- The helper is called with all items of the list, and what it gives is flattened. -/
theorem Ready.yields_gathered (h : Ready n d w) (hxs : ∀ x ∈ xs, x.isPlain = true)
    (hnil : xs = [] → w' = w ∧ vs = [])
    (hcons : xs ≠ [] → ∃ items, d.Gives files w (.function fn :: xs) w' (.tuple items) ∧
      Value.leavesOf items = .ok vs) :
    Yields files (listScope fn xs) w (.call (gathered n)) w' (.tuple vs) := by
  have hempty : Yields files (listScope fn xs) w (.call (.begin (.user empty) [.symbol "ls"])) w
      (if xs.isEmpty then .int 1 else .none) := yields_empty xs rfl
  have htruth : AllYield files (listScope fn xs) w [.call (.begin (.builtin .truth) [])] w
      [.bool true] := (Yields.call rfl ⟨rfl, 10, rfl⟩ rfl).singleton
  cases xs with
  | nil =>
    obtain ⟨rfl, rfl⟩ := hnil rfl
    exact .call rfl (AllYield.ends_choice [(_, _), (_, _)] (.cons hempty htruth) rfl rfl
      rfl (yields_list rfl .nil)) rfl
  | cons y ys =>
    obtain ⟨items, hgives, hleaves⟩ := hcons (by simp)
    have hhelper : Yields files (listScope fn (y :: ys)) w
        (.call (.defer (.symbol n) [.symbol "fn", .symbol "*ls"])) w' (.tuple items) := by
      refine h.yields [.symbol "fn"] ?_ rfl rfl rfl (Yields.value rfl).singleton
        (List.forall_mem_cons.mpr ⟨rfl, hxs⟩) hgives
      simp [listScope, parameters]
    exact .call rfl (AllYield.ends_choice [(_, _), (_, _)] (.cons hempty htruth) rfl rfl
      rfl (hhelper.flatten rfl hleaves)) rfl

theorem gathering_sound {id : Nat} {name : String} (hinner : inner.isProper = true) :
    (gathering id name n inner).Sound := by
  have hdefining : (Call.defining n ["fn", "first", "*"] inner).isProper = true :=
    Call.begin_proper rfl (by simp [quoted, Value.isProper, hinner])
  have hgathered : (gathered n).isProper = true := rfl
  have hbody : (Call.begin (.user body)
      [.call (.defining n ["fn", "first", "*"] inner), .call (gathered n)]).isProper = true :=
    Call.begin_proper rfl (by simp [hdefining, hgathered])
  refine ⟨?_, ?_⟩
  · rw [gathering, Definition.isProper, Value.isProper_call, hbody]
    rfl
  · rintro _ ⟨⟩
    rfl

/-- **Gathering** comes to the leaves of what the helper gives for the items of the list. -/
theorem gathering_ends_iff {id : Nat} {name : String} (hw : Provided w)
    (hn : isHelperName n = true) (hinner : inner.isProper = true)
    (hxs : ∀ x ∈ xs, x.isPlain = true)
    (happly : AppliesInTurn files fn (withItemHelper w n inner) xs w' rs texts)
    (hnil : xs = [] → vs = [])
    (hcons : xs ≠ [] → Ready n (itemHelper w n inner) (withItemHelper w n inner) →
      fn.isProper = true → (∀ x ∈ xs, x.isPlain = true ∧ x.isProper false = true) →
        ∃ items, (itemHelper w n inner).Gives files (withItemHelper w n inner)
          (.function fn :: xs) w' (.tuple items) ∧ Value.leavesOf items = .ok vs)
    {scope : Scope} {w₀ : World} {c : Call} {o : Outcome}
    (hc : Passes files (gathering id name n inner) [.function fn, .tuple xs] w scope w₀ c) :
    Ends files w₀ (.start c scope) o ↔ o = ⟨w', .value (.tuple vs)⟩ := by
  -- that the world and the values are proper is known from the call
  obtain ⟨hproper, hus⟩ := hc.proper
  have hready : Ready n (itemHelper w n inner) (withItemHelper w n inner) :=
    hw.ready hproper hn hinner
  have hitems : ∀ x ∈ xs, x.isPlain = true ∧ x.isProper false = true :=
    fun x hx => ⟨hxs x hx, isProper_kind.tuple.mp (hus (.tuple xs) (by simp)) x hx⟩
  have hdefining : Yields files (listScope fn xs) w
      (.call (.defining n ["fn", "first", "*"] inner)) (withItemHelper w n inner)
        (.function (.user (itemHelper w n inner))) := hw.yields_defining hn
  have hgathered : Yields files (listScope fn xs) (withItemHelper w n inner) (.call (gathered n)) w'
      (.tuple vs) := by
    refine hready.yields_gathered hxs (fun hxs => ⟨?_, hnil hxs⟩) fun hne =>
      hcons hne hready (hus (.function fn) (by simp)) hitems
    subst hxs
    cases happly
    rfl
  have hgives : (gathering id name n inner).Gives files w [.function fn, .tuple xs] w'
      (.tuple vs) := by
    refine ⟨["fn", "ls"], ⟨⟨rfl, by simp, Scope.isNamed_nil⟩, by simp⟩, Or.inl rfl,
      .call rfl ?_ rfl⟩
    exact (AllYield.cons hdefining hgathered.singleton).ends_user rfl
      (body_gives (hready.mono happly.writes).provided rfl rfl)
  exact hgives.ends_iff (gathering_sound hinner) hc

/-! ## The items of a list -/

theorem isProper_itemScope (hfn : fn.isProper = true)
    (hxs : ∀ u ∈ x :: xs, u.isPlain = true ∧ u.isProper false = true) :
    Scope.isProper (itemScope fn x xs) = true := by
  rw [List.forall_mem_cons] at hxs
  have hrest : Value.allProper false xs = true := allProper_iff.mpr fun u hu => (hxs.2 u hu).2
  simp [itemScope, Scope.isProper, hrest, hxs.1.2, Value.isProper, hfn]

/-- `(fn first)` applies the function to the item. -/
theorem Ready.yields_first (hready : Ready n d w) (h : Applies files fn w [x] w₁ v text)
    (hfn : fn.isProper = true)
    (hxs : ∀ u ∈ x :: xs, u.isPlain = true ∧ u.isProper false = true) :
    Yields files (itemScope fn x xs) w (.call (.defer (.symbol "fn") [.symbol "first"])) w₁ v := by
  refine h.yields hfn hready.proper hready.provided.numbered (isProper_itemScope hfn hxs) ?_
    (by simp) rfl rfl
  intro u hu
  rw [List.mem_singleton.mp hu]
  exact hxs x List.mem_cons_self

/-- The helper is called with the items that are left. -/
theorem Ready.yields_rest (h : Ready n d w) (hys : ∀ u ∈ y :: ys, u.isPlain = true)
    (hgives : d.Gives files w (.function fn :: y :: ys) w₁ v) :
    Yields files (itemScope fn x (y :: ys)) w
      (.call (.defer (.symbol n) [.symbol "fn", .symbol "**"])) w₁ v := by
  refine h.yields [.symbol "fn"] ?_ rfl rfl rfl (Yields.value rfl).singleton
    (List.forall_mem_cons.mpr ⟨rfl, hys⟩) hgives
  simp [itemScope, parameters]

/-- A helper gives for its items what its body comes to in their scope. -/
theorem itemHelper_gives {w₀ : World} (hrest : (itemHelper w₀ n inner).variadic = true)
    (h : Yields files (itemScope fn x xs) w (.call inner) w' v) :
    (itemHelper w₀ n inner).Gives files w (.function fn :: x :: xs) w' v := by
  have hscope : (itemHelper w₀ n inner).bodyScope (.function fn :: x :: xs) =
      itemScope fn x xs := by
    unfold Definition.bodyScope Call.prepareUser Call.startScope
    rw [hrest]
    rfl
  refine ⟨["fn", "first"], ⟨⟨?_, by simp, Scope.isNamed_nil⟩, by simp⟩, Or.inr ⟨hrest, by simp⟩, ?_⟩
  · rw [hrest]
    rfl
  · rw [hscope]
    exact h

end Gathering

/-! ## `map` -/

/-- The world in which `map` applies its function: the helper has been made. -/
def inMap (w : World) : World :=
  withItemHelper w "__map_inner" mapInner

section Map

variable {files : Files} {fn : Function} {w₀ w w' : World} {x : Value} {xs vs : List Value}
  {texts : List String}

/-- **The helper of `map`** gives a nested list with the leaves of the results. -/
theorem mapHelper_gives_nested
    (hready : Ready "__map_inner" (itemHelper w₀ "__map_inner" mapInner) w)
    (hfn : fn.isProper = true)
    (hxs : ∀ u ∈ x :: xs, u.isPlain = true ∧ u.isProper false = true)
    (happly : AppliesInTurn files fn w (x :: xs) w' vs texts) :
    ∃ items, (itemHelper w₀ "__map_inner" mapInner).Gives files w (.function fn :: x :: xs) w'
        (.tuple items) ∧ Value.leavesOf items = Value.leavesOf vs := by
  -- the helper calls itself with the items behind the first, in the world that this one has left
  induction xs generalizing x w vs texts with
  | nil =>
    cases happly with
    | @cons _ _ _ _ v _ _ _ _ first rest =>
      cases rest
      refine ⟨[v], itemHelper_gives rfl ?_, rfl⟩
      have hempty : Yields files (itemScope fn x []) w
          (.call (.begin (.user empty) [.symbol "*"])) w (.int 1) := yields_empty [] rfl
      exact .call rfl (hempty.ends_branch rfl
        (yields_list rfl (hready.yields_first first hfn hxs).singleton)) rfl
  | cons y ys ih =>
    cases happly with
    | @cons _ w₁ _ _ v _ vs _ _ first rest =>
      have hys : ∀ u ∈ y :: ys, u.isPlain = true ∧ u.isProper false = true :=
        fun u hu => hxs u (List.mem_cons_of_mem x hu)
      have hready₁ := hready.mono first.writes
      obtain ⟨items, hgives, hleaves⟩ := ih hready₁ hys rest
      refine ⟨[v, .tuple items], itemHelper_gives rfl ?_,
        Value.leavesOf_cons_congr v (Value.leavesOf_singleton_tuple.trans hleaves)⟩
      have hempty : Yields files (itemScope fn x (y :: ys)) w
          (.call (.begin (.user empty) [.symbol "*"])) w .none := yields_empty (y :: ys) rfl
      exact .call rfl (hempty.ends_branch rfl
        (yields_list rfl (.cons (hready.yields_first first hfn hxs)
          (hready₁.yields_rest (fun u hu => (hys u hu).1) hgives).singleton))) rfl

/-- If the results are no lists, they are the leaves. -/
theorem mapHelper_gives (hready : Ready "__map_inner" (itemHelper w₀ "__map_inner" mapInner) w)
    (hfn : fn.isProper = true)
    (hxs : ∀ u ∈ x :: xs, u.isPlain = true ∧ u.isProper false = true)
    (happly : AppliesInTurn files fn w (x :: xs) w' vs texts)
    (hvs : ∀ v ∈ vs, v.isScalar = true) :
    ∃ items, (itemHelper w₀ "__map_inner" mapInner).Gives files w (.function fn :: x :: xs) w'
        (.tuple items) ∧ Value.leavesOf items = .ok vs := by
  obtain ⟨items, hgives, hleaves⟩ := mapHelper_gives_nested hready hfn hxs happly
  exact ⟨items, hgives, hleaves.trans
    (Value.leavesOf_eq_self fun v hv => Value.leaves_of_isScalar (hvs v hv))⟩

/-- **`map` applies a function once to each item**, from the first to the last. Let the global scope
come from importing the library once and adding functions under other names. `map` first makes its
helper; let `fn`, applied from there on to the items `xs` of a tuple in turn, succeed each time and
leave the global scope as it is. No item is a symbol, and no result is a tuple, a list or a symbol.
Then every call of `map` with `fn` and this tuple makes these applications and has the tuple of the
results. What is written is what the applications write, and no name but that of the helper has got
another value. -/
theorem map_applies_to_each_item (hfile : files.contents? path = some source)
    (hw : Extended files w) (hxs : ∀ x ∈ xs, x.isPlain = true)
    (happly : AppliesInTurn files fn (inMap w) xs w' vs texts)
    (hvs : ∀ v ∈ vs, v.isScalar = true) :
    w.globals.find? (.symbol "map") = .ok (some (.function (.user map))) ∧
      (∀ scope w₀ c, Passes files map [.function fn, .tuple xs] w scope w₀ c →
        ∀ o, Ends files w₀ (.start c scope) o ↔ o = ⟨w', .value (.tuple vs)⟩) ∧
      vs.length = xs.length ∧ w'.output = w.output ++ String.join texts ∧
      ∀ n, n ≠ "__map_inner" → w'.globals.find? (.symbol n) = w.globals.find? (.symbol n) := by
  have hprovided : Provided w := hw.provided hfile
  obtain ⟨houtput, hglobals⟩ := hprovided.writes_afterMaking rfl happly.writes
  refine ⟨hprovided.functions ("map", map) (by simp [definitions]), ?_, happly.length_eq, houtput,
    hglobals⟩
  intro scope w₀ c hc o
  refine gathering_ends_iff hprovided rfl rfl hxs happly ?_ ?_ hc
  · rintro rfl
    cases happly
    rfl
  · intro hne hready hfn hitems
    obtain ⟨x, xs, rfl⟩ := List.exists_cons_of_ne_nil hne
    exact mapHelper_gives hready hfn hitems happly hvs

/-- `(map say (list "a" "b"))`, where `say` prints its argument and gives it back: the texts are
printed in this order, and the list of them comes back. -/
theorem map_applies_to_each_item_say :
    let files : Files := .ofList [(path, source)]
    let b : Call := .begin (.builtin .branch) [.call (.begin (.builtin .print) [.symbol "x"]),
      .call (.begin (.builtin .nothing) []), .call (.begin (.builtin .sum) [.symbol "x"])]
    let w : World := afterMaking (imported false) "say" ["x"] b
    let ls : Call := .begin (.user list) [.text "a", .text "b"]
    Extended files w ∧ ∃ w', w'.output = w.output ++ "a\nb\n" ∧
      Ends files w (.start (.begin (.user map) [.symbol "say", .call ls]) [])
        ⟨w', .value (.tuple [.text "a", .text "b"])⟩ := by
  intro files b w ls
  have hw : Extended files w :=
    (extended_imported false rfl).afterMaking rfl (by decide) (by decide)
  have hready : Ready "say" (madeIn (imported false) "say" ["x"] b) w :=
    ready_afterMaking false (by decide) ["x"] rfl
  have hsay : ∀ w' t, Applies files (.user (madeIn (imported false) "say" ["x"] b)) w' [.text t]
      ((w'.write t).write "\n") (.text t) (t ++ "\n") := fun w' t =>
    ⟨⟨rfl, 30, rfl⟩, rfl, String.append_assoc ..⟩
  have happly := AppliesInTurn.cons (hsay (inMap w) "a") (.cons (hsay _ "b") .nil)
  obtain ⟨-, hends, -, houtput, -⟩ := map_applies_to_each_item rfl hw (by simp [Value.isPlain])
    happly (by simp [Value.isScalar, Value.isPlain, Value.branches?])
  exact ⟨hw, _, houtput, (hends _ _ _ (hready.passes (by simp [Value.isProper]) ⟨rfl, 20, rfl⟩
    (by simp) rfl (by simp)) _).mpr rfl⟩

end Map

/-! ## `filter` -/

/-- The world in which `filter` applies its function: the helper has been made. -/
def inFilter (w : World) : World :=
  withItemHelper w "__filter_inner" filterInner

/-- The items for which there is a true result. -/
def kept (xs vs : List Value) : List Value :=
  ((xs.zip vs).filter fun e => e.2.isTrue).map Prod.fst

section Filter

variable {files : Files} {fn : Function} {w₀ w w₁ w' : World} {x v : Value}
  {xs vs : List Value} {text : String} {texts : List String}

theorem kept_cons :
    kept (x :: xs) (v :: vs) = (if v.isTrue then [x] else []) ++ kept xs vs := by
  unfold kept
  rw [List.zip_cons_cons, List.filter_cons]
  cases v.isTrue <;> rfl

theorem mem_of_mem_kept (h : x ∈ kept xs vs) : x ∈ xs := by
  obtain ⟨e, he, rfl⟩ := List.mem_map.mp h
  exact (List.of_mem_zip (List.mem_of_mem_filter he)).1

/-- What the helper of `filter` makes of an item: the item or an empty list. -/
theorem Ready.yields_chosen {n : String} {d : Definition} (hready : Ready n d w)
    (h : Applies files fn w [x] w₁ v text) (hfn : fn.isProper = true)
    (hxs : ∀ u ∈ x :: xs, u.isPlain = true ∧ u.isProper false = true) :
    Yields files (itemScope fn x xs) w (.call (.begin (.builtin .branch)
      [.call (.defer (.symbol "fn") [.symbol "first"]),
        .call (.begin (.builtin .sum) [.symbol "first"]), .call (.begin (.user list) [])])) w₁
      (if v.isTrue then x else .tuple []) := by
  have hx : x.isCall = false := Value.isCall_of_isPlain (hxs x List.mem_cons_self).1
  have hcondition := hready.yields_first h hfn hxs
  have hitem : Yields files (itemScope fn x xs) w₁
      (.call (.begin (.builtin .sum) [.symbol "first"])) w₁ x := sum_yields hx rfl
  have hnothing : Yields files (itemScope fn x xs) w₁ (.call (.begin (.user list) [])) w₁
      (.tuple []) := yields_list rfl .nil
  cases hv : v.isTrue with
  | true =>
    refine .call rfl (hcondition.ends_branch rfl ?_) hx
    rw [hv]
    exact hitem
  | false =>
    refine .call rfl (hcondition.ends_branch rfl ?_) rfl
    rw [hv]
    exact hnothing

theorem leavesOf_chosen {items us : List Value} (h : Value.leavesOf items = Value.leavesOf us) :
    Value.leavesOf [if v.isTrue then x else .tuple [], .tuple items] =
      Value.leavesOf ((if v.isTrue then [x] else []) ++ us) := by
  have hnested : Value.leavesOf [.tuple items] = Value.leavesOf us :=
    Value.leavesOf_singleton_tuple.trans h
  cases v.isTrue with
  | true => exact Value.leavesOf_cons_congr x hnested
  | false => exact (Value.leavesOf_tuple_cons [] _).trans hnested

/-- **The helper of `filter`** gives a nested list with the leaves of the items that are kept. -/
theorem filterHelper_gives_nested
    (hready : Ready "__filter_inner" (itemHelper w₀ "__filter_inner" filterInner) w)
    (hfn : fn.isProper = true)
    (hxs : ∀ u ∈ x :: xs, u.isPlain = true ∧ u.isProper false = true)
    (happly : AppliesInTurn files fn w (x :: xs) w' vs texts) :
    ∃ items, (itemHelper w₀ "__filter_inner" filterInner).Gives files w (.function fn :: x :: xs)
        w' (.tuple items) ∧ Value.leavesOf items = Value.leavesOf (kept (x :: xs) vs) := by
  -- an item that is not kept leaves an empty list, and this has no leaves
  induction xs generalizing x w vs texts with
  | nil =>
    cases happly with
    | @cons _ w₁ _ _ v _ _ _ _ first rest =>
      cases rest
      refine ⟨[if v.isTrue then x else .tuple [], .tuple []], itemHelper_gives rfl ?_, ?_⟩
      · have hlength : Yields files (itemScope fn x []) w'
            (.call (.begin (.builtin .length) [.symbol "*"])) w' (.int 0) :=
          .call rfl ⟨rfl, 10, rfl⟩ rfl
        have hend : Yields files (itemScope fn x []) w' (.call (.begin (.builtin .branch)
            [.call (.begin (.builtin .length) [.symbol "*"]),
              .call (.defer (.symbol "__filter_inner") [.symbol "fn", .symbol "**"]),
              .call (.begin (.user list) [])])) w' (.tuple []) :=
          .call rfl (hlength.ends_branch rfl (yields_list rfl .nil)) rfl
        exact yields_list rfl (.cons (hready.yields_chosen first hfn hxs) hend.singleton)
      · rw [kept_cons]
        exact leavesOf_chosen rfl
  | cons y ys ih =>
    cases happly with
    | @cons _ w₁ _ _ v _ vs _ _ first rest =>
      have hys : ∀ u ∈ y :: ys, u.isPlain = true ∧ u.isProper false = true :=
        fun u hu => hxs u (List.mem_cons_of_mem x hu)
      have hready₁ := hready.mono first.writes
      obtain ⟨items, hgives, hleaves⟩ := ih hready₁ hys rest
      refine ⟨[if v.isTrue then x else .tuple [], .tuple items], itemHelper_gives rfl ?_, ?_⟩
      · have hlength : Yields files (itemScope fn x (y :: ys)) w₁
            (.call (.begin (.builtin .length) [.symbol "*"])) w₁ (.int ((y :: ys).length : Nat)) :=
          .call rfl ⟨rfl, 10, rfl⟩ rfl
        have hrest : Yields files (itemScope fn x (y :: ys)) w₁ (.call (.begin (.builtin .branch)
            [.call (.begin (.builtin .length) [.symbol "*"]),
              .call (.defer (.symbol "__filter_inner") [.symbol "fn", .symbol "**"]),
              .call (.begin (.user list) [])])) w' (.tuple items) := by
          exact .call rfl (hlength.ends_branch rfl
            (hready₁.yields_rest (fun u hu => (hys u hu).1) hgives)) rfl
        exact yields_list rfl (.cons (hready.yields_chosen first hfn hxs) hrest.singleton)
      · rw [kept_cons]
        exact leavesOf_chosen hleaves

/-- If the items are no lists, those that are kept are the leaves. -/
theorem filterHelper_gives
    (hready : Ready "__filter_inner" (itemHelper w₀ "__filter_inner" filterInner) w)
    (hfn : fn.isProper = true)
    (hxs : ∀ u ∈ x :: xs, u.isPlain = true ∧ u.isProper false = true)
    (hscalar : ∀ u ∈ x :: xs, u.isScalar = true)
    (happly : AppliesInTurn files fn w (x :: xs) w' vs texts) :
    ∃ items, (itemHelper w₀ "__filter_inner" filterInner).Gives files w (.function fn :: x :: xs)
        w' (.tuple items) ∧ Value.leavesOf items = .ok (kept (x :: xs) vs) := by
  obtain ⟨items, hgives, hleaves⟩ := filterHelper_gives_nested hready hfn hxs happly
  refine ⟨items, hgives, hleaves.trans (Value.leavesOf_eq_self fun u hu => ?_)⟩
  exact Value.leaves_of_isScalar (hscalar u (mem_of_mem_kept hu))

/-- **`filter` keeps the items that a function is true of**, in their order and each as often as it
occurs. Let the global scope come from importing the library once and adding functions under other
names. `filter` first makes its helper; let `fn`, applied from there on to the items `xs` of a tuple
in turn, succeed each time with a result of `vs` and leave the global scope as it is. No item is a
tuple, a list or a symbol. Then every call of `filter` with `fn` and this tuple makes these
applications and has the tuple of the items whose results are true. What is written is what the
applications write, and no name but that of the helper has got another value. -/
theorem filter_keeps_true_items (hfile : files.contents? path = some source)
    (hw : Extended files w) (hxs : ∀ x ∈ xs, x.isScalar = true)
    (happly : AppliesInTurn files fn (inFilter w) xs w' vs texts) :
    w.globals.find? (.symbol "filter") = .ok (some (.function (.user filter))) ∧
      (∀ scope w₀ c, Passes files filter [.function fn, .tuple xs] w scope w₀ c →
        ∀ o, Ends files w₀ (.start c scope) o ↔ o = ⟨w', .value (.tuple (kept xs vs))⟩) ∧
      vs.length = xs.length ∧ w'.output = w.output ++ String.join texts ∧
      ∀ n, n ≠ "__filter_inner" → w'.globals.find? (.symbol n) = w.globals.find? (.symbol n) := by
  have hprovided : Provided w := hw.provided hfile
  have hplain : ∀ x ∈ xs, x.isPlain = true := fun x hx => Value.isPlain_of_isScalar (hxs x hx)
  obtain ⟨houtput, hglobals⟩ := hprovided.writes_afterMaking rfl happly.writes
  refine ⟨hprovided.functions ("filter", filter) (by simp [definitions]), ?_, happly.length_eq,
    houtput, hglobals⟩
  intro scope w₀ c hc o
  refine gathering_ends_iff hprovided rfl rfl hplain happly ?_ ?_ hc
  · rintro rfl
    rfl
  · intro hne hready hfn hitems
    obtain ⟨x, xs, rfl⟩ := List.exists_cons_of_ne_nil hne
    exact filterHelper_gives hready hfn hitems hxs happly

/-- `(filter small (list 1 5 1))`, where `small` is `(< x 2)`: the two ones are kept. -/
theorem filter_keeps_true_items_small :
    let files : Files := .ofList [(path, source)]
    let b : Call := .begin (.builtin .lessThan) [.symbol "x", .symbol "2"]
    let w : World := afterMaking (imported false) "small" ["x"] b
    let ls : Call := .begin (.user list) [.symbol "1", .symbol "5", .symbol "1"]
    Extended files w ∧ ∃ w', w'.output = w.output ∧
      Ends files w (.start (.begin (.user filter) [.symbol "small", .call ls]) [])
        ⟨w', .value (.tuple [.int 1, .int 1])⟩ := by
  intro files b w ls
  have hw : Extended files w :=
    (extended_imported false rfl).afterMaking rfl (by decide) (by decide)
  have hready : Ready "small" (madeIn (imported false) "small" ["x"] b) w :=
    ready_afterMaking false (by decide) ["x"] rfl
  have hone : Applies files (.user (madeIn (imported false) "small" ["x"] b)) (inFilter w)
      [.int 1] (inFilter w) (.bool true) "" := ⟨⟨rfl, 30, rfl⟩, rfl, String.append_empty.symm⟩
  have hfive : Applies files (.user (madeIn (imported false) "small" ["x"] b)) (inFilter w)
      [.int 5] (inFilter w) (.bool false) "" := ⟨⟨rfl, 30, rfl⟩, rfl, String.append_empty.symm⟩
  have happly := AppliesInTurn.cons hone (.cons hfive (.cons hone .nil))
  obtain ⟨-, hends, -, houtput, -⟩ := filter_keeps_true_items rfl hw
    (by simp [Value.isScalar, Value.isPlain, Value.branches?]) happly
  exact ⟨hw, _, houtput.trans String.append_empty, (hends _ _ _ (hready.passes
    (by simp [Value.isProper]) ⟨rfl, 20, rfl⟩ (by simp) rfl (by simp)) _).mpr rfl⟩

end Filter

end Library

end MiniLisp

import MiniLisp.Proofs.Library.Lists

/-!
# `accumulate`

`accumulate` defines a helper and calls it with the function, the initial value and the items of the
list. The helper applies the function to the total and the first item, and calls itself with the
result and the other items, so that it folds the list from the left (`accumulateHelper_gives`).

For an empty list the helper is not called at all. What it is called with are then fewer arguments
than were written, and such a call has the value of the last of them, which is the initial value.
-/

namespace MiniLisp

namespace Library

/-- The helper of `accumulate`. -/
def accumulateHelper (w : World) : Definition :=
  madeIn w "__accumulate_inner" ["fn", "total", "first", "*"] accumulateInner

/-- The world in which `accumulate` applies its function: the helper has been made. -/
def inAccumulate (w : World) : World :=
  afterMaking w "__accumulate_inner" ["fn", "total", "first", "*"] accumulateInner

/-- The scope of the body of `accumulate`. -/
def foldScope (fn : Function) (xs : List Value) (initial : Value) : Scope :=
  [(.symbol "fn", .function fn), (.symbol "ls", .tuple xs), (.symbol "initial", initial)]

/-- The scope in which its helper has come to a total and looks at the item `x` with the items `xs`
behind it. -/
def totalScope (fn : Function) (total x : Value) (xs : List Value) : Scope :=
  [(.symbol "*", .tuple xs), (.symbol "fn", .function fn), (.symbol "total", total),
    (.symbol "first", x)]

section Fold

variable {files : Files} {fn : Function} {w₀ w w₁ w' : World} {n : String} {d : Definition}
  {total initial x u v : Value} {xs : List Value} {text : String} {texts : List String}

theorem isProper_totalScope (hfn : fn.isProper = true)
    (hxs : ∀ u ∈ total :: x :: xs, u.isPlain = true ∧ u.isProper false = true) :
    Scope.isProper (totalScope fn total x xs) = true := by
  rw [List.forall_mem_cons, List.forall_mem_cons] at hxs
  have hrest : Value.allProper false xs = true := allProper_iff.mpr fun u hu => (hxs.2.2 u hu).2
  simp [totalScope, Scope.isProper, hrest, hxs.1.2, hxs.2.1.2, Value.isProper, hfn]

/-- `(fn total first)` applies the function to the total and the item. -/
theorem Ready.yields_total (hready : Ready n d w) (h : Applies files fn w [total, x] w₁ u text)
    (hfn : fn.isProper = true)
    (hxs : ∀ u ∈ total :: x :: xs, u.isPlain = true ∧ u.isProper false = true) :
    Yields files (totalScope fn total x xs) w
      (.call (.defer (.symbol "fn") [.symbol "total", .symbol "first"])) w₁ u :=
  h.yields hfn hready.proper hready.provided.numbered (isProper_totalScope hfn hxs)
    (fun a ha => hxs a (List.mem_append_left xs ha)) (Nat.le_refl 2) rfl rfl

/-- The helper gives for a total and its items what its body comes to in their scope. -/
theorem accumulateHelper_gives_of_yields
    (h : Yields files (totalScope fn total x xs) w (.call accumulateInner) w' v) :
    (accumulateHelper w₀).Gives files w (.function fn :: total :: x :: xs) w' v :=
  ⟨["fn", "total", "first"], ⟨⟨rfl, by simp, Scope.isNamed_nil⟩, by simp⟩,
    Or.inr ⟨rfl, by simp⟩, h⟩

/-- **The helper of `accumulate`** gives the last total. -/
theorem accumulateHelper_gives (hready : Ready "__accumulate_inner" (accumulateHelper w₀) w)
    (hfn : fn.isProper = true)
    (hxs : ∀ u ∈ total :: x :: xs, u.isPlain = true ∧ u.isProper false = true)
    (hfold : FoldsInTurn files fn w total (x :: xs) w' v texts) :
    (accumulateHelper w₀).Gives files w (.function fn :: total :: x :: xs) w' v := by
  -- with every item the total is another one, and so is the world
  induction xs generalizing total x w texts with
  | nil =>
    cases hfold with
    | cons first plain rest =>
      cases rest
      have hempty : Yields files (totalScope fn total x []) w
          (.call (.begin (.user empty) [.symbol "*"])) w (.int 1) := yields_empty [] rfl
      exact accumulateHelper_gives_of_yields (.call rfl
        (hempty.ends_branch rfl (hready.yields_total first hfn hxs))
          (Value.isCall_of_isPlain plain))
  | cons y ys ih =>
    cases hfold with
    | @cons _ w₁ _ _ _ u _ _ _ _ first plain rest =>
      have hu : u.isProper false = true :=
        first.isProper hfn hready.proper fun a ha => (hxs a (List.mem_append_left (y :: ys) ha)).2
      have hys : ∀ a ∈ u :: y :: ys, a.isPlain = true ∧ a.isProper false = true :=
        List.forall_mem_cons.mpr
          ⟨⟨plain, hu⟩, fun a ha => hxs a (List.mem_append_right [total, x] ha)⟩
      have hgives := ih (hready.mono first.writes) hys rest
      have hempty : Yields files (totalScope fn total x (y :: ys)) w
          (.call (.begin (.user empty) [.symbol "*"])) w .none := yields_empty (y :: ys) rfl
      have hvalues : AllYield files (totalScope fn total x (y :: ys)) w
          [.function fn, .call (.defer (.symbol "fn") [.symbol "total", .symbol "first"])] w₁
            [.function fn, u] :=
        .cons (.value rfl) (hready.yields_total first hfn hxs).singleton
      have hhelper : Yields files (totalScope fn total x (y :: ys)) w
          (.call (.defer (.symbol "__accumulate_inner") [.symbol "fn",
            .call (.defer (.symbol "fn") [.symbol "total", .symbol "first"]), .symbol "**"])) w'
              v := by
        refine hready.yields [_, _] ?_ rfl rfl rfl hvalues
          (List.forall_mem_cons.mpr ⟨rfl, fun a ha => (hys a ha).1⟩) hgives
        simp [totalScope, parameters]
      exact accumulateHelper_gives_of_yields
        (.call rfl (hempty.ends_branch rfl hhelper) hgives.isCall_eq_false)

/-- With an empty list the call of the helper has the initial value. -/
theorem Ready.yields_initial (h : Ready "__accumulate_inner" d w)
    (hinitial : initial.isPlain = true) :
    Yields files (foldScope fn [] initial) w (.call (.defer (.symbol "__accumulate_inner")
      [.symbol "fn", .symbol "initial", .symbol "*ls"])) w initial := by
  -- three arguments are written, but the last one stands for no items
  have hcall : initial.isCall = false := Value.isCall_of_isPlain hinitial
  have hvalues : AllYield files (foldScope fn [] initial) w [.function fn, initial] w
      [.function fn, initial] := .cons (.value rfl) (Yields.value hcall).singleton
  have hhead : StandsFor (foldScope fn [] initial) w.globals "__accumulate_inner" (.user d) :=
    Or.inr ⟨rfl, h.helper⟩
  exact .call rfl (hvalues.ends_short (lookupAll_standsFor_cons rfl hhead rfl) (by simp)) hcall

theorem accumulate_gives (hw : Provided w) (hproper : w.IsProper) (hfn : fn.isProper = true)
    (hxs : ∀ u ∈ initial :: xs, u.isPlain = true ∧ u.isProper false = true)
    (hfold : FoldsInTurn files fn (inAccumulate w) initial xs w' v texts) :
    accumulate.Gives files w [.function fn, .tuple xs, initial] w' v := by
  have hready : Ready "__accumulate_inner" (accumulateHelper w) (inAccumulate w) :=
    hw.ready hproper rfl rfl
  have hinitial : initial.isPlain = true := (hxs initial List.mem_cons_self).1
  have hv : v.isPlain = true := hfold.isPlain hinitial
  have hdefining : Yields files (foldScope fn xs initial) w
      (.call (.defining "__accumulate_inner" ["fn", "total", "first", "*"] accumulateInner))
        (inAccumulate w) (.function (.user (accumulateHelper w))) := hw.yields_defining rfl
  have hhelper : Yields files (foldScope fn xs initial) (inAccumulate w)
      (.call (.defer (.symbol "__accumulate_inner")
        [.symbol "fn", .symbol "initial", .symbol "*ls"])) w' v := by
    cases xs with
    | nil =>
      cases hfold
      exact hready.yields_initial hinitial
    | cons x xs =>
      have hvalues : AllYield files (foldScope fn (x :: xs) initial) (inAccumulate w)
          [.function fn, initial] (inAccumulate w) [.function fn, initial] :=
        .cons (.value rfl) (Yields.value (Value.isCall_of_isPlain hinitial)).singleton
      refine hready.yields [.symbol "fn", .symbol "initial"] ?_ rfl rfl rfl hvalues
        (List.forall_mem_cons.mpr ⟨rfl, fun a ha => (hxs a ha).1⟩)
          (accumulateHelper_gives hready hfn hxs hfold)
      simp [foldScope, parameters]
  refine ⟨["fn", "ls", "initial"], ⟨⟨rfl, by simp, Scope.isNamed_nil⟩, by simp⟩, Or.inl rfl,
    .call rfl ?_ (Value.isCall_of_isPlain hv)⟩
  exact (AllYield.cons hdefining hhelper.singleton).ends_user rfl
    (body_gives (hready.mono hfold.writes).provided rfl hv)

/-- **`accumulate` folds a list from the left.** Let the global scope come from importing the
library once and adding functions under other names. `accumulate` first makes its helper; let `fn`,
applied from there on to the initial value and the first item of a tuple, to the result and the
second item, and so on, succeed each time and leave the global scope as it is. Neither the initial
value nor an item nor a result is a symbol. Then every call of `accumulate` with `fn`, this tuple
and the initial value makes these applications, one for each item, and has the last result; with no
items it has the initial value itself. What is written is what the applications write, and no name
but that of the helper has got another value. -/
theorem accumulate_folds_from_left (hfile : files.contents? path = some source)
    (hw : Extended files w) (hxs : ∀ x ∈ initial :: xs, x.isPlain = true)
    (hfold : FoldsInTurn files fn (inAccumulate w) initial xs w' v texts) :
    w.globals.find? (.symbol "accumulate") = .ok (some (.function (.user accumulate))) ∧
      (∀ scope w₀ c, Passes files accumulate [.function fn, .tuple xs, initial] w scope w₀ c →
        ∀ o, Ends files w₀ (.start c scope) o ↔ o = ⟨w', .value v⟩) ∧
      (xs = [] → v = initial) ∧ texts.length = xs.length ∧
      w'.output = w.output ++ String.join texts ∧
      ∀ n, n ≠ "__accumulate_inner" →
        w'.globals.find? (.symbol n) = w.globals.find? (.symbol n) := by
  have hprovided : Provided w := hw.provided hfile
  obtain ⟨houtput, hglobals⟩ := hprovided.writes_afterMaking rfl hfold.writes
  refine ⟨hprovided.functions ("accumulate", accumulate) (by simp [definitions]), ?_, ?_,
    hfold.length_eq, houtput, hglobals⟩
  · intro scope w₀ c hc o
    obtain ⟨hproper, hus⟩ := hc.proper
    have hitems : ∀ x ∈ initial :: xs, x.isPlain = true ∧ x.isProper false = true := by
      refine fun x hx => ⟨hxs x hx, ?_⟩
      rcases List.mem_cons.mp hx with rfl | hx
      · exact hus x (by simp)
      · exact isProper_kind.tuple.mp (hus (.tuple xs) (by simp)) x hx
    have hgives := accumulate_gives hprovided hproper (hus (.function fn) (by simp)) hitems hfold
    refine hgives.ends_iff ⟨rfl, ?_⟩ hc
    rintro _ ⟨⟩
    rfl
  · rintro rfl
    cases hfold
    rfl

/-- `(accumulate minus (list 1 2) 10)`, where `minus` is `(- a b)`, takes the items from 10 one
after the other, and with an empty list the value is 10. -/
theorem accumulate_folds_from_left_minus :
    let files : Files := .ofList [(path, source)]
    let b : Call := .begin (.builtin .difference) [.symbol "a", .symbol "b"]
    let w : World := afterMaking (imported false) "minus" ["a", "b"] b
    let c : List Value → Call := fun items => .begin (.user accumulate)
      [.symbol "minus", .call (.begin (.user list) items), .symbol "10"]
    Extended files w ∧
      Ends files w (.start (c [.symbol "1", .symbol "2"]) []) ⟨inAccumulate w, .value (.int 7)⟩ ∧
      Ends files w (.start (c []) []) ⟨inAccumulate w, .value (.int 10)⟩ := by
  intro files b w c
  have hw : Extended files w :=
    (extended_imported false rfl).afterMaking rfl (by decide) (by decide)
  have hready : Ready "minus" (madeIn (imported false) "minus" ["a", "b"] b) w :=
    ready_afterMaking false (by decide) ["a", "b"] rfl
  have hpasses : ∀ items us, (∀ a ∈ items, a.isProper true = true) →
      Ends files w (.start (.begin (.user list) items) []) ⟨w, .value (.tuple us)⟩ →
        Passes files accumulate [.function (.user (madeIn (imported false) "minus" ["a", "b"] b)),
          .tuple us, .int 10] w [] w (c items) := by
    intro items us hitems hends
    exact hready.passes hitems hends (by simp [Value.isProper, Value.isCall]) rfl
      (by simp [Value.isCall])
  have hten : Applies files (.user (madeIn (imported false) "minus" ["a", "b"] b)) (inAccumulate w)
      [.int 10, .int 1] (inAccumulate w) (.int 9) "" :=
    ⟨⟨rfl, 30, rfl⟩, rfl, String.append_empty.symm⟩
  have hnine : Applies files (.user (madeIn (imported false) "minus" ["a", "b"] b)) (inAccumulate w)
      [.int 9, .int 2] (inAccumulate w) (.int 7) "" :=
    ⟨⟨rfl, 30, rfl⟩, rfl, String.append_empty.symm⟩
  have hfold := FoldsInTurn.cons hten rfl (.cons hnine rfl .nil)
  refine ⟨hw, ?_, ?_⟩
  · exact ((accumulate_folds_from_left rfl hw (by simp [Value.isPlain]) hfold).2.1 _ _ _
      (hpasses _ _ (by simp [Value.isProper]) ⟨rfl, 20, rfl⟩) _).mpr rfl
  · exact ((accumulate_folds_from_left rfl hw (by simp [Value.isPlain]) .nil).2.1 _ _ _
      (hpasses _ _ (by simp) ⟨rfl, 20, rfl⟩) _).mpr rfl

end Fold

end Library

end MiniLisp

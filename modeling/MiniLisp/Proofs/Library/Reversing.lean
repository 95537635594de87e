import MiniLisp.Proofs.Library.Lists

/-!
# `reverse`

`reverse` defines a helper and calls it with the list. The helper calls itself with the items behind
the first and puts the first behind what comes back, so that a list comes out that is nested to the
left (`reverseHelper_gives`). Its leaves are those of the items from the last to the first, and they
are gathered at the end (`reverse_gives`).

The helper stops at a list with one item, and so it is never called with an empty list unless
`reverse` is.
-/

namespace MiniLisp

namespace Library

/-- The helper of `reverse`. -/
def reverseHelper (w : World) : Definition :=
  madeIn w "__reverse_inner" ["_ls"] reverseInner

/-- The world in which it has been made. -/
def withReverseHelper (w : World) : World :=
  afterMaking w "__reverse_inner" ["_ls"] reverseInner

/-- The names that `reverse` binds: that of its helper, and the empty one of the functions that
`head` and `tail` make. -/
def reverseNames : List String :=
  ["", "__reverse_inner"]

/-- The scope in which the helper looks at a value. -/
def reverseScope (v : Value) : Scope :=
  [(.symbol "_ls", v)]

section Reverse

variable {files : Files} {w₀ w w₁ w₂ w₃ w' : World} {x v u : Value} {xs ys items ls : List Value}

theorem yields_reverseTest {same : Bool} (hsame : decide ((xs.length : Int) = 1) = same) :
    Yields files (reverseScope (.tuple xs)) w (.call reverseTest) w (.bool same) :=
  yields_length_eq (k := 1) xs rfl rfl hsame

/-- The helper gives for a list what it chooses by the test whether there is one item. -/
theorem reverseHelper_gives_of_yields {same : Bool}
    (hsame : decide ((xs.length : Int) = 1) = same)
    (h : Yields files (reverseScope (.tuple xs)) w (if same then
      .call (.begin (.builtin .sum) [.symbol "_ls"]) else .call reversedPair) w' u) :
    (reverseHelper w₀).Gives files w [.tuple xs] w' u := by
  have hbranch : Yields files (reverseScope (.tuple xs)) w (.call reverseChoice) w' u :=
    .call rfl ((yields_reverseTest hsame).ends_branch rfl h) h.isCall_eq_false
  refine ⟨["_ls"], ⟨⟨rfl, by simp, Scope.isNamed_nil⟩, by simp⟩, Or.inl rfl,
    .call rfl ?_ h.isCall_eq_false⟩
  exact hbranch.singleton.ends_user rfl (body_gives_single h.isCall_eq_false)

/-- The helper makes a pair of what it gives for the items behind the first, and the first. -/
theorem Ready.yields_reversedPair
    (hready : Ready "__reverse_inner" (reverseHelper w₀) w)
    (htail : tail.Gives files w [.tuple xs] w₁ (.tuple ys))
    (hrest : (reverseHelper w₀).Gives files w₁ [.tuple ys] w₂ (.tuple items))
    (hhead : head.Gives files w₂ [.tuple xs] w₃ x) :
    Yields files (reverseScope (.tuple xs)) w (.call reversedPair) w₃
      (.tuple [.tuple items, x]) := by
  have hvalue : ∀ w, AllYield files (reverseScope (.tuple xs)) w [.tuple xs] w [.tuple xs] :=
    fun w => (Yields.value rfl).singleton
  have hcalltail : Yields files (reverseScope (.tuple xs)) w
      (.call (.begin (.user tail) [.symbol "_ls"])) w₁ (.tuple ys) :=
    .call rfl ((hvalue w).ends_user rfl htail) rfl
  have hcallhead : Yields files (reverseScope (.tuple xs)) w₂
      (.call (.begin (.user head) [.symbol "_ls"])) w₃ x :=
    .call rfl ((hvalue w₂).ends_user rfl hhead) hhead.isCall_eq_false
  have hname : StandsFor (reverseScope (.tuple xs)) w.globals "__reverse_inner"
      (.user (reverseHelper w₀)) := Or.inr ⟨rfl, hready.helper⟩
  have hcallrest : Yields files (reverseScope (.tuple xs)) w (.call (.defer
      (.symbol "__reverse_inner") [.call (.begin (.user tail) [.symbol "_ls"])])) w₂
        (.tuple items) :=
    hname.yields rfl rfl (inTime_of_length rfl) hcalltail.singleton
      (List.forall_mem_singleton.mpr rfl) hrest
  exact yields_list rfl (.cons hcallrest (hcallhead.sum rfl).singleton)

/-- **The helper of `reverse`** gives a nested list with the leaves of the items from the last to
the first. -/
theorem reverseHelper_gives (files : Files) (hready : Ready "__reverse_inner" (reverseHelper w₀) w)
    (hxs : ∀ u ∈ x :: xs, u.isPlain = true) :
    ∃ w' items, (reverseHelper w₀).Gives files w [.tuple (x :: xs)] w' (.tuple items) ∧
      Value.leavesOf items = Value.leavesOf (x :: xs).reverse ∧ OnlyBinds [""] w w' := by
  -- the helper calls itself with the items behind the first, in the world that `tail` leaves
  induction xs generalizing x w with
  | nil =>
    have hlist : Yields files (reverseScope (.tuple [x])) w
        (.call (.begin (.builtin .sum) [.symbol "_ls"])) w (.tuple [x]) := sum_yields rfl rfl
    exact ⟨w, [x], reverseHelper_gives_of_yields rfl hlist, rfl,
      .refl hready.provided hready.proper⟩
  | cons y ys ih =>
    have hys : ∀ u ∈ y :: ys, u.isPlain = true := fun u hu => hxs u (List.mem_cons_of_mem x hu)
    obtain ⟨w₁, htail, hkeeps₁⟩ := tail_gives files hready.provided hready.proper hxs
    have hready₁ := hready.onlyBinds hkeeps₁ (by decide)
    obtain ⟨w₂, items, hrest, hleaves, hkeeps₂⟩ := ih hready₁ hys
    obtain ⟨w₃, hhead, hkeeps₃⟩ := head_gives files hkeeps₂.provided hkeeps₂.proper hxs
    have hmore : decide (((x :: y :: ys).length : Int) = 1) = false := by
      rw [List.length_cons, List.length_cons]
      exact decide_eq_false (by omega)
    refine ⟨w₃, [.tuple items, x], reverseHelper_gives_of_yields hmore
      (hready.yields_reversedPair htail hrest hhead), ?_,
      (hkeeps₁.trans hkeeps₂).trans hkeeps₃⟩
    calc Value.leavesOf [.tuple items, x]
        = Value.leavesOf (items ++ [x]) := Value.leavesOf_tuple_cons items [x]
      _ = Value.leavesOf ((y :: ys).reverse ++ [x]) := by
        rw [Value.leavesOf_append_eq, hleaves, ← Value.leavesOf_append_eq]
      _ = Value.leavesOf (x :: y :: ys).reverse := congrArg _ List.reverse_cons.symm

/-- **`reverse`** gives the leaves of the items from the last to the first. -/
theorem reverse_gives (files : Files) (hw : Provided w) (hproper : w.IsProper) (hne : xs ≠ [])
    (hxs : ∀ u ∈ xs, u.isPlain = true) (hleaves : Value.leavesOf xs.reverse = .ok ls) :
    ∃ w', reverse.Gives files w [.tuple xs] w' (.tuple ls) ∧ OnlyBinds reverseNames w w' := by
  obtain ⟨x, xs, rfl⟩ := List.exists_cons_of_ne_nil hne
  have hready : Ready "__reverse_inner" (reverseHelper w) (withReverseHelper w) :=
    hw.ready hproper rfl rfl
  have hkeeps : OnlyBinds ["__reverse_inner"] w (withReverseHelper w) :=
    hw.onlyBinds_afterMaking hproper rfl rfl
  obtain ⟨w', items, hgives, hitems, hkeeps'⟩ := reverseHelper_gives files hready hxs
  refine ⟨w', ⟨["ls"], takes_ls rfl rfl rfl, Or.inl rfl, .call rfl ?_ rfl⟩,
    (hkeeps.mono (by simp [reverseNames])).trans (hkeeps'.mono (by simp [reverseNames]))⟩
  have hdefining : Yields files (reverse.bodyScope [.tuple (x :: xs)]) w
      (.call (.defining "__reverse_inner" ["_ls"] reverseInner)) (withReverseHelper w)
        (.function (.user (reverseHelper w))) := hw.yields_defining rfl
  have hname : StandsFor (reverse.bodyScope [.tuple (x :: xs)]) (withReverseHelper w).globals
      "__reverse_inner" (.user (reverseHelper w)) := Or.inr ⟨rfl, hready.helper⟩
  have hhelper : Yields files (reverse.bodyScope [.tuple (x :: xs)]) (withReverseHelper w)
      (.call (.defer (.symbol "__reverse_inner") [.symbol "ls"])) w' (.tuple items) :=
    hname.yields rfl rfl (inTime_of_length rfl) (Yields.value rfl).singleton
      (List.forall_mem_singleton.mpr rfl) hgives
  have hflat : Yields files (reverse.bodyScope [.tuple (x :: xs)]) (withReverseHelper w)
      (.call (.begin (.builtin .flatten)
        [.call (.defer (.symbol "__reverse_inner") [.symbol "ls"])])) w' (.tuple ls) :=
    hhelper.flatten rfl (hitems.trans hleaves)
  exact (AllYield.cons hdefining hflat.singleton).ends_user rfl
    (body_gives hkeeps'.provided rfl rfl)

theorem reverse_gives_of_isScalar (files : Files) (hw : Provided w) (hproper : w.IsProper)
    (hne : xs ≠ []) (hxs : ∀ u ∈ xs, u.isScalar = true) :
    ∃ w', reverse.Gives files w [.tuple xs] w' (.tuple xs.reverse) ∧
      OnlyBinds reverseNames w w' := by
  refine reverse_gives files hw hproper hne (fun u hu => Value.isPlain_of_isScalar (hxs u hu)) ?_
  refine Value.leavesOf_eq_self fun l hl => Value.leaves_of_isScalar (hxs l ?_)
  exact List.mem_reverse.mp hl

theorem reverse_sound : reverse.Sound :=
  sound_of_mem_definitions (e := ("reverse", reverse)) (by simp [definitions])

theorem reverse_returns (hw : Provided w) (hne : xs ≠ []) (hxs : ∀ u ∈ xs, u.isScalar = true) :
    reverse.Returns files w [.tuple xs] reverseNames (.value (.tuple xs.reverse)) :=
  returns_of_gives (e := ("reverse", reverse)) (by simp [definitions]) fun hproper =>
    reverse_gives_of_isScalar files hw hproper hne hxs

/-- **`reverse` turns a list around, and doing so twice gives it back.** Let the global scope come
from importing the library once and adding functions under other names, and let `xs` be the items of
a tuple. There is one at least, and none is a tuple, a list or a symbol. Then every call of
`reverse` with this tuple has the tuple of the same items in the opposite order, and a call of
`reverse` with such a call as its argument has the first tuple again. Nothing is written, and no
name gets another value but that of the helper and the empty one. -/
theorem reverse_turns_around (hfile : files.contents? path = some source) (hw : Extended files w)
    (hne : xs ≠ []) (hxs : ∀ x ∈ xs, x.isScalar = true) :
    w.globals.find? (.symbol "reverse") = .ok (some (.function (.user reverse))) ∧
      reverse.Returns files w [.tuple xs] ["", "__reverse_inner"] (.value (.tuple xs.reverse)) ∧
      ∀ scope w₀ c, Passes files reverse [.tuple xs] w scope w₀ c →
        ComesTo files scope w₀ (.begin (.user reverse) [.call c]) w ["", "__reverse_inner"]
          (.value (.tuple xs)) := by
  have hprovided : Provided w := hw.provided hfile
  refine ⟨hprovided.functions ("reverse", reverse) (by simp [definitions]),
    reverse_returns hprovided hne hxs, ?_⟩
  intro scope w₀ c hc
  obtain ⟨w₁, hfirst, hkeeps₁⟩ :=
    reverse_gives_of_isScalar files hprovided hc.proper.1 hne hxs
  obtain ⟨w₂, hsecond, hkeeps₂⟩ :=
    reverse_gives_of_isScalar files hkeeps₁.provided hkeeps₁.proper
      (List.reverse_ne_nil_iff.mpr hne) (fun x hx => hxs x (List.mem_reverse.mp hx))
  rw [List.reverse_reverse] at hsecond
  exact (hkeeps₁.trans hkeeps₂).comesTo
    ((hfirst.yields reverse_sound hc).singleton.ends_user rfl hsecond)

/-- `(reverse (list "a" 2 "b"))`, and the same in `(reverse ...)`. -/
theorem reverse_turns_around_three :
    let files : Files := .ofList [(path, source)]
    let w : World := imported false
    let ls : Call := .begin (.user list) [.text "a", .symbol "2", .text "b"]
    let turned : Call := .begin (.user reverse) [.call ls]
    Extended files w ∧
      (∃ w', Ends files w (.start turned []) ⟨w', .value (.tuple [.text "b", .int 2, .text "a"])⟩) ∧
      ∃ w', Ends files w (.start (.begin (.user reverse) [.call turned]) [])
        ⟨w', .value (.tuple [.text "a", .int 2, .text "b"])⟩ := by
  intro files w ls turned
  have hw : Extended files w := extended_imported false rfl
  have hpasses : Passes files reverse [.tuple [.text "a", .int 2, .text "b"]] w [] w turned :=
    passes_list (provided_imported false).2 (by decide) rfl (by simp [Value.isCall])
  have hscalar : ∀ x ∈ [Value.text "a", .int 2, .text "b"], x.isScalar = true := by
    simp [Value.isScalar, Value.isPlain, Value.branches?]
  obtain ⟨-, hreturns, htwice⟩ := reverse_turns_around rfl hw (List.cons_ne_nil _ _) hscalar
  obtain ⟨w₁, hends₁, -⟩ := hreturns _ _ _ hpasses
  obtain ⟨w₂, hends₂, -⟩ := htwice _ _ _ hpasses
  exact ⟨hw, ⟨w₁, (hends₁ _).mpr rfl⟩, w₂, (hends₂ _).mpr rfl⟩

end Reverse

end Library

end MiniLisp

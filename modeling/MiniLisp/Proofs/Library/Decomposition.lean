import MiniLisp.Proofs.KnownFailures
import MiniLisp.Proofs.Library.Reversing

/-!
# `head`, `tail`, `init` and `last`

`init` reverses a list, drops the first item and reverses the rest (`init_gives`). With a single
item there is no rest, and `reverse` has no case for an empty list: its helper goes on to `tail`,
which gives a function for an empty list, and calls itself with this function, which has no length
(`reverse_fails_nil`). So `init` fails there (`init_fails`).

`head` and `tail` do not fail for an empty list. They have the function that was to get the items.
-/

namespace MiniLisp

namespace Library

/-! ## Nothing to split -/

/-- The function that `head` makes for the items of a list, with the name "head" for the part that
it gives, and that `tail` makes, with the name "*". -/
def splitter (w : World) (part : String) : Definition :=
  madeIn w "" ["head", "*"] (.begin (.builtin .sum) [.symbol part])

/-- The world after it has been made. -/
def afterSplitter (w : World) (part : String) : World :=
  afterMaking w "" ["head", "*"] (.begin (.builtin .sum) [.symbol part])

section Nothing

variable {files : Files} {w₀ w w' : World} {v : Value} {e : Error}

theorem head_gives_nil (hw : Provided w) :
    head.Gives files w [.tuple []] (afterSplitter w "head")
      (.function (.user (splitter w "head"))) :=
  splitting_gives_nil hw

theorem tail_gives_nil (hw : Provided w) :
    tail.Gives files w [.tuple []] (afterSplitter w "*") (.function (.user (splitter w "*"))) :=
  splitting_gives_nil hw

theorem Provided.onlyBinds_afterSplitter (hw : Provided w) (hproper : w.IsProper) (part : String) :
    OnlyBinds [""] w (afterSplitter w part) :=
  hw.onlyBinds_afterMaking hproper rfl rfl

theorem reverseHelper_fails (h : Fails files (reverseScope v) w reverseChoice w' e) :
    (reverseHelper w₀).Fails files w [v] w' e :=
  ⟨["_ls"], reverseInner, ⟨⟨rfl, by simp, Scope.isNamed_nil⟩, by simp⟩, Or.inl rfl, rfl,
    (OneFails.here h).user rfl⟩

/-- The helper of `reverse` asks for the length of a function in vain. -/
theorem reverseHelper_fails_function (fn : Function) :
    (reverseHelper w₀).Fails files w [.function fn] w .wrongType := by
  have hvalue : AllYield files (reverseScope (.function fn)) w [.function fn] w [.function fn] :=
    (Yields.value rfl).singleton
  have hlength : Fails files (reverseScope (.function fn)) w
      (.begin (.builtin .length) [.symbol "_ls"]) w .wrongType :=
    ⟨rfl, hvalue.ends_strict rfl rfl rfl⟩
  have htest : Fails files (reverseScope (.function fn)) w reverseTest w .wrongType :=
    (OneFails.here hlength).strict rfl rfl
  exact reverseHelper_fails (htest.in_condition rfl)

/-- With an empty list it calls itself with the function that `tail` gives. -/
theorem reverseHelper_fails_nil (hready : Ready "__reverse_inner" (reverseHelper w₀) w) :
    (reverseHelper w₀).Fails files w [.tuple []] (afterSplitter w "*") .wrongType := by
  have hvalue : AllYield files (reverseScope (.tuple [])) w [.tuple []] w [.tuple []] :=
    (Yields.value rfl).singleton
  have htail : Yields files (reverseScope (.tuple [])) w
      (.call (.begin (.user tail) [.symbol "_ls"])) (afterSplitter w "*")
        (.function (.user (splitter w "*"))) :=
    .call rfl (hvalue.ends_user rfl (tail_gives_nil hready.provided)) rfl
  have hname : StandsFor (reverseScope (.tuple [])) w.globals "__reverse_inner"
      (.user (reverseHelper w₀)) := Or.inr ⟨rfl, hready.helper⟩
  have hagain : Fails files (reverseScope (.tuple [])) w (.defer (.symbol "__reverse_inner")
      [.call (.begin (.user tail) [.symbol "_ls"])]) (afterSplitter w "*") .wrongType :=
    (reverseHelper_fails_function _).deferred (lookupAll_standsFor_cons rfl hname rfl)
      (inTime_of_length rfl) htail.singleton (List.forall_mem_singleton.mpr rfl)
  have hpair : Fails files (reverseScope (.tuple [])) w reversedPair (afterSplitter w "*")
      .wrongType := (OneFails.here hagain).user rfl
  exact reverseHelper_fails (hpair.in_branch (yields_reverseTest rfl) rfl rfl)

/-- **`reverse` fails for an empty list.** -/
theorem reverse_fails_nil (files : Files) (hw : Provided w) (hproper : w.IsProper) :
    ∃ w', reverse.Fails files w [.tuple []] w' .wrongType ∧ OnlyBinds reverseNames w w' := by
  have hready : Ready "__reverse_inner" (reverseHelper w) (withReverseHelper w) :=
    hw.ready hproper rfl rfl
  have hkeeps : OnlyBinds ["__reverse_inner"] w (withReverseHelper w) :=
    hw.onlyBinds_afterMaking hproper rfl rfl
  have hname : StandsFor (reverse.bodyScope [.tuple []]) (withReverseHelper w).globals
      "__reverse_inner" (.user (reverseHelper w)) := Or.inr ⟨rfl, hready.helper⟩
  have hhelper : Fails files (reverse.bodyScope [.tuple []]) (withReverseHelper w)
      (.defer (.symbol "__reverse_inner") [.symbol "ls"]) (afterSplitter (withReverseHelper w) "*")
        .wrongType :=
    (reverseHelper_fails_nil hready).deferred (lookupAll_standsFor_cons rfl hname rfl)
      (inTime_of_length rfl) (Yields.value rfl).singleton (List.forall_mem_singleton.mpr rfl)
  have hflat : Fails files (reverse.bodyScope [.tuple []]) (withReverseHelper w)
      (.begin (.builtin .flatten) [.call (.defer (.symbol "__reverse_inner") [.symbol "ls"])])
        (afterSplitter (withReverseHelper w) "*") .wrongType :=
    (OneFails.here hhelper).strict rfl rfl
  have hdefining : Yields files (reverse.bodyScope [.tuple []]) w
      (.call (.defining "__reverse_inner" ["_ls"] reverseInner)) (withReverseHelper w)
        (.function (.user (reverseHelper w))) := hw.yields_defining rfl
  refine ⟨_, ⟨["ls"], _, takes_ls rfl rfl rfl, Or.inl rfl, rfl,
    (OneFails.later hdefining (.here hflat)).user rfl⟩, ?_⟩
  exact (hkeeps.mono (by simp [reverseNames])).trans
    ((hready.provided.onlyBinds_afterSplitter hready.proper "*").mono (by simp [reverseNames]))

end Nothing

/-! ## `init` -/

section Init

variable {files : Files} {w : World} {z : Value} {front : List Value}

theorem standsFor_reverse (hw : Provided w) (xs : List Value) :
    StandsFor (init.bodyScope [.tuple xs]) w.globals "reverse" (.user reverse) :=
  Or.inr ⟨rfl, hw.functions ("reverse", reverse) (by simp [definitions])⟩

/-- The items before the last, from the last of them to the first. -/
theorem Provided.yields_cut (files : Files) (hw : Provided w) (hproper : w.IsProper)
    (hxs : ∀ u ∈ front ++ [z], u.isScalar = true) :
    ∃ w', Yields files (init.bodyScope [.tuple (front ++ [z])]) w (.call cut) w'
        (.tuple front.reverse) ∧ OnlyBinds reverseNames w w' := by
  have hturned : (front ++ [z]).reverse = z :: front.reverse := List.reverse_concat
  have hplain : ∀ u ∈ z :: front.reverse, u.isPlain = true := by
    intro u hu
    rw [← hturned] at hu
    exact Value.isPlain_of_isScalar (hxs u (List.mem_reverse.mp hu))
  obtain ⟨w₁, hreverse, hkeeps₁⟩ := reverse_gives_of_isScalar files hw hproper (by simp) hxs
  rw [hturned] at hreverse
  obtain ⟨w₂, htail, hkeeps₂⟩ := tail_gives files hkeeps₁.provided hkeeps₁.proper hplain
  refine ⟨w₂, ?_, hkeeps₁.trans (hkeeps₂.mono (by simp [reverseNames]))⟩
  have hcall : Yields files (init.bodyScope [.tuple (front ++ [z])]) w
      (.call (.defer (.symbol "reverse") [.symbol "ls"])) w₁ (.tuple (z :: front.reverse)) :=
    (standsFor_reverse hw _).yields rfl rfl (inTime_of_length rfl) (Yields.value rfl).singleton
      (List.forall_mem_singleton.mpr rfl) hreverse
  exact .call rfl (hcall.singleton.ends_user rfl htail) rfl

/-- **`init`** gives the items before the last, if there are any. -/
theorem init_gives (files : Files) (hw : Provided w) (hproper : w.IsProper) (hfront : front ≠ [])
    (hxs : ∀ u ∈ front ++ [z], u.isScalar = true) :
    ∃ w', init.Gives files w [.tuple (front ++ [z])] w' (.tuple front) ∧
      OnlyBinds reverseNames w w' := by
  obtain ⟨w₁, hcut, hkeeps₁⟩ := hw.yields_cut files hproper hxs
  have hscalar : ∀ u ∈ front.reverse, u.isScalar = true :=
    fun u hu => hxs u (List.mem_append_left _ (List.mem_reverse.mp hu))
  obtain ⟨w₂, hreverse, hkeeps₂⟩ := reverse_gives_of_isScalar files hkeeps₁.provided hkeeps₁.proper
    (List.reverse_ne_nil_iff.mpr hfront) hscalar
  rw [List.reverse_reverse] at hreverse
  refine ⟨w₂, ⟨["ls"], takes_ls rfl rfl rfl, Or.inl rfl, ?_⟩, hkeeps₁.trans hkeeps₂⟩
  exact (standsFor_reverse hw _).yields rfl rfl (inTime_of_length rfl) hcut.singleton
    (List.forall_mem_singleton.mpr rfl) hreverse

/-- **`init` fails for a single item.** -/
theorem init_fails (files : Files) (hw : Provided w) (hproper : w.IsProper)
    (hz : z.isScalar = true) :
    ∃ w', init.Fails files w [.tuple [z]] w' .wrongType ∧ OnlyBinds reverseNames w w' := by
  have hone : ∀ u ∈ [] ++ [z], u.isScalar = true := List.forall_mem_singleton.mpr hz
  obtain ⟨w₁, hcut, hkeeps₁⟩ := hw.yields_cut files hproper hone
  obtain ⟨w₂, hreverse, hkeeps₂⟩ := reverse_fails_nil files hkeeps₁.provided hkeeps₁.proper
  refine ⟨w₂, ⟨["ls"], _, takes_ls rfl rfl rfl, Or.inl rfl, rfl, ?_⟩, hkeeps₁.trans hkeeps₂⟩
  exact hreverse.deferred (lookupAll_standsFor_cons rfl (standsFor_reverse hw _) rfl)
    (inTime_of_length rfl) hcut.singleton (List.forall_mem_singleton.mpr rfl)

theorem init_returns (files : Files) (hw : Provided w) (hfront : front ≠ [])
    (hxs : ∀ u ∈ front ++ [z], u.isScalar = true) :
    init.Returns files w [.tuple (front ++ [z])] reverseNames (.value (.tuple front)) :=
  returns_of_gives (e := ("init", init)) (by simp [definitions]) fun hproper =>
    init_gives files hw hproper hfront hxs

theorem init_returns_failed (files : Files) (hw : Provided w) (hz : z.isScalar = true) :
    init.Returns files w [.tuple [z]] reverseNames (.failed .wrongType) := by
  have hsound : init.Sound := sound_of_mem_definitions (e := ("init", init)) (by simp [definitions])
  refine returns_of_runs hsound fun hproper _ => ?_
  obtain ⟨w', hfails, hkeeps⟩ := init_fails files hw hproper hz
  exact ⟨w', hfails.runs, hkeeps⟩

end Init

/-! ## Lists and their parts -/

section Parts

variable {files : Files} {scope : Scope} {w : World} {n : String} {x z : Value}
  {rest front : List Value}

/-- `(+ (list (head n)) (tail n))` is the list `n`. -/
theorem head_tail_comesTo (files : Files) (hw : Provided w) (hproper : w.IsProper)
    (hxs : ∀ u ∈ x :: rest, u.isPlain = true) (hn : isBareName n = true)
    (hv : scope.find? (.symbol n) = .ok (some (.tuple (x :: rest)))) :
    ComesTo files scope w (.begin (.builtin .sum) [
      .call (.begin (.user list) [.call (.begin (.user head) [.symbol n])]),
      .call (.begin (.user tail) [.symbol n])]) w [""] (.value (.tuple (x :: rest))) := by
  obtain ⟨w₁, hhead, hkeeps₁⟩ := head_gives files hw hproper hxs
  obtain ⟨w₂, htail, hkeeps₂⟩ := tail_gives files hkeeps₁.provided hkeeps₁.proper hxs
  have hfirst : Yields files scope w
      (.call (.begin (.user list) [.call (.begin (.user head) [.symbol n])])) w₁ (.tuple [x]) :=
    yields_list rfl (hhead.yields_variable hn hv rfl).singleton
  have hsum := AllYield.sum_tuples (.cons hfirst (htail.yields_variable hn hv rfl).singleton)
  exact (hkeeps₁.trans hkeeps₂).comesTo hsum.argEnds

/-- `(+ (init n) (list (last n)))` is the list `n`, if it has more than one item. -/
theorem init_last_comesTo (files : Files) (hw : Provided w) (hproper : w.IsProper)
    (hfront : front ≠ []) (hxs : ∀ u ∈ front ++ [z], u.isScalar = true)
    (hn : isBareName n = true)
    (hv : scope.find? (.symbol n) = .ok (some (.tuple (front ++ [z])))) :
    ComesTo files scope w (.begin (.builtin .sum) [.call (.begin (.user init) [.symbol n]),
      .call (.begin (.user list) [.call (.begin (.user last) [.symbol n])])]) w reverseNames
        (.value (.tuple (front ++ [z]))) := by
  have hz : z.isCall = false :=
    Value.isCall_of_isPlain (Value.isPlain_of_isScalar (hxs z (by simp)))
  obtain ⟨w₁, hinit, hkeeps⟩ := init_gives files hw hproper hfront hxs
  have hlast : Yields files scope w₁
      (.call (.begin (.user list) [.call (.begin (.user last) [.symbol n])])) w₁ (.tuple [z]) :=
    yields_list rfl ((last_gives front hz).yields_variable hn hv rfl).singleton
  have hsum := AllYield.sum_tuples (.cons (hinit.yields_variable hn hv rfl) hlast.singleton)
  exact hkeeps.comesTo hsum.argEnds

theorem head_tail_return (files : Files) (hw : Provided w)
    (hxs : ∀ u ∈ x :: rest, u.isPlain = true) :
    head.Returns files w [.tuple (x :: rest)] [""] (.value x) ∧
      tail.Returns files w [.tuple (x :: rest)] [""] (.value (.tuple rest)) :=
  ⟨returns_of_gives (e := ("head", head)) (by simp [definitions]) fun hproper =>
      head_gives files hw hproper hxs,
    returns_of_gives (e := ("tail", tail)) (by simp [definitions]) fun hproper =>
      tail_gives files hw hproper hxs⟩

theorem head_tail_return_nil (files : Files) (hw : Provided w) :
    head.Returns files w [.tuple []] [""] (.value (.function (.user (splitter w "head")))) ∧
      tail.Returns files w [.tuple []] [""] (.value (.function (.user (splitter w "*")))) :=
  ⟨returns_of_gives (e := ("head", head)) (by simp [definitions]) fun hproper =>
      ⟨_, head_gives_nil hw, hw.onlyBinds_afterSplitter hproper "head"⟩,
    returns_of_gives (e := ("tail", tail)) (by simp [definitions]) fun hproper =>
      ⟨_, tail_gives_nil hw, hw.onlyBinds_afterSplitter hproper "*"⟩⟩

theorem last_returns (files : Files) (hw : Provided w) (front : List Value)
    (hz : z.isCall = false) :
    last.Returns files w [.tuple (front ++ [z])] [] (.value z) :=
  returns_of_gives (e := ("last", last)) (by simp [definitions]) fun hproper =>
    ⟨w, last_gives front hz, .refl hw hproper⟩

/-- **Lists and their parts.** Let the global scope come from importing the library once and adding
functions under other names, and let `xs` be the items of a tuple. There is one at least, and none
is a tuple, a list or a symbol. Then every call of `head` with this tuple has the first item, of
`tail` the tuple of the others, of `last` the last item, and of `init` the tuple of the items before
the last, if there are any; with a single item `init` fails. Where a variable has the tuple as its
value, `(+ (list (head n)) (tail n))` has it again, and `(+ (init n) (list (last n)))` does if there
is more than one item.

With an empty tuple `head` and `tail` do not fail, but have the function that was to get the items.
-/
theorem list_parts (hfile : files.contents? path = some source) (hw : Extended files w)
    {xs : List Value} (hne : xs ≠ []) (hxs : ∀ x ∈ xs, x.isScalar = true) :
    (∀ e ∈ [("head", head), ("tail", tail), ("init", init), ("last", last)],
        w.globals.find? (.symbol e.1) = .ok (some (.function (.user e.2)))) ∧
      head.Returns files w [.tuple xs] [""] (.value (xs.head hne)) ∧
      tail.Returns files w [.tuple xs] [""] (.value (.tuple xs.tail)) ∧
      last.Returns files w [.tuple xs] [] (.value (xs.getLast hne)) ∧
      (1 < xs.length → init.Returns files w [.tuple xs] ["", "__reverse_inner"]
        (.value (.tuple xs.dropLast))) ∧
      (xs.length = 1 → init.Returns files w [.tuple xs] ["", "__reverse_inner"]
        (.failed .wrongType)) ∧
      (∀ scope n, w.IsProper → isBareName n = true →
        scope.find? (.symbol n) = .ok (some (.tuple xs)) →
          ComesTo files scope w (.begin (.builtin .sum) [
            .call (.begin (.user list) [.call (.begin (.user head) [.symbol n])]),
            .call (.begin (.user tail) [.symbol n])]) w [""] (.value (.tuple xs)) ∧
          (1 < xs.length → ComesTo files scope w (.begin (.builtin .sum) [
            .call (.begin (.user init) [.symbol n]),
            .call (.begin (.user list) [.call (.begin (.user last) [.symbol n])])]) w
              ["", "__reverse_inner"] (.value (.tuple xs)))) ∧
      head.Returns files w [.tuple []] [""] (.value (.function (.user (splitter w "head")))) ∧
      tail.Returns files w [.tuple []] [""] (.value (.function (.user (splitter w "*")))) := by
  have hprovided : Provided w := hw.provided hfile
  -- a list is its first item and the others, and also the items before the last and the last
  have hcons : xs.head hne :: xs.tail = xs := List.cons_head_tail hne
  have hconcat : xs.dropLast ++ [xs.getLast hne] = xs := List.dropLast_concat_getLast hne
  have hplain : ∀ x ∈ xs.head hne :: xs.tail, x.isPlain = true := by
    rw [hcons]
    exact fun x hx => Value.isPlain_of_isScalar (hxs x hx)
  have hscalar : ∀ x ∈ xs.dropLast ++ [xs.getLast hne], x.isScalar = true := by rwa [hconcat]
  have hfront : 1 < xs.length → xs.dropLast ≠ [] := by
    intro hlen hnil
    have hcount := congrArg List.length hnil
    rw [List.length_dropLast, List.length_nil] at hcount
    omega
  have hparts := head_tail_return files hprovided hplain
  rw [hcons] at hparts
  refine ⟨?_, hparts.1, hparts.2, ?_, fun hlen => ?_, fun hlen => ?_, ?_,
    (head_tail_return_nil files hprovided).1, (head_tail_return_nil files hprovided).2⟩
  · intro e he
    refine hprovided.functions e ?_
    simp only [List.mem_cons, List.not_mem_nil, or_false] at he
    rcases he with rfl | rfl | rfl | rfl <;> simp [definitions]
  · have hcall : (xs.getLast hne).isCall = false :=
      Value.isCall_of_isPlain (Value.isPlain_of_isScalar (hscalar _ (by simp)))
    have hlast := last_returns files hprovided xs.dropLast hcall
    rwa [hconcat] at hlast
  · have hinit := init_returns files hprovided (hfront hlen) hscalar
    rwa [hconcat] at hinit
  · obtain ⟨z, rfl⟩ := List.length_eq_one_iff.mp hlen
    exact init_returns_failed files hprovided (hxs z (by simp))
  · intro scope n hproper hn hv
    have hsplit : scope.find? (.symbol n) = .ok (some (.tuple (xs.head hne :: xs.tail))) := by
      rwa [hcons]
    have hjoin : scope.find? (.symbol n) =
        .ok (some (.tuple (xs.dropLast ++ [xs.getLast hne]))) := by rwa [hconcat]
    refine ⟨?_, fun hlen => ?_⟩
    · have hsum := head_tail_comesTo files hprovided hproper hplain hn hsplit
      rwa [hcons] at hsum
    · have hsum := init_last_comesTo files hprovided hproper (hfront hlen) hscalar hn hjoin
      rwa [hconcat] at hsum

/-- `(init (list "a" 2 "b"))` is the list of the first two, and with `ls` for this list
`(+ (list (head ls)) (tail ls))` is all of it, but `(init (list 5))` fails. `(tail (list))` is a
function. -/
theorem list_parts_init :
    let files : Files := .ofList [(path, source)]
    let w : World := imported false
    let three : Call := .begin (.user list) [.text "a", .symbol "2", .text "b"]
    let one : Call := .begin (.user list) [.symbol "5"]
    let joined : Call := .begin (.builtin .sum) [
      .call (.begin (.user list) [.call (.begin (.user head) [.symbol "ls"])]),
      .call (.begin (.user tail) [.symbol "ls"])]
    Extended files w ∧
      (∃ w', Ends files w (.start (.begin (.user init) [.call three]) [])
        ⟨w', .value (.tuple [.text "a", .int 2])⟩) ∧
      (∃ w', Ends files w (.start joined [(.symbol "ls", .tuple [.text "a", .int 2, .text "b"])])
        ⟨w', .value (.tuple [.text "a", .int 2, .text "b"])⟩) ∧
      (∃ w', Ends files w (.start (.begin (.user init) [.call one]) []) ⟨w', .failed .wrongType⟩) ∧
      ∃ w', Ends files w (.start (.begin (.user tail) [.call (.begin (.user list) [])]) [])
        ⟨w', .value (.function (.user (splitter w "*")))⟩ := by
  intro files w three one joined
  have hw : Extended files w := extended_imported false rfl
  have hproper : w.IsProper := (provided_imported false).2
  have hthree : ∀ x ∈ [Value.text "a", .int 2, .text "b"], x.isScalar = true := by
    simp [Value.isScalar, Value.isPlain, Value.branches?]
  have hone : ∀ x ∈ [Value.int 5], x.isScalar = true := by
    simp [Value.isScalar, Value.isPlain, Value.branches?]
  obtain ⟨-, -, -, -, hinit, -, hsums, -, hnil⟩ :=
    list_parts rfl hw (List.cons_ne_nil _ _) hthree
  obtain ⟨-, -, -, -, -, hfails, -⟩ := list_parts rfl hw (List.cons_ne_nil _ _) hone
  refine ⟨hw, ?_, ?_, ?_, ?_⟩
  · obtain ⟨w', hends, -⟩ := hinit (by simp) [] w (.begin (.user init) [.call three])
      (passes_list hproper (by decide) rfl (by simp [Value.isCall]))
    exact ⟨w', (hends _).mpr rfl⟩
  · obtain ⟨⟨w', hends, -⟩, -⟩ := hsums [(.symbol "ls", .tuple [.text "a", .int 2, .text "b"])] "ls"
      hproper (by decide) rfl
    exact ⟨w', (hends _).mpr rfl⟩
  · obtain ⟨w', hends, -⟩ := hfails rfl [] w (.begin (.user init) [.call one])
      (passes_list hproper (by decide) rfl (by simp [Value.isCall]))
    exact ⟨w', (hends _).mpr rfl⟩
  · obtain ⟨w', hends, -⟩ := hnil [] w (.begin (.user tail) [.call (.begin (.user list) [])])
      (passes_list hproper (by simp) rfl (by simp))
    exact ⟨w', (hends _).mpr rfl⟩

end Parts

end Library

end MiniLisp

import Mathlib.Data.List.Lex
import Mathlib.Data.List.Sort
import MiniLisp.Proofs.Library.Mapping
import MiniLisp.Proofs.Library.Reversing

/-!
# Lists of lists

The helpers of `map`, `filter` and `reverse` make nested lists, and this nesting is undone by
`flatten`. The lists that are items of the list itself are taken apart along with it: what `map` and
`filter` come to are the leaves of the results and of the items that are kept (`map_ends_iff`,
`filter_ends_iff`), and what `reverse` comes to are the leaves of the items in the opposite order
(`reverse_gives`). So none of them keeps a list of lists (`nesting_is_lost`).
-/

namespace MiniLisp

namespace Value

theorem anySymbol_eq_false {vs : List Value} (h : ∀ v ∈ vs, v.hasSymbol = false) :
    anySymbol vs = false := by
  induction vs with
  | nil => rfl
  | cons v vs ih =>
    rw [List.forall_mem_cons] at h
    rw [anySymbol, h.1, ih h.2]
    rfl

/-- A value has its leaves in one order only. -/
theorem HasLeaves.unique {v : Value} {ls ls' : List Value} (h : v.HasLeaves ls)
    (h' : v.HasLeaves ls') : ls = ls' := by
  obtain ⟨places, hordered, hplaces, hls⟩ := h
  obtain ⟨places', hordered', hplaces', hls'⟩ := h'
  obtain rfl : places = places' :=
    hordered.eq_of_mem_iff hordered' fun place => (hplaces place).trans (hplaces' place).symm
  have hone : Relator.RightUnique fun place l => v.at? place = some l :=
    fun place l l' hl hl' => Option.some.inj (hl.symm.trans hl')
  exact hone.forall₂ hls hls'

/-- A leaf is no list. -/
theorem HasLeaves.branches?_eq_none {v l : Value} {ls : List Value} (h : v.HasLeaves ls)
    (hl : l ∈ ls) : l.branches? = Option.none := by
  obtain ⟨places, -, hplaces, hls⟩ := h
  obtain ⟨i, hi, rfl⟩ := List.mem_iff_getElem.mp hl
  have hlen : i < places.length := by
    rw [hls.length_eq]
    exact hi
  have hat : v.at? places[i] = some ls[i] := hls.get hlen hi
  obtain ⟨u, hu, hleaf⟩ := (hplaces places[i]).mp (List.getElem_mem hlen)
  rw [hat] at hu
  cases hu
  exact hleaf

/-- The leaves of values without symbols are what they are flattened to. -/
theorem leavesOf_eq_ok_iff {vs ls : List Value} (h : ∀ v ∈ vs, v.hasSymbol = false) :
    leavesOf vs = .ok ls ↔ (tuple vs).HasLeaves ls := by
  have hs : (tuple vs).hasSymbol = false := by
    rw [hasSymbol]
    exact anySymbol_eq_false h
  obtain ⟨ls', hls', hleaves⟩ := exists_leaves (tuple vs) hs
  rw [leaves] at hls'
  rw [hls', Except.ok.injEq]
  constructor
  · rintro rfl
    exact hleaves
  · exact hleaves.unique

theorem HasLeaves.ne_of_mem {v x : Value} {ls us : List Value} (h : v.HasLeaves ls) (hx : x ∈ us)
    (hbranch : x.branches?.isSome = true) : ls ≠ us := by
  rintro rfl
  rw [h.branches?_eq_none hx] at hbranch
  cases hbranch

theorem isPlain_of_hasSymbol {v : Value} (hs : v.hasSymbol = false)
    (hproper : v.isProper false = true) : v.isPlain = true := by
  have hcall : v.isCall = false := isProper_kind.value hproper
  cases v with
  | symbol _ => cases hs
  | call _ => cases hcall
  | _ => rfl

end Value

namespace Library

section Nesting

variable {files : Files} {fn : Function} {scope : Scope} {w w₀ w' : World} {c : Call}
  {xs vs ls : List Value} {texts : List String} {o : Outcome}

theorem isPlain_of_passes {d : Definition} {us : List Value}
    (hc : Passes files d us w scope w₀ c) (hmem : .tuple xs ∈ us)
    (hxs : ∀ x ∈ xs, x.hasSymbol = false) : ∀ x ∈ xs, x.isPlain = true :=
  fun x hx => Value.isPlain_of_hasSymbol (hxs x hx)
    (isProper_kind.tuple.mp (hc.proper.2 (.tuple xs) hmem) x hx)

/-- **`map`** comes to the leaves of the results. -/
theorem map_ends_iff (hw : Provided w) (hxs : ∀ x ∈ xs, x.hasSymbol = false)
    (happly : AppliesInTurn files fn (inMap w) xs w' vs texts)
    (hleaves : Value.leavesOf vs = .ok ls)
    (hc : Passes files map [.function fn, .tuple xs] w scope w₀ c) :
    Ends files w₀ (.start c scope) o ↔ o = ⟨w', .value (.tuple ls)⟩ := by
  refine gathering_ends_iff hw rfl rfl (isPlain_of_passes hc (by simp) hxs) happly ?_ ?_ hc
  · rintro rfl
    cases happly
    cases hleaves
    rfl
  · intro hne hready hfn hitems
    obtain ⟨x, xs, rfl⟩ := List.exists_cons_of_ne_nil hne
    obtain ⟨items, hgives, hsame⟩ := mapHelper_gives_nested hready hfn hitems happly
    exact ⟨items, hgives, hsame.trans hleaves⟩

/-- **`filter`** comes to the leaves of the items that are kept. -/
theorem filter_ends_iff (hw : Provided w) (hxs : ∀ x ∈ xs, x.hasSymbol = false)
    (happly : AppliesInTurn files fn (inFilter w) xs w' vs texts)
    (hleaves : Value.leavesOf (kept xs vs) = .ok ls)
    (hc : Passes files filter [.function fn, .tuple xs] w scope w₀ c) :
    Ends files w₀ (.start c scope) o ↔ o = ⟨w', .value (.tuple ls)⟩ := by
  refine gathering_ends_iff hw rfl rfl (isPlain_of_passes hc (by simp) hxs) happly ?_ ?_ hc
  · rintro rfl
    cases hleaves
    rfl
  · intro hne hready hfn hitems
    obtain ⟨x, xs, rfl⟩ := List.exists_cons_of_ne_nil hne
    obtain ⟨items, hgives, hsame⟩ := filterHelper_gives_nested hready hfn hitems happly
    exact ⟨items, hgives, hsame.trans hleaves⟩

theorem kept_eq_self (hlen : vs.length = xs.length) (hvs : ∀ v ∈ vs, v.isTrue = true) :
    kept xs vs = xs := by
  induction xs generalizing vs with
  | nil => rfl
  | cons x xs ih =>
    cases vs with
    | nil => cases hlen
    | cons v vs =>
      rw [List.forall_mem_cons] at hvs
      rw [kept_cons, hvs.1, ih (Nat.succ.inj hlen) hvs.2]
      rfl

/-- **Lists of lists lose their nesting.** Let the global scope come from importing the library once
and adding functions under other names, and let `xs` be the items of a tuple. There is one at least,
and no symbol stands in them. Then every call of `filter` with this tuple and a function whose
results for the items are all true, and every call of `map` with it and a function whose results are
the items themselves, has the tuple of all leaves of `xs`, from left to right. Every call of
`reverse` has the tuple of all leaves of the items in the opposite order. If one of the items is a
tuple or a list, this is neither `xs` nor its reverse. -/
theorem nesting_is_lost (hfile : files.contents? path = some source) (hw : Extended files w)
    (hne : xs ≠ []) (hxs : ∀ x ∈ xs, x.hasSymbol = false) {rs : List Value}
    (hls : (Value.tuple xs).HasLeaves ls) (hrs : (Value.tuple xs.reverse).HasLeaves rs) :
    (∀ e ∈ [("filter", filter), ("map", map), ("reverse", reverse)],
        w.globals.find? (.symbol e.1) = .ok (some (.function (.user e.2)))) ∧
      (∀ fn w' vs texts, AppliesInTurn files fn (inFilter w) xs w' vs texts →
        (∀ v ∈ vs, v.isTrue = true) →
          ∀ scope w₀ c, Passes files filter [.function fn, .tuple xs] w scope w₀ c →
            ∀ o, Ends files w₀ (.start c scope) o ↔ o = ⟨w', .value (.tuple ls)⟩) ∧
      (∀ fn w' texts, AppliesInTurn files fn (inMap w) xs w' xs texts →
        ∀ scope w₀ c, Passes files map [.function fn, .tuple xs] w scope w₀ c →
          ∀ o, Ends files w₀ (.start c scope) o ↔ o = ⟨w', .value (.tuple ls)⟩) ∧
      reverse.Returns files w [.tuple xs] ["", "__reverse_inner"] (.value (.tuple rs)) ∧
      ((∃ x ∈ xs, x.branches?.isSome = true) → ls ≠ xs ∧ rs ≠ xs.reverse) := by
  have hprovided : Provided w := hw.provided hfile
  have hleaves : Value.leavesOf xs = .ok ls := (Value.leavesOf_eq_ok_iff hxs).mpr hls
  have hturned : Value.leavesOf xs.reverse = .ok rs :=
    (Value.leavesOf_eq_ok_iff fun x hx => hxs x (List.mem_reverse.mp hx)).mpr hrs
  refine ⟨?_, ?_, ?_, ?_, ?_⟩
  · intro e he
    refine hprovided.functions e ?_
    simp only [List.mem_cons, List.not_mem_nil, or_false] at he
    rcases he with rfl | rfl | rfl <;> simp [definitions]
  · intro fn w' vs texts happly hvs scope w₀ c hc o
    rw [← kept_eq_self happly.length_eq hvs] at hleaves
    exact filter_ends_iff hprovided hxs happly hleaves hc
  · intro fn w' texts happly scope w₀ c hc o
    exact map_ends_iff hprovided hxs happly hleaves hc
  · intro scope w₀ c hc
    obtain ⟨w', hgives, hkeeps⟩ := reverse_gives files hprovided hc.proper.1 hne
      (isPlain_of_passes hc (by simp) hxs) hturned
    exact hkeeps.comesTo ((hgives.ends_iff reverse_sound hc).mpr rfl)
  · rintro ⟨x, hx, hbranch⟩
    exact ⟨hls.ne_of_mem hx hbranch, hrs.ne_of_mem (List.mem_reverse.mpr hx) hbranch⟩

/-- `(map same (list (list 1 2) 3))` and `(filter same (list (list 1 2) 3))`, where `same` gives its
argument back, are the list of the three numbers, and `(reverse (list (list 1 2) 3))` is that of 3,
1 and 2. -/
theorem nesting_is_lost_pair :
    let files : Files := .ofList [(path, source)]
    let b : Call := .begin (.builtin .sum) [.symbol "x"]
    let w : World := afterMaking (imported false) "same" ["x"] b
    let ls : Call := .begin (.user list)
      [.call (.begin (.user list) [.symbol "1", .symbol "2"]), .symbol "3"]
    Extended files w ∧
      (∃ w', Ends files w (.start (.begin (.user map) [.symbol "same", .call ls]) [])
        ⟨w', .value (.tuple [.int 1, .int 2, .int 3])⟩) ∧
      (∃ w', Ends files w (.start (.begin (.user filter) [.symbol "same", .call ls]) [])
        ⟨w', .value (.tuple [.int 1, .int 2, .int 3])⟩) ∧
      ∃ w', Ends files w (.start (.begin (.user reverse) [.call ls]) [])
        ⟨w', .value (.tuple [.int 3, .int 1, .int 2])⟩ := by
  intro files b w ls
  have hw : Extended files w :=
    (extended_imported false rfl).afterMaking rfl (by decide) (by decide)
  have hready : Ready "same" (madeIn (imported false) "same" ["x"] b) w :=
    ready_afterMaking false (by decide) ["x"] rfl
  have hsymbol : ∀ x ∈ [Value.tuple [.int 1, .int 2], .int 3], x.hasSymbol = false := by decide
  have hsymbol' : ∀ x ∈ [Value.int 3, .tuple [.int 1, .int 2]], x.hasSymbol = false := by decide
  obtain ⟨-, hfilter, hmap, hreverse, -⟩ := nesting_is_lost rfl hw (List.cons_ne_nil _ _) hsymbol
    ((Value.leavesOf_eq_ok_iff hsymbol).mp rfl) ((Value.leavesOf_eq_ok_iff hsymbol').mp rfl)
  have hsame : ∀ w' x, x.isPlain = true →
      Applies files (.user (madeIn (imported false) "same" ["x"] b)) w' [x] w' x "" := by
    intro w' x hx
    have hgives : (madeIn (imported false) "same" ["x"] b).Gives files w' [x] w' x := by
      exact ⟨["x"], ⟨⟨rfl, by simp, Scope.isNamed_nil⟩, by simp⟩, Or.inl rfl,
        sum_yields (Value.isCall_of_isPlain hx) rfl⟩
    exact ⟨hgives.invokes (List.forall_mem_singleton.mpr hx), rfl, String.append_empty.symm⟩
  have happly : ∀ w', AppliesInTurn files (.user (madeIn (imported false) "same" ["x"] b)) w'
      [.tuple [.int 1, .int 2], .int 3] w' [.tuple [.int 1, .int 2], .int 3] ["", ""] :=
    fun w' => .cons (hsame w' _ rfl) (.cons (hsame w' _ rfl) .nil)
  have hlist : Ends files w (.start ls []) ⟨w, .value (.tuple [.tuple [.int 1, .int 2], .int 3])⟩ :=
    ⟨rfl, 40, rfl⟩
  have hpasses : ∀ d, Passes files d [.function (.user (madeIn (imported false) "same" ["x"] b)),
      .tuple [.tuple [.int 1, .int 2], .int 3]] w [] w
        (.begin (.user d) [.symbol "same", .call ls]) :=
    fun d => hready.passes (by decide) hlist (by simp) rfl (by simp)
  refine ⟨hw, ⟨_, (hmap _ _ _ (happly _) _ _ _ (hpasses map) _).mpr rfl⟩,
    ⟨_, (hfilter _ _ _ _ (happly _) (by decide) _ _ _ (hpasses filter) _).mpr rfl⟩, ?_⟩
  have hargs : AllYield files [] w [.call ls] w [.tuple [.tuple [.int 1, .int 2], .int 3]] :=
    (Yields.call rfl hlist rfl).singleton
  obtain ⟨w', hends, -⟩ := hreverse [] w (.begin (.user reverse) [.call ls])
    (passes_of_yields hready.proper (by decide) rfl hargs (by simp [ls, Call.begin]))
  exact ⟨w', (hends _).mpr rfl⟩

end Nesting

end Library

end MiniLisp

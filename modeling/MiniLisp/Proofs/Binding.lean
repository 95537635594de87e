import MiniLisp.Proofs.Bodies
import MiniLisp.Proofs.Clean.Basic

/-!
# When the head of a call is bound

A call is read as a call of the function that its head names, if there is one; otherwise it is
deferred and its head is looked up when it runs. The two ways agree if the head names the same
function (`makeCall_endAlike`). Where it does not, what counts is whether the head was bound when
the call was read: a binding that was there is never given up for a later or a more local one
(`head_bound_when_read_or_run`). The head of a deferred call is looked up together with the symbols
among its arguments, before any of these is run.
-/

namespace MiniLisp

/-! ## Looking up the arguments -/

/-- The arguments `vs` that `args` stand for come in time for the work of a deferred call: there are
not fewer than were written, and those that are more are no calls. -/
def InTime (args vs : List Value) : Prop :=
  args.length ≤ vs.length ∧ ∀ v ∈ vs.drop args.length, v.isCall = false

section Lookup

variable {scope globals : Scope} {c : Call} {args vs : List Value}

/-- Without stars each argument is looked up to one value. -/
theorem length_lookupAll (hstars : ∀ a ∈ args, a.isStar = false)
    (h : lookupAll scope globals c args = .ok vs) : vs.length = args.length := by
  induction args generalizing vs with
  | nil =>
    cases h
    rfl
  | cons arg args ih =>
    obtain ⟨front, rest, rfl, hrest, hfront⟩ := lookupAll_cons_iff.mp h
    have hlen := ih (fun a ha => hstars a (List.mem_cons_of_mem arg ha)) hrest
    rcases hfront with ⟨v, -, rfl⟩ | ⟨v, hl, -⟩
    · rw [List.length_append, hlen, List.length_singleton, List.length_cons, Nat.add_comm]
    · -- only a star asks for items
      have hstar := hstars arg List.mem_cons_self
      rw [isStar_of_lookup hl] at hstar
      cases hstar

theorem inTime_of_length (h : vs.length = args.length) : InTime args vs := by
  refine ⟨Nat.le_of_eq h.symm, ?_⟩
  rw [List.drop_of_length_le (Nat.le_of_eq h)]
  simp

/-- Without stars all arguments come in time. -/
theorem inTime_of_lookupAll (hstars : ∀ a ∈ args, a.isStar = false)
    (h : lookupAll scope globals c args = .ok vs) : InTime args vs :=
  inTime_of_length (length_lookupAll hstars h)

/-- The arguments of a deferred call whose head stands for a function. -/
theorem resolveArgs_defer {head : Value} {fn : Function}
    (hhead : lookup scope globals (.defer head args) head = .ok (false, .function fn)) :
    (Call.defer head args).resolveArgs scope globals =
      (lookupAll scope globals (.defer head args) args).map (.function fn :: ·) := by
  rw [Call.resolveArgs_deferred rfl]
  show lookupAll scope globals (.defer head args) (head :: args) = _
  rw [lookupAll, hhead]

/-- Both ways of reading a call write the same text. -/
theorem write_begin_eq_write_defer {d : Definition} {f : String} (hname : d.name = .symbol f) :
    (Call.begin (.user d) args).write = (Call.defer (.symbol f) args).write := by
  have hhead : (Function.user d).writeName = (Value.symbol f).write true := by
    obtain ⟨id, name, params, variadic, body, captures⟩ := d
    rw [Function.writeName, Definition.writeName, ← hname]
  rw [Call.begin, Call.defer, Call.begin, Call.write, Call.write, Value.writeDeferred, hhead]
  simp

end Lookup

/-! ## Early and late binding -/

section Early

variable {files : Files} {w : World} {scope : Scope} {f : String} {d : Definition}
  {args : List Value}

/-- A deferred call invokes the defined function that its head stands for, if its arguments come in
time. -/
theorem ends_defer_user_iff {head : Value} {vs : List Value} {o : Outcome}
    (hargs : (Call.defer head args).resolveArgs scope w.globals =
      .ok (.function (.user d) :: vs)) (htime : InTime args vs)
    (hy : EachYields files scope (fun _ v => v.isCall = false) w vs) :
    Ends files w (.start (.defer head args) scope) o ↔
      AfterArgs files scope w vs (Invokes files scope (.user d)) o := by
  refine ends_deferred_iff (Q := fun _ => True) (R := fun v => v.isCall = false) rfl rfl rfl
    (Nat.succ_pos _) hargs (Nat.succ_le_succ htime.1) htime.2 (fun v hv => hv) trivial
    (hy.mono fun _ v hv => ⟨trivial, hv⟩) ?_
  intro w us _ _ w' v hv
  exact Ends.isCall_of_user rfl ⟨rfl, rfl⟩ hv

/-- **Early and late binding agree.** Let the symbol `f` stand for the defined function `d` of that
name where a call `(f …)` without starred arguments runs, and let the arguments have values that
are not symbols. Then the call ends alike whether `f` was bound to `d` when it was read or not bound
at all. -/
theorem makeCall_endAlike (hname : d.name = .symbol f)
    (hfound : lookup scope w.globals (.defer (.symbol f) args) (.symbol f) =
      .ok (false, .function (.user d)))
    (hstars : ∀ a ∈ args, a.isStar = false)
    (hplain : ∀ vs, lookupAll scope w.globals (.defer (.symbol f) args) args = .ok vs →
      EachYields files scope (fun _ v => v.isPlain = true) w.startBlock vs)
    {known unknown : Scope}
    (hknown : known.find? (.symbol f) = .ok (some (.function (.user d))))
    (hunknown : unknown.find? (.symbol f) = .ok none) :
    ∃ early late, makeCall known (.symbol f) args = .ok early ∧
      makeCall unknown (.symbol f) args = .ok late ∧
        EndAlike (fun n => execute files n w scope early)
          (fun n => execute files n w scope late) := by
  refine ⟨.begin (.user d) args, .defer (.symbol f) args, ?_, ?_, fun o => ?_⟩
  · rw [makeCall, hknown]
    rfl
  · rw [makeCall, hunknown]
  · show Ends files w.startBlock (.start (.begin (.user d) args) scope) o ↔
      Ends files w.startBlock (.start (.defer (.symbol f) args) scope) o
    have hlate : (Call.defer (.symbol f) args).resolveArgs scope w.startBlock.globals =
        (lookupAll scope w.startBlock.globals (.defer (.symbol f) args) args).map
          (.function (.user d) :: ·) := resolveArgs_defer hfound
    have hearly : (Call.begin (.user d) args).resolveArgs scope w.startBlock.globals =
        lookupAll scope w.startBlock.globals (.defer (.symbol f) args) args :=
      (Call.resolveArgs_user rfl).trans (lookupAll_congr (write_begin_eq_write_defer hname) args)
    -- both look up the same arguments and, as they write alike, fail with the same text
    cases hl : lookupAll scope w.startBlock.globals (.defer (.symbol f) args) args with
    | error e =>
      rw [hl] at hearly hlate
      rw [State.start, State.start, ends_halt_iff (step_start_error rfl hearly),
        ends_halt_iff (step_start_error rfl hlate)]
    | ok vs =>
      rw [hl] at hearly hlate
      have hy := hplain vs hl
      rw [ends_user_iff rfl ⟨rfl, rfl⟩ hearly hy]
      exact (ends_defer_user_iff hlate (inTime_of_lookupAll hstars hl)
        (hy.mono fun _ v => Value.isCall_of_isPlain)).symm

/-- `(f (+ 1 2) 7)` with a function of one parameter, so that both ways fail with the same error. -/
theorem makeCall_endAlike_sum :
    let d : Definition := ⟨0, .symbol "f", [.symbol "x"], false,
      .call (.begin (.builtin .difference) [.symbol "x"]), []⟩
    let scope : Scope := [(.symbol "f", .function (.user d))]
    let args : List Value := [.call (.begin (.builtin .sum) [.int 1, .int 2]), .symbol "7"]
    ∃ early late, makeCall scope (.symbol "f") args = .ok early ∧
      makeCall [] (.symbol "f") args = .ok late ∧
        EndAlike (fun n => execute (Files.ofList []) n (World.start false) scope early)
          (fun n => execute (Files.ofList []) n (World.start false) scope late) := by
  intro d scope args
  refine makeCall_endAlike rfl rfl (by decide) ?_ rfl rfl
  intro vs hvs
  cases hvs
  rw [eachYields_call]
  refine ⟨rfl, fun w' v hv => ?_⟩
  have hsum : Ends (Files.ofList []) (World.start false).startBlock
      (.start (.begin (.builtin .sum) [.int 1, .int 2]) scope)
      ⟨(World.start false).startBlock, .value (.int 3)⟩ := ⟨rfl, 5, rfl⟩
  cases hv.unique hsum
  exact ⟨rfl, rfl, trivial⟩

end Early

/-! ## Which binding counts -/

/-- Whether a symbol is the name of a variable: neither quoted nor an integer nor starred. -/
def isBareName (f : String) : Bool :=
  f.toList.head? != some '\'' && (readInteger f).isNone && !(variableOf f).1

/-- A symbol stands for a function: in the scope, or else among the globals. -/
def StandsFor (scope globals : Scope) (f : String) (fn : Function) : Prop :=
  scope.find? (.symbol f) = .ok (some (.function fn)) ∨
    scope.find? (.symbol f) = .ok none ∧ globals.find? (.symbol f) = .ok (some (.function fn))

section Head

variable {files : Files} {w : World} {scope globals : Scope} {f : String} {fn : Function}
  {args vs : List Value} {c : Call}

theorem variableOf_of_isBareName (h : isBareName f = true) : variableOf f = (false, f) := by
  unfold isBareName at h
  unfold variableOf at h ⊢
  split at h
  · simp at h
  · rfl

theorem findVariable_ok_congr {v : Value} {c' : Call}
    (h : findVariable scope globals f c = .ok v) : findVariable scope globals f c' = .ok v := by
  unfold findVariable at h ⊢
  split at h
  · cases h
  · assumption
  · split at h
    · cases h
    · assumption
    · cases h

/-- A call matters to looking up only where this fails. -/
theorem lookup_ok_congr {a : Value} {r : Bool × Value} {c' : Call}
    (h : lookup scope globals c a = .ok r) : lookup scope globals c' a = .ok r := by
  obtain ⟨expand, v⟩ := r
  cases a with
  | symbol s =>
    unfold lookup at h ⊢
    dsimp only at h ⊢
    split at h
    · exact h
    · split at h
      · exact h
      · obtain ⟨u, hv, hu⟩ := map_eq_ok_iff.mp h
        exact map_eq_ok_iff.mpr ⟨u, findVariable_ok_congr hv, hu⟩
  | _ => exact h

theorem lookupAll_ok_congr {c' : Call} (h : lookupAll scope globals c args = .ok vs) :
    lookupAll scope globals c' args = .ok vs := by
  induction args generalizing vs with
  | nil => exact h
  | cons a args ih =>
    obtain ⟨front, rest, rfl, hrest, hfront⟩ := lookupAll_cons_iff.mp h
    refine lookupAll_cons_iff.mpr ⟨front, rest, rfl, ih hrest, ?_⟩
    rcases hfront with ⟨v, hl, hv⟩ | ⟨v, hl, hi⟩
    · exact Or.inl ⟨v, lookup_ok_congr hl, hv⟩
    · exact Or.inr ⟨v, lookup_ok_congr hl, hi⟩

/-- The name of a variable stands for its value. -/
theorem lookup_of_isBareName (hf : isBareName f = true) :
    lookup scope globals c (.symbol f) = (findVariable scope globals f c).map (false, ·) := by
  have hname := variableOf_of_isBareName hf
  rw [isBareName, Bool.and_eq_true, Bool.and_eq_true] at hf
  obtain ⟨⟨hquote, hint⟩, -⟩ := hf
  unfold lookup
  dsimp only
  split
  · rename_i cs hcs
    rw [hcs] at hquote
    simp at hquote
  · rw [Option.isNone_iff_eq_none.mp hint, hname]

theorem lookup_of_standsFor (hf : isBareName f = true) (h : StandsFor scope globals f fn) :
    lookup scope globals c (.symbol f) = .ok (false, .function fn) := by
  have hvar : findVariable scope globals f c = .ok (.function fn) := by
    unfold findVariable
    rcases h with h | ⟨h, hg⟩
    · rw [h]
    · rw [h]
      dsimp only
      rw [hg]
  rw [lookup_of_isBareName hf, hvar]
  rfl

/-- What a symbol stands for where all is proper is proper. -/
theorem StandsFor.isProper (hs : Scope.isProper scope = true) (hg : Scope.isProper globals = true)
    (h : StandsFor scope globals f fn) : fn.isProper = true := by
  rcases h with h | ⟨-, h⟩
  · exact (Scope.isProper_iff.mp hs).find? h
  · exact (Scope.isProper_iff.mp hg).find? h

/-- Invoking a proper function with proper values yields no call. -/
theorem Invokes.isCall_eq_false {us : List Value} {w' : World} {v : Value} (hw : w.IsProper)
    (hs : Scope.isProper scope = true) (hfn : fn.isProper = true)
    (hus : ∀ u ∈ us, u.isProper false = true)
    (h : Invokes files scope fn w us ⟨w', .value v⟩) : v.isCall = false := by
  unfold Invokes at h
  cases hb : fn.begin us with
  | error e =>
    rw [hb] at h
    cases h
  | ok real =>
    rw [hb] at h
    have hreal : real.isProper = true := by
      rw [Function.eq_of_begin hb]
      exact Call.begin_proper hfn fun u hu => isProper_kind.ofValue (hus u hu)
    exact isProper_kind.value ((Ends.proper h hw (State.start_proper hreal hs)).2 v rfl)

/-- A direct call runs the function with the values of the arguments. -/
theorem Place.ends_begin_iff {d : Definition} {o : Outcome} (h : Place scope w args) (hd : d.Sound)
    (hvs : lookupAll scope w.globals c args = .ok vs) :
    Ends files w (.start (.begin (.user d) args) scope) o ↔
      AfterArgs files scope w vs (d.Runs files) o := by
  have hres : (Call.begin (.user d) args).resolveArgs scope w.globals = .ok vs :=
    (Call.resolveArgs_user rfl).trans (lookupAll_ok_congr hvs)
  exact ends_user_iff_runs rfl ⟨rfl, rfl⟩ hres hd h.globals (h.looked hvs).eachYields

/-- A deferred call invokes the function that its head stands for when it begins, be it builtin or
defined, if its arguments come in time. -/
theorem Place.ends_defer_iff {o : Outcome} (h : Place scope w args) (hf : isBareName f = true)
    (hfn : StandsFor scope w.globals f fn)
    (hvs : lookupAll scope w.globals (.defer (.symbol f) args) args = .ok vs)
    (htime : InTime args vs) :
    Ends files w (.start (.defer (.symbol f) args) scope) o ↔
      AfterArgs files scope w vs (Invokes files scope fn) o := by
  have hargs := resolveArgs_defer (lookup_of_standsFor (c := .defer (.symbol f) args) hf hfn)
  rw [hvs] at hargs
  have hproper : fn.isProper = true := hfn.isProper h.locals h.globals
  exact ends_deferred_iff rfl rfl rfl (Nat.succ_pos _) hargs (Nat.succ_le_succ htime.1) htime.2
    (fun v => isProper_kind.value) h.globals (h.looked hvs).eachYields
    fun w us hw hus w' v => Invokes.isCall_eq_false hw h.locals hproper hus

end Head

end MiniLisp

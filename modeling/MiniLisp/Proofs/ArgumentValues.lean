import MiniLisp.Proofs.Binding
import MiniLisp.Proofs.ParameterScope

/-!
# The values that a function is called with

Arguments are looked up and then evaluated. A call that was read as one of a defined function binds
the values as they are, also if these are symbols. A deferred call begins the call of its function
with the values in the place of arguments, so that they are looked up once more: a symbol then turns
into what it stands for, which can be another value, several ones, or an error
(`symbols_kept_unless_deferred`).
-/

namespace MiniLisp

/-- A place of a program where a call without stars can stand. -/
structure CallSite (scope : Scope) (w : World) (args : List Value) : Prop
    extends Place scope w args where
  stars : ∀ a ∈ args, a.isStar = false

/-- The call `c` in a scope and a world passes the values `us` to the function `d`, and its
arguments leave the world `w'`. It is direct, or it is deferred and without stars, and the value of
its head stands for the function. What a deferred call passes has been looked up once more. -/
inductive Passes (files : Files) (d : Definition) (us : List Value) (w' : World) :
    (scope : Scope) → (w : World) → (c : Call) → Prop where
  | direct {scope : Scope} {w : World} {args vs : List Value} (hplace : Place scope w args)
      (hvs : lookupAll scope w.globals (.begin (.user d) args) args = .ok vs)
      (hus : ArgsEnd files scope w vs w' us) :
      Passes files d us w' scope w (.begin (.user d) args)
  | deferred {scope : Scope} {w : World} {head h : Value} {args vs values : List Value}
      (hsite : CallSite scope w (head :: args))
      (hvs : lookupAll scope w.globals (.defer head args) (head :: args) = .ok vs)
      (hvalues : ArgsEnd files scope w vs w' (h :: values))
      (hfn : (Call.defer head args).headFunction scope w'.globals h = .ok (.user d))
      (hus : lookupAll scope w'.globals (.begin (.user d) values) values = .ok us) :
      Passes files d us w' scope w (.defer head args)

section Sites

variable {files : Files} {scope : Scope} {c : Call} {d : Definition} {w w' : World} {head v : Value}
  {args us vs : List Value} {o : Outcome}

/-- Invoking what the value of a head stands for yields no call. -/
theorem InvokesHead.isCall_eq_false (hw : w.IsProper) (hs : Scope.isProper scope = true)
    (hus : ∀ u ∈ us, u.isProper false = true)
    (h : InvokesHead files scope c w us ⟨w', .value v⟩) : v.isCall = false := by
  cases us with
  | nil => cases h
  | cons head us =>
    rw [InvokesHead] at h
    cases hfn : c.headFunction scope w.globals head with
    | error e =>
      rw [hfn] at h
      cases h
    | ok fn =>
      have hproper : Value.isProper false (.function fn) = true :=
        isProper_kind.headFunction (Scope.isProper_iff.mp hs) (Scope.isProper_iff.mp hw)
          (isProper_kind.ofValue (hus head List.mem_cons_self)) hfn
      rw [hfn] at h
      exact Invokes.isCall_eq_false hw hs hproper
        (fun u hu => hus u (List.mem_cons_of_mem head hu)) h

/-- A deferred call invokes the function that the value of its head stands for. -/
theorem CallSite.ends_defer_iff (h : CallSite scope w (head :: args))
    (hvs : lookupAll scope w.globals c (head :: args) = .ok vs) :
    Ends files w (.start (.defer head args) scope) o ↔
      AfterArgs files scope w vs (InvokesHead files scope (.defer head args)) o := by
  have hres : (Call.defer head args).resolveArgs scope w.globals = .ok vs :=
    (Call.resolveArgs_deferred rfl).trans (lookupAll_ok_congr hvs)
  have htime : InTime (head :: args) vs := inTime_of_lookupAll h.stars hvs
  exact ends_deferred_head_iff rfl rfl rfl (Nat.succ_pos _) hres htime.1 htime.2
    (fun v => isProper_kind.value) h.globals (h.looked hvs).eachYields
    fun w us hw hus w' v => InvokesHead.isCall_eq_false hw h.locals hus

/-- Every call of a function runs it with the values that it passes. -/
theorem Passes.ends_iff (h : Passes files d us w' scope w c) (hd : d.Sound) :
    Ends files w (.start c scope) o ↔ d.Runs files w' us o := by
  cases h with
  | direct hplace hvs hus => rw [hplace.ends_begin_iff hd hvs, hus.afterArgs_iff]
  | deferred hsite hvs hvalues hfn hus =>
    obtain ⟨hw', hproper⟩ := hvalues.of_eachYields hsite.globals (hsite.looked hvs).eachYields
    rw [hsite.ends_defer_iff hvs, hvalues.afterArgs_iff, InvokesHead, hfn]
    dsimp only
    rw [invokes_user_iff_runs hd hw' hsite.locals
      fun u hu => hproper u (List.mem_cons_of_mem _ hu), Definition.RunsLookedUp, hus]

/-- What a call passes to a function is proper. -/
theorem Passes.proper (h : Passes files d us w' scope w c) :
    w'.IsProper ∧ ∀ u ∈ us, u.isProper false = true := by
  cases h with
  | direct hplace hvs hus => exact hus.of_eachYields hplace.globals (hplace.looked hvs).eachYields
  | deferred hsite hvs hvalues hfn hus =>
    obtain ⟨hw', hproper⟩ := hvalues.of_eachYields hsite.globals (hsite.looked hvs).eachYields
    rw [List.forall_mem_cons] at hproper
    refine ⟨hw', fun u hu => ?_⟩
    have hlooked := isProper_kind.lookupAll (Scope.isProper_iff.mp hsite.locals)
      (Scope.isProper_iff.mp hw') (fun v hv => isProper_kind.ofValue (hproper.2 v hv)) hus u hu
    rcases hlooked with hu | ⟨hmem, -⟩
    · exact hu
    · exact hproper.2 u hmem

/-- A deferred call whose head stands for a defined function runs it with what the values of its
arguments stand for. -/
theorem CallSite.ends_defer_user_iff {f : String} (h : CallSite scope w args) (hd : d.Sound)
    (hf : isBareName f = true) (hfn : StandsFor scope w.globals f (.user d))
    (hvs : lookupAll scope w.globals c args = .ok vs) :
    Ends files w (.start (.defer (.symbol f) args) scope) o ↔
      AfterArgs files scope w vs (d.RunsLookedUp files scope) o := by
  rw [h.toPlace.ends_defer_iff hf hfn (lookupAll_ok_congr hvs) (inTime_of_lookupAll h.stars hvs)]
  refine afterArgs_congr (h.looked hvs).eachYields h.globals fun w us hw _ hus => ?_
  exact invokes_user_iff_runs hd hw h.locals hus

/-- **Symbols are kept as values unless the call is deferred.** If the head of a call was bound to a
defined function when the call was read, the body runs with each parameter bound to the value of its
argument. If the head was not bound and stands for the function when the call runs, the values are
looked up once more, and the function runs with what they stand for; values that are no symbols
stand for themselves. -/
theorem symbols_kept_unless_deferred {f : String} {names : List String}
    (hf : isBareName f = true) (hsite : CallSite scope w args) (hd : d.Sound)
    (htakes : d.Takes names)
    (hvs : lookupAll scope w.globals (.defer (.symbol f) args) args = .ok vs)
    (hcount : RightCount d.variadic names.length vs.length) :
    (∀ read : Scope, read.find? (.symbol f) = .ok (some (.function (.user d))) →
        ∃ c, makeCall read (.symbol f) args = .ok c ∧
          ∀ o, EndsWith (fun n => execute files n w scope c) o ↔
            AfterArgs files scope w.startBlock vs
              (fun w us o => ArgEnds files (d.bodyScope us) w d.body o) o) ∧
      (∀ read : Scope, read.find? (.symbol f) = .ok none →
        StandsFor scope w.globals f (.user d) →
          ∃ c, makeCall read (.symbol f) args = .ok c ∧
            ∀ o, EndsWith (fun n => execute files n w scope c) o ↔
              AfterArgs files scope w.startBlock vs (d.RunsLookedUp files scope) o) ∧
        ∀ us : List Value, RightCount d.variadic names.length us.length →
          (∀ w o, d.Runs files w us o ↔ ArgEnds files (d.bodyScope us) w d.body o) ∧
            (∀ (i : Nat) p u, names[i]? = some p → us[i]? = some u →
              (d.bodyScope us).find? (.symbol p) = .ok (some u)) ∧
            ((∀ u ∈ us, u.isPlain = true) →
              ∀ w o, d.RunsLookedUp files scope w us o ↔ d.Runs files w us o) := by
  have hsite' : CallSite scope w.startBlock args :=
    ⟨⟨hsite.globals, hsite.locals, hsite.proper, hsite.fresh⟩, hsite.stars⟩
  refine ⟨?_, ?_, ?_⟩
  · intro read hread
    refine ⟨.begin (.user d) args, by rw [makeCall, hread]; rfl, fun o => ?_⟩
    refine (hsite'.ends_begin_iff hd hvs).trans ?_
    refine afterArgs_congr (hsite'.looked hvs).eachYields hsite'.globals fun w us _ hlen _ => ?_
    exact htakes.runs_iff (by rw [hlen]; exact hcount)
  · intro read hread hfn
    refine ⟨.defer (.symbol f) args, by rw [makeCall, hread], fun o => ?_⟩
    exact hsite'.ends_defer_user_iff hd hf hfn hvs
  · intro us hus
    refine ⟨fun w o => htakes.runs_iff hus, fun i p u hp hu => htakes.find?_param hus hp hu, ?_⟩
    exact fun hplain w o => Definition.runsLookedUp_iff hplain

/-- `(f '7)` where `f` gives its argument back: the value is the symbol if `f` was bound when the
call was read, and the number if it was not. -/
theorem symbols_kept_unless_deferred_seven :
    let d : Definition := ⟨0, .symbol "f", [.symbol "x"], false,
      .call (.begin (.builtin .sum) [.symbol "x"]), []⟩
    let w : World := { globals := builtinScope false ++ [(.symbol "f", .function (.user d))] }
    (∃ c, makeCall w.globals (.symbol "f") [.symbol "'7"] = .ok c ∧
        EndsWith (fun n => execute (Files.ofList []) n w [] c)
          ⟨w.startBlock, .value (.symbol "7")⟩) ∧
      ∃ c, makeCall [] (.symbol "f") [.symbol "'7"] = .ok c ∧
        EndsWith (fun n => execute (Files.ofList []) n w [] c)
          ⟨w.startBlock, .value (.int 7)⟩ := by
  intro d w
  have hsite : CallSite [] w [.symbol "'7"] := by
    refine ⟨⟨rfl, rfl, by simp [Value.isProper], by simp⟩, ?_⟩
    intro a ha
    rw [List.mem_singleton.mp ha]
    rfl
  have hd : d.Sound := by
    refine ⟨rfl, ?_⟩
    rintro b ⟨⟩
    rfl
  have htakes : d.Takes ["x"] := by
    refine ⟨⟨rfl, by simp, ?_⟩, by simp⟩
    intro e he
    cases he
  have hkept := @symbols_kept_unless_deferred (Files.ofList []) [] d w [.symbol "'7"]
    [.symbol "7"] "f" ["x"] rfl hsite hd htakes rfl (Or.inl rfl)
  constructor
  · obtain ⟨c, hc, hends⟩ := hkept.1 w.globals rfl
    refine ⟨c, hc, (hends _).mpr ?_⟩
    rw [afterArgs_value rfl, afterArgs_nil]
    exact ⟨rfl, 10, rfl⟩
  · obtain ⟨c, hc, hends⟩ := hkept.2.1 [] rfl (Or.inr ⟨rfl, rfl⟩)
    refine ⟨c, hc, (hends _).mpr ?_⟩
    rw [afterArgs_value rfl, afterArgs_nil]
    exact ((hkept.2.2 [.int 7] (Or.inl rfl)).1 _ _).mpr ⟨rfl, 10, rfl⟩

end Sites

end MiniLisp

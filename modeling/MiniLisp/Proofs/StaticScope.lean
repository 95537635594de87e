import MiniLisp.Proofs.Closures

/-!
# Static scope

The body of a function runs in a scope that depends on the function and the values of the arguments
alone: it has the parameters, the rest of the values, and the captured variables with the values
they had when the function was made. The scope of the call does not matter, and neither does it
matter whether the call is deferred (`static_scope`).
-/

namespace MiniLisp

/-- The call `c` in a scope and a world is one of the function `d`, whose arguments come to the
values `us` and leave the world `w'`. It is direct, or it is deferred and the value of its head
stands for the function; the values of a deferred call are no symbols. -/
inductive CallsWith (files : Files) (d : Definition) (us : List Value) (w' : World) :
    (scope : Scope) → (w : World) → (c : Call) → Prop where
  | direct {scope : Scope} {w : World} {args vs : List Value} (hsite : CallSite scope w args)
      (hvs : lookupAll scope w.globals (.begin (.user d) args) args = .ok vs)
      (hus : ArgsEnd files scope w vs w' us) :
      CallsWith files d us w' scope w (.begin (.user d) args)
  | deferred {scope : Scope} {w : World} {head h : Value} {args vs : List Value}
      (hsite : CallSite scope w (head :: args))
      (hvs : lookupAll scope w.globals (.defer head args) (head :: args) = .ok vs)
      (hus : ArgsEnd files scope w vs w' (h :: us))
      (hfn : (Call.defer head args).headFunction scope w'.globals h = .ok (.user d))
      (hplain : ∀ u ∈ us, u.isPlain = true) :
      CallsWith files d us w' scope w (.defer head args)

section Static

variable {files : Files} {scope : Scope} {c : Call} {d : Definition} {w w' : World}
  {us : List Value} {o : Outcome}

/-- Values that are no symbols are passed as they are. -/
theorem CallsWith.passes (h : CallsWith files d us w' scope w c) :
    Passes files d us w' scope w c := by
  cases h with
  | direct hsite hvs hus => exact .direct hsite.toPlace hvs hus
  | deferred hsite hvs hus hfn hplain =>
    refine .deferred hsite hvs hus hfn (lookupAll_of_ne_symbol (fun u hu => ?_) _ _ _)
    exact Value.ne_symbol_of_isPlain (hplain u hu)

theorem CallsWith.ends_iff (h : CallsWith files d us w' scope w c) (hd : d.Sound) :
    Ends files w (.start c scope) o ↔ d.Runs files w' us o :=
  h.passes.ends_iff hd

theorem find?_bodyEntries_congr {names : List String} {variadic : Bool} {s t : Scope} {k : Value}
    (h : s.find? k = t.find? k) :
    (bodyEntries names variadic s us).find? k = (bodyEntries names variadic t us).find? k :=
  Scope.find?_append_congr (Scope.find?_append_congr h)

/-- **Static scope.** A definition makes a function whose body, in every later call with the right
number of values, runs in the scope of the rest parameter, the parameters, and the variables that
were captured, with the values they had then, and of nothing else. So two calls with the same values
in the same world end alike, whatever their scopes bind. -/
theorem static_scope {first body v : Value} {names captured : List String} {variadic : Bool}
    {values : List Value} {w₁ : World} (hdef : Defines c first names variadic body)
    (hsite : CallSite scope w c.args) (hcap : Captures files scope w c first captured values)
    (hends : Ends files w (.start c scope) ⟨w₁, .value v⟩) :
    ∃ d : Definition, v = .function (.user d) ∧
      lookup scope w.globals c body = .ok (false, d.body) ∧
      ∀ us, RightCount variadic names.length us.length →
        ((d.bodyScope us).IsNamed ∧ ∀ m, (d.bodyScope us).find? (.symbol m) =
          (bodyEntries names variadic (bindings captured values) us).find? (.symbol m)) ∧
        (∀ files scope w w' c, CallsWith files d us w' scope w c →
          ∀ o, Ends files w (.start c scope) o ↔ ArgEnds files (d.bodyScope us) w' d.body o) ∧
        ∀ files scope scope' w w₂ w' c c', CallsWith files d us w' scope w c →
          CallsWith files d us w' scope' w₂ c' →
            ∀ o, Ends files w (.start c scope) o ↔ Ends files w₂ (.start c' scope') o := by
  obtain ⟨d, hv, hbody, rfl, hsound, htakes, hcaptures⟩ := hdef.makes hsite hcap hends
  refine ⟨d, hv, hbody, fun us hus => ⟨?_, ?_, ?_⟩⟩
  · obtain ⟨hnamed, hfind⟩ := htakes.find?_bodyScope hus
    refine ⟨hnamed, fun m => ?_⟩
    rw [hfind, find?_bodyEntries_congr (hcaptures m)]
  · intro files scope w w' c hc o
    rw [hc.ends_iff hsound, htakes.runs_iff hus]
  · intro files scope scope' w w₂ w' c c' hc hc' o
    rw [hc.ends_iff hsound, hc'.ends_iff hsound]

/-- `(lambda caps 'y '* (+ x y))`, evaluated where `caps` holds the name `x` and `x` is one: called
with two and three it gives three, also where `x` is a hundred, and also if the call is
deferred. -/
theorem static_scope_captured :
    let body : Value := .call (.begin (.builtin .sum) [.symbol "x", .symbol "y"])
    let c : Call := .begin (.builtin .lambda) [.symbol "caps", quoted "y", quoted "*", body]
    let scope : Scope := [(.symbol "x", .int 1), (.symbol "caps", .tuple [.symbol "x"])]
    ∃ w₁ d, Ends (Files.ofList []) (World.start false) (.start c scope)
        ⟨w₁, .value (.function (.user d))⟩ ∧
      let scope' : Scope := [(.symbol "x", .int 100), (.symbol "g", .function (.user d))]
      let args : List Value := [.symbol "2", .symbol "3"]
      ∀ w : World, w.IsProper →
        Ends (Files.ofList []) w (.start (.begin (.user d) args) scope') ⟨w, .value (.int 3)⟩ ∧
          Ends (Files.ofList []) w (.start (.defer (.symbol "g") args) scope')
            ⟨w, .value (.int 3)⟩ := by
  intro body c scope
  let d : Definition :=
    ⟨0, .symbol "", [.symbol "y", .symbol "*"], true, body, [(.symbol "x", .int 1)]⟩
  let w₁ : World := (drive (Files.ofList []) 10 (World.start false) (.start c scope)).world
  have hends : Ends (Files.ofList []) (World.start false) (.start c scope)
      ⟨w₁, .value (.function (.user d))⟩ := ⟨rfl, 10, rfl⟩
  have hdef : Defines c (.symbol "caps") ["y"] true body :=
    ⟨rfl, rfl, rfl, by simp [quoted], by simp, by simp⟩
  have hsite : CallSite scope (World.start false) c.args := by
    refine ⟨⟨rfl, rfl, by decide, ?_⟩, by decide⟩
    intro e he
    have heq : e = .begin (.builtin .sum) [.symbol "x", .symbol "y"] := by
      simpa [c, body, Call.begin, quoted] using he
    rw [heq]
    rfl
  have hcap : Captures (Files.ofList []) scope (World.start false) c (.symbol "caps") ["x"]
      [.int 1] := by
    have hnames : ArgEnds (Files.ofList []) scope (World.start false) (.tuple [.symbol "x"])
        ⟨World.start false, .value (.tuple (["x"].map Value.symbol))⟩ := rfl
    exact .lambda rfl rfl hnames (by decide) rfl
  obtain ⟨d', hd, -, hstatic⟩ := static_scope hdef hsite hcap hends
  cases hd
  refine ⟨w₁, d, hends, ?_⟩
  intro scope' args w hw
  have hcalls := (hstatic [.int 2, .int 3] (Or.inr ⟨rfl, by decide⟩)).2.1
  have hresult : ArgEnds (Files.ofList []) (d.bodyScope [.int 2, .int 3]) w d.body
      ⟨w, .value (.int 3)⟩ := ⟨rfl, 10, rfl⟩
  constructor
  · have hsite' : CallSite scope' w args := ⟨⟨hw, rfl, by decide, by simp [args]⟩, by decide⟩
    have hus : ArgsEnd (Files.ofList []) scope' w [.int 2, .int 3] w [.int 2, .int 3] :=
      (argsEnd_values (by decide)).mpr ⟨rfl, rfl⟩
    exact (hcalls _ _ _ _ _ (.direct hsite' rfl hus) _).mpr hresult
  · have hsite' : CallSite scope' w (.symbol "g" :: args) :=
      ⟨⟨hw, rfl, by decide, by simp [args]⟩, by decide⟩
    have hus : ArgsEnd (Files.ofList []) scope' w [.function (.user d), .int 2, .int 3] w
        [.function (.user d), .int 2, .int 3] :=
      (argsEnd_values (by decide)).mpr ⟨rfl, rfl⟩
    exact (hcalls _ _ _ _ _ (.deferred hsite' rfl hus rfl (by decide)) _).mpr hresult

end Static

end MiniLisp

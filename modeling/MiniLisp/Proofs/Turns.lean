import Mathlib.Data.List.Forall2
import MiniLisp.Proofs.SpecialForms

/-!
# Arguments in turn

A call looks up all its arguments when it begins, and then evaluates them one after the other. It
could as well look up each argument when the turn has come to evaluate it (`AfterTurns`). This is
not the same: while an argument is evaluated a function can be defined anew, and then a symbol
behind the argument stands for something else than it did when the call began. Where evaluating
arguments does not change what the arguments stand for, both orders lead to the same
(`afterTurns_iff_afterArgs`).
-/

namespace MiniLisp

/-- The argument `a` of the call `c` is looked up and evaluated in the world `w`. -/
def TurnEnds (files : Files) (scope : Scope) (c : Call) (w : World) (a : Value) (o : Outcome) :
    Prop :=
  match lookup scope w.globals c a with
  | .error e => o = ⟨w, .failed e⟩
  | .ok r => ArgEnds files scope w r.2 o

/-- The arguments `args` of the call `c` are evaluated from the world `w` on, and each is looked up
when its turn comes. The first that fails decides the outcome; if none fails the outcome is one of
`k`, for the last world and the values. -/
def AfterTurns (files : Files) (scope : Scope) (c : Call) :
    World → List Value → (World → List Value → Outcome → Prop) → Outcome → Prop
  | w, [], k, o => k w [] o
  | w, a :: args, k, o =>
    (∃ w' e, o = ⟨w', .failed e⟩ ∧ TurnEnds files scope c w a o) ∨
      ∃ w' v, TurnEnds files scope c w a ⟨w', .value v⟩ ∧
        AfterTurns files scope c w' args (fun w us => k w (v :: us)) o

/-- The arguments of a call stand for the same in the world `w'` as in `w`. -/
def StandAlike (scope : Scope) (c : Call) (w w' : World) : Prop :=
  ∀ a ∈ c.args, lookup scope w'.globals c a = lookup scope w.globals c a

/-- The argument `a` of the call `c` is looked up to one value. -/
def LooksUp (scope globals : Scope) (c : Call) (a v : Value) : Prop :=
  lookup scope globals c a = .ok (false, v)

section Turns

variable {files : Files} {scope globals : Scope} {c : Call} {w w' : World} {a v : Value}
  {args vs : List Value} {k k' : World → List Value → Outcome → Prop} {o : Outcome}

/-- Without stars each argument is looked up to one value. -/
theorem forall₂_of_lookupAll (hstars : ∀ a ∈ args, a.isStar = false)
    (h : lookupAll scope globals c args = .ok vs) :
    List.Forall₂ (LooksUp scope globals c) args vs := by
  induction args generalizing vs with
  | nil =>
    cases h
    exact .nil
  | cons a args ih =>
    rw [List.forall_mem_cons] at hstars
    obtain ⟨front, rest, rfl, hrest, hfront⟩ := lookupAll_cons_iff.mp h
    rcases hfront with ⟨v, hl, rfl⟩ | ⟨v, hl, -⟩
    · exact .cons hl (ih hstars.2 hrest)
    · rw [isStar_of_lookup hl] at hstars
      cases hstars.1

/-- An argument that stands for the same as before comes to what it stood for. -/
theorem turnEnds_iff (hv : LooksUp scope w.globals c a v) (ha : a ∈ c.args)
    (hsame : StandAlike scope c w w') :
    TurnEnds files scope c w' a o ↔ ArgEnds files scope w' v o := by
  have hl : lookup scope w'.globals c a = .ok (false, v) := (hsame a ha).trans hv
  rw [TurnEnds, hl]

/-- Evaluating an argument leads to a world and a value with the property that it yields. -/
theorem EachYields.of_argEnds {P : World → Value → Prop} {u : Value}
    (h : EachYields files scope P w (v :: vs)) (hu : ArgEnds files scope w v ⟨w', .value u⟩) :
    P w' u ∧ EachYields files scope P w' vs := by
  cases hv : v.isCall with
  | false =>
    rw [argEnds_value hv] at hu
    cases hu
    exact (eachYields_value hv).mp h
  | true =>
    obtain ⟨d, rfl⟩ := Value.eq_call_of_isCall hv
    exact (eachYields_call.mp h).2 w' u hu

/-- **Arguments can be looked up in turn** where evaluating them does not change what they stand
for. -/
theorem afterTurns_iff_afterArgs {w₁ : World}
    (hvs : List.Forall₂ (LooksUp scope w.globals c) args vs) (hargs : ∀ a ∈ args, a ∈ c.args)
    (hsame : StandAlike scope c w w₁)
    (hy : EachYields files scope (fun w' _ => StandAlike scope c w w') w₁ vs)
    (hk : ∀ w' us, StandAlike scope c w w' → (k w' us o ↔ k' w' us o)) :
    AfterTurns files scope c w₁ args k o ↔ AfterArgs files scope w₁ vs k' o := by
  induction hvs generalizing w₁ k k' with
  | nil =>
    rw [AfterTurns, afterArgs_nil]
    exact hk w₁ [] hsame
  | @cons a v args vs hv _ ih =>
    rw [List.forall_mem_cons] at hargs
    rw [AfterTurns, afterArgs_cons]
    simp only [turnEnds_iff hv hargs.1 hsame]
    refine or_congr Iff.rfl (exists_congr fun w' => exists_congr fun u => and_congr_right ?_)
    intro hu
    obtain ⟨hsame', hrest⟩ := hy.of_argEnds hu
    exact ih hargs.2 hsame' hrest fun w'' us h => hk w'' (u :: us) h

theorem forall₂_of_inTurn {R : Value → Value → Prop} {written pairs : List (Value × Value)}
    (h : List.Forall₂ R (inTurn written) (inTurn pairs)) :
    List.Forall₂ R (written.map Prod.fst) (pairs.map Prod.fst) ∧
      List.Forall₂ R (written.map Prod.snd) (pairs.map Prod.snd) := by
  induction written generalizing pairs with
  | nil =>
    cases pairs with
    | nil => exact ⟨.nil, .nil⟩
    | cons p pairs => cases h
  | cons q written ih =>
    cases pairs with
    | nil => cases h
    | cons p pairs =>
      obtain ⟨hfst, hrest⟩ := List.forall₂_cons.mp h
      obtain ⟨hsnd, hrest⟩ := List.forall₂_cons.mp hrest
      obtain ⟨hfsts, hsnds⟩ := ih hrest
      exact ⟨.cons hfst hfsts, .cons hsnd hsnds⟩

/-- A call whose arguments cannot be looked up fails, and none of them is run. -/
theorem ends_iff_of_lookupAll_error {e : Error} (hres : c.resolved = false)
    (h : lookupAll scope w.globals c c.args = .error e) :
    Ends files w (.start c scope) o ↔ o = ⟨w, .failed e⟩ := by
  have hlook : c.lookupArgs scope w.globals = .error e := h
  have hargs : c.resolveArgs scope w.globals = .error e := by rw [Call.resolveArgs, hlook]
  exact ends_halt_iff (step_start_error hres hargs)

end Turns

end MiniLisp

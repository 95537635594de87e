import MiniLisp.Proofs.Similarity.Basic

/-!
# Templates filled with similar values

A template writes its arguments or takes numbers and characters from them. So it gives the same text
for similar arguments (`fillTemplate_similar`).
-/

namespace MiniLisp

theorem Agree.bind {α β γ δ : Type} {R : α → β → Prop} {S : γ → δ → Prop}
    {r : Except Error α} {r' : Except Error β} {f : α → Except Error γ} {g : β → Except Error δ}
    (h : Agree R r r') (hfg : ∀ a b, R a b → Agree S (f a) (g b)) :
    Agree S (r >>= f) (r' >>= g) := by
  cases h with
  | error e => exact .error e
  | ok h => exact hfg _ _ h

namespace Template

section Similarity

variable {M : Revision} {v u : Value} {vs us : List Value}

theorem next_similar (h : List.Forall₂ (Value.Similar M) vs us) :
    Agree (fun p q => p.1.Similar M q.1 ∧ List.Forall₂ (Value.Similar M) p.2 q.2) (next vs)
      (next us) := by
  cases h with
  | nil => exact .error _
  | cons hv h => exact .ok ⟨hv, h⟩

theorem sizeArgument_similar (h : v.Similar M u) : sizeArgument v = sizeArgument u := by
  cases h <;> rfl

theorem integerArgument_similar (h : v.Similar M u) (decimal : Bool) :
    integerArgument decimal v = integerArgument decimal u := by
  cases h <;> rfl

theorem characterArgument_similar (h : v.Similar M u) :
    characterArgument v = characterArgument u := by
  cases h <;> rfl

/-- A field writes similar arguments alike. -/
theorem Field.write_similar (f : Field) (h : v.Similar M u) : f.write v = f.write u := by
  unfold Field.write
  rw [h.display_eq, Value.quoted, Value.quoted, Value.Similar.write_eq v h,
    integerArgument_similar h, integerArgument_similar h, characterArgument_similar h,
    h.number?_eq]

/-- A width is read alike, and similar arguments are left. -/
theorem readWidth_similar (flags : Flags) (cs : List Char)
    (h : List.Forall₂ (Value.Similar M) vs us) :
    Agree (fun p q => p.1 = q.1 ∧ p.2.1 = q.2.1 ∧
      List.Forall₂ (Value.Similar M) p.2.2.1 q.2.2.1 ∧ p.2.2.2 = q.2.2.2)
      (readWidth flags vs cs) (readWidth flags us cs) := by
  unfold readWidth
  split
  · refine (next_similar h).bind fun ⟨v, rest⟩ ⟨u, rest'⟩ ⟨hv, hrest⟩ => ?_
    dsimp only at hv ⊢
    rw [sizeArgument_similar hv]
    cases sizeArgument u with
    | error e => exact .error e
    | ok n =>
      show Agree _ (ite _ _ _) (ite _ _ _)
      split
      · exact .error _
      · exact .ok ⟨rfl, rfl, hrest, rfl⟩
  · split
    · cases readSize maxWidth 0 _ with
      | error e => exact .error e
      | ok p => exact .ok ⟨rfl, rfl, h, rfl⟩
    · exact .ok ⟨rfl, rfl, h, rfl⟩
  · exact .ok ⟨rfl, rfl, h, rfl⟩

/-- A precision is read alike, and similar arguments are left. -/
theorem readPrecision_similar (cs : List Char) (h : List.Forall₂ (Value.Similar M) vs us) :
    Agree (fun p q => p.1 = q.1 ∧ List.Forall₂ (Value.Similar M) p.2.1 q.2.1 ∧ p.2.2 = q.2.2)
      (readPrecision vs cs) (readPrecision us cs) := by
  unfold readPrecision
  split
  · refine (next_similar h).bind fun ⟨v, rest⟩ ⟨u, rest'⟩ ⟨hv, hrest⟩ => ?_
    dsimp only at hv ⊢
    rw [sizeArgument_similar hv]
    cases sizeArgument u with
    | error e => exact .error e
    | ok n =>
      show Agree _ (ite _ _ _) (ite _ _ _)
      split
      · exact .error _
      · exact .ok ⟨rfl, hrest, rfl⟩
  · cases readSize maxPrecision 0 _ with
    | error e => exact .error e
    | ok p => exact .ok ⟨rfl, h, rfl⟩
  · exact .ok ⟨rfl, h, rfl⟩

/-- A field is read alike, and similar arguments are left. -/
theorem readField_similar (keyed : Bool) (cs : List Char)
    (h : List.Forall₂ (Value.Similar M) vs us) :
    Agree (fun p q => p.1 = q.1 ∧ List.Forall₂ (Value.Similar M) p.2.1 q.2.1 ∧ p.2.2 = q.2.2)
      (readField keyed vs cs) (readField keyed us cs) := by
  unfold readField
  split
  · exact .error _
  · refine (readWidth_similar _ _ h).bind ?_
    rintro ⟨flags, width, rest, cs⟩ ⟨_, _, rest', _⟩ ⟨rfl, rfl, hrest, rfl⟩
    refine (readPrecision_similar _ hrest).bind ?_
    rintro ⟨precision, rest, cs⟩ ⟨_, rest', _⟩ ⟨rfl, hrest, rfl⟩
    dsimp only
    split
    · exact .error _
    · exact .ok ⟨rfl, hrest, rfl⟩

/-- Fields are filled alike, and similar arguments are left. -/
theorem fill_similar (keyed : Bool) (n : Nat) (cs : List Char)
    (h : List.Forall₂ (Value.Similar M) vs us) :
    Agree (fun p q => p.1 = q.1 ∧ List.Forall₂ (Value.Similar M) p.2 q.2) (fill keyed n vs cs)
      (fill keyed n us cs) := by
  induction n generalizing vs us cs with
  | zero => exact .ok ⟨rfl, h⟩
  | succ n ih =>
    unfold fill
    dsimp only
    split
    · exact .ok ⟨rfl, h⟩
    · refine (ih _ h).bind ?_
      rintro ⟨text, rest⟩ ⟨_, rest'⟩ ⟨rfl, hrest⟩
      exact .ok ⟨rfl, hrest⟩
    · refine (readField_similar keyed _ h).bind ?_
      rintro ⟨field, rest, cs⟩ ⟨_, rest', _⟩ ⟨rfl, hrest, rfl⟩
      refine (next_similar hrest).bind ?_
      rintro ⟨v, rest⟩ ⟨u, rest'⟩ ⟨hv, hrest⟩
      dsimp only at hv ⊢
      rw [field.write_similar hv]
      cases field.write u with
      | error e => exact .error e
      | ok written =>
        refine (ih _ hrest).bind ?_
        rintro ⟨text, rest⟩ ⟨_, rest'⟩ ⟨rfl, hrest⟩
        exact .ok ⟨rfl, hrest⟩

/-- The text of a template that has been filled, if no arguments are left over. -/
def finished (keyed : Bool) (r : List Char × List Value) : Except Error String :=
  if r.2.isEmpty || keyed then return String.ofList r.1 else throw .wrongType

/-- Templates that are filled with similar arguments are finished alike. -/
theorem finished_similar (keyed : Bool) (fuel : Nat) (cs : List Char)
    (h : List.Forall₂ (Value.Similar M) vs us) :
    Agree Eq (fill keyed fuel vs cs >>= finished keyed)
      (fill keyed fuel us cs >>= finished keyed) := by
  refine (fill_similar _ _ _ h).bind ?_
  rintro ⟨text, rest⟩ ⟨_, rest'⟩ ⟨rfl, hrest⟩
  have hempty : rest.isEmpty = rest'.isEmpty := by
    cases hrest <;> rfl
  unfold finished
  dsimp only
  rw [hempty]
  split
  · exact .ok rfl
  · exact .error _

end Similarity

end Template

/-- **A template gives the same text for similar values.** -/
theorem fillTemplate_similar {M : Revision} {v u : Value} (s : String) (h : v.Similar M u) :
    fillTemplate s v = fillTemplate s u := by
  have hkeyed : Template.hasKeys v = Template.hasKeys u := by
    cases h <;> rfl
  have heq : ∀ {r r' : Except Error String}, Agree Eq r r' → r = r' := by
    intro r r' h
    cases h with
    | error e => rfl
    | ok h => rw [h]
  unfold fillTemplate
  rw [hkeyed]
  cases h with
  | atom _ => rfl
  | tuple hitems => exact heq (Template.finished_similar _ _ _ hitems)
  | list hitems => exact heq (Template.finished_similar _ _ _ (.cons (.list hitems) .nil))
  | function h hnumber =>
    exact heq (Template.finished_similar _ _ _ (.cons (.function h hnumber) .nil))
  | call h => exact heq (Template.finished_similar _ _ _ (.cons (.call h) .nil))

end MiniLisp

import MiniLisp.Proofs.Closures
import MiniLisp.Proofs.Reading.Position

/-!
# Texts of definitions

A text that consists of definitions `(defun 'name 'parameter … body)` with quoted names and a call
for their body. Under any functions it is read block by block, since what a block is does not depend
on them (`DefinitionTexts`). Whether a text is of this form can be computed, by reading it while
nothing is bound, when what is read shows all that is written (`definitionTexts_of_definedNames?`).
-/

namespace MiniLisp

/-! ## Items with known heads -/

mutual

/-- Whether all calls in an item have a symbol with a property for their head. -/
def Item.headed (p : String → Bool) : Item → Bool
  | .call items => Item.headedCall p items
  | _ => true

/-- Whether all calls in some items have a symbol with a property for their head. -/
def Item.headedAll (p : String → Bool) : List Item → Bool
  | [] => true
  | item :: items => item.headed p && Item.headedAll p items

/-- Whether the call with some items has a symbol with a property for its head, and so do the calls
among the items. -/
def Item.headedCall (p : String → Bool) : List Item → Bool
  | .symbol h :: items => p h && Item.headedAll p items
  | _ => false

end

/-! ## Definitions -/

/-- The items of a definition: its name and its parameters are quoted, and its body is a call. -/
def Item.definition (name : String) (params : List String) (body : List Item) : List Item :=
  .symbol "defun" :: ((name :: params).map (fun n => Item.symbol ("'" ++ n)) ++ [.call body])

/-- The call that defines a function with quoted names. -/
def Call.defining (name : String) (params : List String) (body : Call) : Call :=
  .begin (.builtin .define) ((name :: params).map quoted ++ [.call body])

/-- The name that an item quotes. -/
def Item.unquoted? : Item → Option String
  | .symbol s =>
    match s.toList with
    | '\'' :: cs => some (String.ofList cs)
    | _ => none
  | _ => none

/-- The names that items quote before the last item, and the items of the last one, which is a
call. -/
def Item.signature? : List Item → Option (List String × List Item)
  | [] => none
  | item :: items =>
    match items, item with
    | [], .call body => some ([], body)
    | _, _ => item.unquoted?.bind fun n => (Item.signature? items).map fun r => (n :: r.1, r.2)

section Signature

variable {item : Item} {items body : List Item} {n : String} {names : List String}

theorem Item.eq_of_unquoted? (h : item.unquoted? = some n) : item = .symbol ("'" ++ n) := by
  cases item with
  | symbol s =>
    unfold Item.unquoted? at h
    dsimp only at h
    split at h
    · rename_i cs hcs
      cases h
      refine congrArg Item.symbol (String.toList_injective ?_)
      rw [toList_quoted, String.toList_ofList, hcs]
    · cases h
  | text _ => cases h
  | call _ => cases h

theorem Item.eq_of_signature? (h : Item.signature? items = some (names, body)) :
    items = names.map (fun n => Item.symbol ("'" ++ n)) ++ [.call body] := by
  induction items generalizing names with
  | nil => cases h
  | cons item items ih =>
    unfold Item.signature? at h
    split at h
    · cases h
      rfl
    · obtain ⟨n, hn, h⟩ := Option.bind_eq_some_iff.mp h
      obtain ⟨⟨names', body'⟩, hr, h⟩ := Option.map_eq_some_iff.mp h
      cases h
      rw [Item.eq_of_unquoted? hn, ih hr]
      rfl

/-- Quoted names stand for themselves, whatever is bound. -/
theorem Item.buildAll_quoted (globals : Scope) :
    Item.buildAll globals (names.map (fun n => Item.symbol ("'" ++ n)) ++ items) =
      (Item.buildAll globals items).map (names.map quoted ++ ·) := by
  induction names with
  | nil =>
    show Item.buildAll globals items = (Item.buildAll globals items).map fun vs => [] ++ vs
    cases Item.buildAll globals items <;> rfl
  | cons n names ih =>
    rw [List.map_cons, List.cons_append, Item.buildAll, ih]
    cases Item.buildAll globals items <;> rfl

/-- A definition is read to such a call where `defun` is what it is at the start. -/
theorem Item.close_definition {globals : Scope} {params : List String}
    (hdefun : globals.find? (.symbol "defun") = .ok (some (.function (.builtin .define)))) :
    Item.close globals [] (Item.definition n params body) =
      (Item.close globals [] body).bind fun b =>
        Function.begin (.builtin .define) (Call.defining n params b).args := by
  rw [Item.definition, Item.close_cons rfl, Item.close, Item.buildAll_quoted, Item.buildAll,
    Item.build_call]
  cases Item.close globals [] body with
  | error e => rfl
  | ok b =>
    show makeCall globals (.symbol "defun") _ = _
    rw [makeCall, hdefun]
    rfl

end Signature

/-! ## Texts -/

/-- A text of definitions of the given names, in whose bodies all heads have a property. -/
inductive DefinitionTexts (p : String → Bool) : List String → List Char → Prop where
  | nil : DefinitionTexts p [] []
  | cons {n : String} {names params : List String} {body : List Item} {text cs : List Char}
      (htext : CallText (Item.definition n params body) text)
      (hheads : Item.headedCall p body = true) (hrest : DefinitionTexts p names cs) :
      DefinitionTexts p (n :: names) (text ++ cs)

/-- The name that a definition gives to a function, if all heads in its body have a property. -/
def Item.definedName? (p : String → Bool) : List Item → Option String
  | .symbol h :: items =>
    match h == "defun", Item.signature? items with
    | true, some (n :: _, body) => if Item.headedCall p body then some n else none
    | _, _ => none
  | _ => none

/-- The names that a text of definitions gives to functions. -/
def definedNames? (p : String → Bool) : (fuel : Nat) → List Char → Option (List String)
  | _, [] => some []
  | 0, _ => none
  | fuel + 1, cs =>
    match readCall [] cs with
    | .ok (c, rest) =>
      (Item.definedName? p c.toItems).bind fun n => (definedNames? p fuel rest).map (n :: ·)
    | .error _ => none

section Texts

variable {p : String → Bool}

theorem Item.exists_of_definedName? {items : List Item} {n : String}
    (h : Item.definedName? p items = some n) :
    ∃ params body, items = Item.definition n params body ∧ Item.headedCall p body = true := by
  unfold Item.definedName? at h
  split at h
  · split at h
    · rename_i hdefun hsig
      split at h
      · rename_i hheads
        cases h
        rw [eq_of_beq hdefun, Item.eq_of_signature? hsig]
        exact ⟨_, _, rfl, hheads⟩
      · cases h
    · cases h
  · cases h

/-- A text whose definitions have been found is a text of definitions. -/
theorem definitionTexts_of_definedNames? {fuel : Nat} {cs : List Char} {names : List String}
    (h : definedNames? p fuel cs = some names) : DefinitionTexts p names cs := by
  induction fuel generalizing cs names with
  | zero =>
    cases cs with
    | nil =>
      cases h
      exact .nil
    | cons c cs => cases h
  | succ fuel ih =>
    cases cs with
    | nil =>
      cases h
      exact .nil
    | cons c cs =>
      unfold definedNames? at h
      split at h
      · rename_i call rest hread
        obtain ⟨n, hn, h⟩ := Option.bind_eq_some_iff.mp h
        obtain ⟨names', hrest, rfl⟩ := Option.map_eq_some_iff.mp h
        obtain ⟨params, body, hitems, hheads⟩ := Item.exists_of_definedName? hn
        obtain ⟨text, hcs, htext⟩ := exists_callText_of_readCall hread
        rw [hitems] at htext
        rw [hcs]
        exact .cons htext hheads (ih hrest)
      · cases h

end Texts

end MiniLisp

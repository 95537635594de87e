import MiniLisp.Proofs.Reading.Definitions
import MiniLisp.Proofs.Similarity.Preparation

/-!
# Reading under similar functions

A text is read to similar calls under similar global scopes, or fails with the same error
(`readCall_similar`). More is true of texts whose heads are known: they are read to similar calls
whenever every head gives similar calls (`Item.close_similar`), for instance if it has no meaning
under one scope and stands for a function under the other.
-/

namespace MiniLisp

section Similarity

variable {M : Revision} {globals globals' : Scope} {head head' : Value}
  {vs us : List Value}

/-! ## Heads -/

/-- A call is no key. -/
theorem Scope.find?_call (s : Scope) (c : Call) : s.find? (.call c) = .ok none := by
  induction s with
  | nil => rfl
  | cons e s ih =>
    obtain ⟨k, v⟩ := e
    have hkey : Value.isKey k (.call c) = .ok false := by
      cases k <;> simp [Value.isKey, Value.sameHash, Value.sameAtomHash, Value.characters?,
        Value.number?]
    rw [Scope.find?, hkey]
    exact ih

/-- What is read among the items of a call: a symbol, a text or a call. -/
def Value.isItem (v : Value) : Bool :=
  v.isAtom || v.isCall

theorem Call.Alike.defer (hhead : head.Similar M head')
    (hargs : List.Forall₂ (Value.Similar M) vs us) :
    (Call.defer head vs).Alike M (Call.defer head' us) :=
  .begin (.builtin .deferred) (.cons hhead hargs)

/-- Similar items are made to similar calls under similar global scopes. -/
theorem makeCall_similar (hg : Scope.Similar M globals globals') (hhead : head.Similar M head')
    (hitem : head.isItem = true) (hargs : List.Forall₂ (Value.Similar M) vs us) :
    Agree (Call.Similar M) (makeCall globals head vs) (makeCall globals' head' us) := by
  have hdefer : Call.Similar M (.defer head vs) (.defer head' us) :=
    (Call.Alike.defer hhead hargs).similar
  cases hhead with
  | atom h =>
    unfold makeCall
    rcases (hg.find? (.atom h)).cases with ⟨e, h1, h2⟩ | ⟨x, y, h1, h2, h⟩
    · rw [h1, h2]
      exact .error e
    · rw [h1, h2]
      cases h with
      | none => exact .ok hdefer
      | some h =>
        cases h with
        | function hf _ => exact (hf.begin hargs).mono fun _ _ h => h.similar
        | atom hv =>
          rename_i v
          cases v with
          | function f => cases hv
          | _ => exact .error _
        | _ => exact .error _
  | call h =>
    unfold makeCall
    rw [Scope.find?_call, Scope.find?_call]
    exact .ok hdefer
  | _ => cases hitem

/-! ## Texts -/

/-- The items of a call are closed to similar calls. -/
theorem closeCall_similar (hg : Scope.Similar M globals globals')
    (h : List.Forall₂ (Value.Similar M) vs us) (hitems : ∀ v ∈ vs, v.isItem = true) :
    Agree (Call.Similar M) (closeCall globals vs) (closeCall globals' us) := by
  cases h with
  | nil => exact .error _
  | cons hhead hargs => exact makeCall_similar hg hhead (hitems _ List.mem_cons_self) hargs

/-- Calls that are left open are reported alike. -/
theorem unterminated_similar (h : List.Forall₂ (Value.Similar M) vs us) :
    unterminated vs = unterminated us := by
  cases h with
  | nil => rfl
  | cons hhead _ => rw [unterminated, unterminated, hhead.display_eq]

theorem forall_mem_concat {p : Value → Prop} {v : Value} (hvs : ∀ u ∈ vs, p u) (hv : p v) :
    ∀ u ∈ vs ++ [v], p u :=
  List.forall_mem_append.mpr ⟨hvs, List.forall_mem_singleton.mpr hv⟩

/-- The rest of a call is read alike behind similar items. -/
theorem readRest_similar (hg : Scope.Similar M globals globals') (cs : List Char)
    (h : List.Forall₂ (Value.Similar M) vs us) (hitems : ∀ v ∈ vs, v.isItem = true) :
    Agree (fun p q => p.1.Similar M q.1 ∧ p.2 = q.2) (readRest globals vs cs)
      (readRest globals' us cs) := by
  induction vs, cs using readRest_induction globals generalizing us with
  | nil vs =>
    rw [readRest_nil, readRest_nil, unterminated_similar h]
    exact .error _
  | call vs cs ihinner ih =>
    rw [readRest_open, readRest_open]
    rcases (ihinner .nil (by simp)).cases with ⟨e, h1, h2⟩ | ⟨⟨c, k⟩, ⟨c', k'⟩, h1, h2, hc, hk⟩
    · rw [h1, h2]
      exact .error _
    · rw [h1, h2]
      cases hk
      exact ih c k h1 (List.rel_append h (.cons (.call hc) .nil)) (forall_mem_concat hitems rfl)
  | close vs cs =>
    rw [readRest_close, readRest_close]
    exact (closeCall_similar hg h hitems).map fun _ _ hc => ⟨hc, rfl⟩
  | separator vs d cs hd ih =>
    rw [readRest_separator hd, readRest_separator hd]
    exact ih h hitems
  | symbol vs name cs hname hcs ih =>
    rw [readRest_symbol hname hcs, readRest_symbol hname hcs]
    exact ih (List.rel_append h (.cons (.atom rfl) .nil)) (forall_mem_concat hitems rfl)
  | text vs content cs hcontent ih =>
    rw [readRest_text hcontent, readRest_text hcontent]
    exact ih (List.rel_append h (.cons (.atom rfl) .nil)) (forall_mem_concat hitems rfl)
  | unclosed vs content hcontent =>
    rw [readRest_unclosed hcontent, readRest_unclosed hcontent,
      unterminated_similar (List.rel_append h (.cons (.atom rfl) .nil))]
    exact .error _

/-- **A text is read to similar calls** under similar global scopes. -/
theorem readCall_similar (hg : Scope.Similar M globals globals') (cs : List Char) :
    Agree (fun p q => p.1.Similar M q.1 ∧ p.2 = q.2) (readCall globals cs)
      (readCall globals' cs) := by
  cases cs with
  | nil => exact .error _
  | cons d cs =>
    rw [readCall, readCall]
    split
    · exact readRest_similar hg cs .nil (by simp)
    · exact .error _

end Similarity

/-! ## Items with known heads -/

/-- A head gives similar calls under two global scopes. -/
def HeadAgrees (M : Revision) (globals globals' : Scope) (h : String) : Prop :=
  ∀ {vs us : List Value}, List.Forall₂ (Value.Similar M) vs us →
    Agree (Call.Similar M) (makeCall globals (.symbol h) vs) (makeCall globals' (.symbol h) us)

section Items

variable {M : Revision} {globals globals' : Scope} {p : String → Bool}

mutual

/-- Each item is read to similar values if all heads in it give similar calls. -/
theorem Item.build_similar (hp : ∀ h, p h = true → HeadAgrees M globals globals' h) (item : Item)
    (h : item.headed p = true) :
    Agree (Value.Similar M) (item.build globals) (item.build globals') := by
  cases item with
  | symbol name => exact .ok (.atom rfl)
  | text content => exact .ok (.atom rfl)
  | call items =>
    rw [Item.build_call, Item.build_call]
    exact (Item.close_similar hp items h).map fun _ _ h => .call h

theorem Item.buildAll_similar (hp : ∀ h, p h = true → HeadAgrees M globals globals' h)
    (items : List Item) (h : Item.headedAll p items = true) :
    Agree (List.Forall₂ (Value.Similar M)) (Item.buildAll globals items)
      (Item.buildAll globals' items) := by
  cases items with
  | nil => exact .ok .nil
  | cons item items =>
    obtain ⟨h1, h2⟩ := Bool.and_eq_true_iff.mp h
    rw [Item.buildAll, Item.buildAll]
    rcases (Item.build_similar hp item h1).cases with ⟨e, h1, h1'⟩ | ⟨v, u, h1, h1', hv⟩
    · rw [h1, h1']
      exact .error e
    · rw [h1, h1']
      exact (Item.buildAll_similar hp items h2).map fun _ _ h => .cons hv h

/-- **Items are read to similar calls** if all heads in them give similar calls. -/
theorem Item.close_similar (hp : ∀ h, p h = true → HeadAgrees M globals globals' h)
    (items : List Item) (h : Item.headedCall p items = true) :
    Agree (Call.Similar M) (Item.close globals [] items) (Item.close globals' [] items) := by
  cases items with
  | nil => cases h
  | cons item items =>
    cases item with
    | symbol name =>
      obtain ⟨h1, h2⟩ := Bool.and_eq_true_iff.mp h
      rw [Item.close_cons rfl, Item.close_cons rfl, Item.close, Item.close]
      rcases (Item.buildAll_similar hp items h2).cases with ⟨e, h2, h2'⟩ | ⟨vs, us, h2, h2', hargs⟩
      · rw [h2, h2']
        exact .error e
      · rw [h2, h2']
        exact hp name h1 hargs
    | text content => cases h
    | call items => cases h

end

end Items

end MiniLisp

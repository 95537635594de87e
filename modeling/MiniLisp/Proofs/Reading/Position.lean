import MiniLisp.Proofs.Reading.Grammar

/-!
# Reading at a position

While nothing is bound every call is deferred, so that what is read shows all that is written. Hence
a text is the text of one call at most (`CallText.unique`), and the reader, started at a position,
tells whether a call is written there, which one, and where it ends (`readCallAt_iff_callText`).
-/

namespace MiniLisp

/-! ## Reading while nothing is bound -/

mutual

/-- The value that an item is read to while nothing is bound: all calls are deferred. -/
def Item.toValue : Item → Value
  | .symbol name => .symbol name
  | .text content => .text content
  | .call items => .call (.begin (.builtin .deferred) (Item.toValues items))

/-- The values that items are read to while nothing is bound. -/
def Item.toValues : List Item → List Value
  | [] => []
  | item :: items => item.toValue :: Item.toValues items

end

/-- The call of some items while nothing is bound. -/
def Item.toCall (items : List Item) : Call :=
  .begin (.builtin .deferred) (Item.toValues items)

theorem closeCall_nothing {vs : List Value} (h : vs ≠ []) :
    closeCall [] vs = .ok (.begin (.builtin .deferred) vs) := by
  cases vs with
  | nil => exact absurd rfl h
  | cons head args => rfl

theorem Item.toValues_ne_nil {items : List Item} (h : items ≠ []) : Item.toValues items ≠ [] := by
  cases items with
  | nil => exact absurd rfl h
  | cons item items =>
    rw [Item.toValues]
    exact List.cons_ne_nil _ _

/-- While nothing is bound every item that is written can be built. -/
theorem Written.buildAll_nothing {items : List Item} {cs : List Char} (h : Written items cs) :
    Item.buildAll [] items = .ok (Item.toValues items) := by
  induction h with
  | nil => rfl
  | separator _ _ ih => exact ih
  | symbol _ _ _ ih =>
    rw [Item.buildAll, ih]
    rfl
  | text _ _ ih =>
    rw [Item.buildAll, ih]
    rfl
  | call hne _ _ ihinner ih =>
    rw [Item.buildAll, Item.build, ihinner, ih]
    show ((closeCall [] (Item.toValues _)).map Value.call).bind _ = _
    rw [closeCall_nothing (Item.toValues_ne_nil hne)]
    rfl

theorem CallText.close_nothing {items : List Item} {cs : List Char} (h : CallText items cs) :
    Item.close [] [] items = .ok (Item.toCall items) := by
  obtain ⟨hne, text, -, hwritten⟩ := h
  rw [Item.close, hwritten.buildAll_nothing]
  exact closeCall_nothing (Item.toValues_ne_nil hne)

mutual

/-- The item that is read to a value while nothing is bound. -/
def Value.toItem : Value → Item
  | .symbol name => .symbol name
  | .text content => .text content
  | .call c => .call c.toItems
  | _ => .call []
termination_by structural v => v

/-- The items that are read to some values while nothing is bound. -/
def Value.toItems : List Value → List Item
  | [] => []
  | v :: vs => v.toItem :: Value.toItems vs
termination_by structural vs => vs

/-- The items of a call that is read while nothing is bound. -/
def Call.toItems : Call → List Item
  | ⟨_, args, _, _, _⟩ => Value.toItems args
termination_by structural c => c

end

mutual

/-- What an item is read to shows the item. -/
theorem Item.toItem_toValue (item : Item) : item.toValue.toItem = item := by
  cases item with
  | symbol name => rfl
  | text content => rfl
  | call items =>
    show Item.call (Value.toItems (Item.toValues items)) = _
    rw [Item.toItems_toValues items]

/-- What items are read to shows the items. -/
theorem Item.toItems_toValues (items : List Item) :
    Value.toItems (Item.toValues items) = items := by
  cases items with
  | nil => rfl
  | cons item items =>
    show item.toValue.toItem :: Value.toItems (Item.toValues items) = _
    rw [Item.toItem_toValue item, Item.toItems_toValues items]

end

theorem Item.toItems_toCall (items : List Item) : (Item.toCall items).toItems = items :=
  Item.toItems_toValues items

/-- Calls with different items are different calls while nothing is bound. -/
theorem Item.toCall_inj {items items' : List Item} (h : Item.toCall items = Item.toCall items') :
    items = items' := by
  rw [← Item.toItems_toCall items, h, Item.toItems_toCall]

/-- What is read while nothing is bound shows the items that are written. -/
theorem exists_callText_of_readCall {cs rest : List Char} {c : Call}
    (h : readCall [] cs = .ok (c, rest)) :
    ∃ text, cs = text ++ rest ∧ CallText c.toItems text := by
  obtain ⟨items, text, hcs, htext, hclose⟩ := readCall_eq_ok_iff.mp h
  rw [htext.close_nothing] at hclose
  cases hclose
  rw [Item.toItems_toCall]
  exact ⟨text, hcs, htext⟩

/-- **A text is the text of one call at most.** -/
theorem CallText.unique {items items' : List Item} {cs : List Char} (h : CallText items cs)
    (h' : CallText items' cs) : items = items' := by
  have hread : ∀ {items}, CallText items cs → readCall [] cs = .ok (Item.toCall items, []) :=
    fun h => readCall_eq_ok_iff.mpr ⟨_, cs, (List.append_nil cs).symm, h, h.close_nothing⟩
  refine Item.toCall_inj ?_
  have := (hread h).symm.trans (hread h')
  simpa using this

theorem CallText.length_pos {items : List Item} {cs : List Char} (h : CallText items cs) :
    0 < cs.length := by
  obtain ⟨-, text, rfl, -⟩ := h
  exact Nat.succ_pos _

/-! ## Reading at a position -/

/-- The characters of a text from a position up to another one. -/
def slice (cs : List Char) (i j : Nat) : List Char :=
  (cs.take j).drop i

theorem slice_append {before text : List Char} (after : List Char) {i : Nat}
    (hi : before.length = i) : slice (before ++ text ++ after) i (i + text.length) = text := by
  have htake : (before ++ text ++ after).take (i + text.length) = before ++ text := by
    rw [← hi, ← List.length_append, List.take_left]
  rw [slice, htake, ← hi, List.drop_left]

/-- A slice of a text stands between what is before and what is after it. -/
theorem append_slice_append {cs : List Char} {i j : Nat} (hij : i ≤ j) :
    cs = cs.take i ++ slice cs i j ++ cs.drop j := by
  have hfront : cs.take i ++ slice cs i j = cs.take j := by
    have htake : cs.take i = (cs.take j).take i := by rw [List.take_take, Nat.min_eq_left hij]
    rw [slice, htake, List.take_append_drop]
  rw [hfront, List.take_append_drop]

theorem length_slice {cs : List Char} {i j : Nat} (hj : j ≤ cs.length) :
    (slice cs i j).length = j - i := by
  rw [slice, List.length_drop, List.length_take, Nat.min_eq_left hj]

/-- At a position a call is read whose text begins there, up to the end of the text. -/
theorem readCallAt_eq_ok_iff {globals : Scope} {before cs : List Char} {c : Call} {j : Int}
    (hcs : cs ≠ []) :
    readCallAt globals (String.ofList (before ++ cs)) before.length = .ok (c, j) ↔
      ∃ items text after, cs = text ++ after ∧ j = (before.length + text.length : Nat) ∧
        CallText items text ∧ Item.close globals [] items = .ok c := by
  have hpos : 0 < cs.length := List.length_pos_iff.mpr hcs
  have htext : textFrom (before ++ cs) before.length = some cs := by
    rw [textFrom, if_pos (Int.natCast_nonneg _), if_pos (by rw [List.length_append]; omega),
      Int.toNat_natCast, List.drop_left]
  rw [readCallAt, String.toList_ofList, htext]
  dsimp only
  constructor
  · intro h
    obtain ⟨⟨call, after⟩, hread, hr⟩ := map_eq_ok_iff.mp h
    obtain ⟨items, text, rfl, hitems, hclose⟩ := readCall_eq_ok_iff.mp hread
    cases hr
    refine ⟨items, text, after, rfl, ?_, hitems, hclose⟩
    dsimp only
    rw [List.length_append]
    omega
  · rintro ⟨items, text, after, rfl, rfl, hitems, hclose⟩
    refine map_eq_ok_iff.mpr ⟨(c, after), readCall_eq_ok_iff.mpr ⟨items, text, rfl, hitems, hclose⟩,
      ?_⟩
    dsimp only
    rw [List.length_append, Nat.add_sub_cancel, Int.natCast_add]

/-- The same while nothing is bound, for a slice of a text. -/
theorem readCallAt_slice_iff {cs : List Char} {i : Nat} {c : Call} {j : Int} (hi : i < cs.length) :
    readCallAt [] (String.ofList cs) i = .ok (c, j) ↔
      i < j ∧ j ≤ cs.length ∧ ∃ items, c = Item.toCall items ∧
        CallText items (slice cs i j.toNat) := by
  have hbefore : (cs.take i).length = i := List.length_take_of_le (Nat.le_of_lt hi)
  have hne : cs.drop i ≠ [] := by
    intro hnil
    have := List.drop_eq_nil_iff.mp hnil
    omega
  have hread := @readCallAt_eq_ok_iff [] (cs.take i) (cs.drop i) c j hne
  rw [List.take_append_drop, hbefore] at hread
  rw [hread]
  constructor
  · rintro ⟨items, text, after, hcut, rfl, hitems, hclose⟩
    have hcs : cs = cs.take i ++ text ++ after := by
      rw [List.append_assoc, ← hcut, List.take_append_drop]
    have hlen : cs.length = i + text.length + after.length := by
      have := congrArg List.length hcs
      simp only [List.length_append, hbefore] at this
      exact this
    have hpos : 0 < text.length := hitems.length_pos
    refine ⟨by omega, by omega, items, ?_, ?_⟩
    · have hcall := hitems.close_nothing.symm.trans hclose
      exact (Except.ok.inj hcall).symm
    · rw [Int.toNat_natCast, hcs, slice_append after hbefore]
      exact hitems
  · rintro ⟨hij, hj, items, rfl, hitems⟩
    obtain ⟨k, rfl⟩ : ∃ k : Nat, j = k := ⟨j.toNat, by omega⟩
    rw [Int.toNat_natCast] at hitems
    have hslice : cs.drop i = slice cs i k ++ cs.drop k := by
      have hcut : cs = cs.take i ++ slice cs i k ++ cs.drop k := append_slice_append (by omega)
      conv => lhs; rw [hcut, List.append_assoc]
      exact List.drop_left' hbefore
    have hlen : (slice cs i k).length = k - i := length_slice (by omega)
    exact ⟨items, slice cs i k, cs.drop k, hslice, by omega, hitems, hitems.close_nothing⟩

/-- **The reader accepts exactly its grammar.** While nothing is bound, a call is read from the
position `i` to the position `j` if and only if the characters from `i` up to `j` are the text of a
call. It is then the call of the items that are written there, and no other items can be. What is
read depends neither on the characters before `i` nor on those from `j` on. -/
theorem readCallAt_iff_callText (s : String) (i : Nat) (hi : i < s.length) (c : Call) (j : Int) :
    (readCallAt [] s i = .ok (c, j) ↔
        i < j ∧ j ≤ s.length ∧ ∃ items, c = Item.toCall items ∧
          ∀ items', CallText items' (slice s.toList i j.toNat) ↔ items' = items) ∧
      (readCallAt [] s i = .ok (c, j) → ∀ before after : List Char, before.length = i →
        readCallAt [] (String.ofList (before ++ slice s.toList i j.toNat ++ after)) i =
          .ok (c, j)) := by
  have hi' : i < s.toList.length := by rwa [String.length_toList]
  have hread := readCallAt_slice_iff (c := c) (j := j) hi'
  rw [String.ofList_toList, String.length_toList] at hread
  constructor
  · rw [hread]
    refine and_congr_right fun _ => and_congr_right fun _ => exists_congr fun items =>
      and_congr_right fun _ => ⟨fun h items' => ?_, fun h => (h items).mpr rfl⟩
    exact ⟨fun h' => h'.unique h, fun heq => heq ▸ h⟩
  · intro h before after hbefore
    obtain ⟨hij, hj, items, rfl, hitems⟩ := hread.mp h
    have hlen : (slice s.toList i j.toNat).length = j.toNat - i :=
      length_slice (by rw [String.length_toList]; omega)
    have hlong : i < (before ++ slice s.toList i j.toNat ++ after).length := by
      simp only [List.length_append]
      omega
    refine (readCallAt_slice_iff hlong).mpr ⟨hij, ?_, items, rfl, ?_⟩
    · simp only [List.length_append]
      omega
    · generalize slice s.toList i j.toNat = text at hlen hitems ⊢
      have hj' : j.toNat = i + text.length := by omega
      rw [hj', slice_append after hbefore]
      exact hitems

/-- `(f "a )"c(g))` between other characters: what is read are a symbol, a text with a bracket, a
symbol that follows it at once, and a call. -/
theorem readCallAt_iff_callText_nested :
    let s : String := String.ofList
      ['x', ')', '(', 'f', ' ', '"', 'a', ' ', ')', '"', 'c', '(', 'g', ')', ')', '(']
    let c : Call := .defer (.symbol (String.ofList ['f']))
      [.text (String.ofList ['a', ' ', ')']), .symbol (String.ofList ['c']),
        .call (.defer (.symbol (String.ofList ['g'])) [])]
    2 < s.length ∧ readCallAt [] s 2 = .ok (c, 15) ∧
      ∀ after, readCallAt [] (String.ofList (['(', ' '] ++ slice s.toList 2 15 ++ after)) 2 =
        .ok (c, 15) := by
  intro s c
  have hlen : s.length = 16 := String.length_ofList
  have htext : slice s.toList 2 15 =
      ['(', 'f', ' ', '"', 'a', ' ', ')', '"', 'c', '(', 'g', ')', ')'] := by
    rw [String.toList_ofList]
    rfl
  let items : List Item := [.symbol (String.ofList ['f']), .text (String.ofList ['a', ' ', ')']),
    .symbol (String.ofList ['c']), .call [.symbol (String.ofList ['g'])]]
  have hitems : CallText items (slice s.toList 2 15) := by
    rw [htext]
    have hinner : Written [.symbol (String.ofList ['g'])] ['g'] :=
      @Written.symbol [] ['g'] [] rfl (by simp [startsWithWord]) .nil
    have hcall : Written [.call [.symbol (String.ofList ['g'])]] ['(', 'g', ')'] :=
      @Written.call _ [] ['g'] [] (by simp) hinner .nil
    have hsymbol := @Written.symbol _ ['c'] _ rfl (by simp [startsWithWord]) hcall
    have htext := @Written.text _ ['a', ' ', ')'] _ (by decide) hsymbol
    exact ⟨by simp, _, rfl, @Written.symbol _ ['f'] _ rfl (fun _ => rfl) (.separator rfl htext)⟩
  have hgrammar := readCallAt_iff_callText s 2 (by omega) c 15
  have hread : readCallAt [] s 2 = .ok (c, 15) := by
    refine hgrammar.1.mpr ⟨by decide, by rw [hlen]; decide, items, rfl, fun items' => ?_⟩
    exact ⟨fun h => h.unique hitems, fun heq => heq ▸ hitems⟩
  exact ⟨by omega, hread, fun after => hgrammar.2 hread ['(', ' '] after rfl⟩

end MiniLisp

import Mathlib.Data.List.Infix
import MiniLisp.Proofs.Reading.Position

/-!
# Texts that end inside a call

A text may end while calls are still open. Between the bracket that opens the innermost of them and
the end stand complete items only (`ending_of_hasEmptyCall`). If there are any the reader reports
the first of them. If there are none, because the text ends behind an opening bracket, it has
nothing to report. Then there is no call, which is an error of another kind for the call around it
(`incomplete_call_reported`).
-/

namespace MiniLisp

/-! ## How items are shown -/

mutual

/-- The text of an item in a message; `bare` leaves a symbol unquoted. -/
def Item.shown (bare : Bool) : Item → String
  | .symbol name => if bare then name else quoteText name
  | .text content => markedText content
  | .call items => Item.shownCall items

/-- The texts of several items inside a call. -/
def Item.shownAll : List Item → List String
  | [] => []
  | item :: items => item.shown false :: Item.shownAll items

/-- The text of the call of some items. -/
def Item.shownCall : List Item → String
  | [] => callText "" []
  | head :: args => callText (head.shown true) (Item.shownAll args)

end

mutual

/-- What is read of an item can be shown. -/
theorem Item.write_toValue (bare : Bool) :
    ∀ item : Item, item.toValue.write bare = .ok (item.shown bare)
  | .symbol name => by rw [Item.toValue, Value.write, Item.shown]
  | .text content => by rw [Item.toValue, Value.write, Item.shown]
  | .call [] => by
    rw [Item.toValue, Value.write, Call.begin, Call.write, Item.toValues, Value.writeDeferred,
      Item.shown, Item.shownCall]
  | .call (head :: args) => by
    rw [Item.toValue, Value.write, Call.begin, Call.write, Item.toValues, Value.writeDeferred,
      Item.write_toValue true head, Item.writeAll_toValues args, Item.shown, Item.shownCall]

theorem Item.writeAll_toValues :
    ∀ items : List Item, Value.writeAll (Item.toValues items) = .ok (Item.shownAll items)
  | [] => by rw [Item.toValues, Value.writeAll, Item.shownAll]
  | item :: items => by
    rw [Item.toValues, Value.writeAll, Item.write_toValue false item, Item.writeAll_toValues items,
      Item.shownAll]

end

/-! ## Brackets of complete items -/

theorem ne_brackets_of_isBracket {c : Char} (h : isBracket c = false) : c ≠ '(' ∧ c ≠ ')' := by
  rw [isBracket, Bool.or_eq_false_iff, beq_eq_false_iff_ne, beq_eq_false_iff_ne] at h
  exact h

/-- Without quotes, complete items open and close equally many brackets. -/
theorem Written.count_brackets {items : List Item} {cs : List Char} (h : Written items cs)
    (hquote : '"' ∉ cs) : cs.count '(' = cs.count ')' := by
  induction h with
  | nil => rfl
  | separator hc h ih =>
    rw [List.mem_cons, not_or] at hquote
    obtain ⟨hopen, hclose⟩ := ne_brackets_of_isBracket (isBracket_of_isSeparator hc)
    rw [List.count_cons_of_ne hopen, List.count_cons_of_ne hclose, ih hquote.2]
  | @symbol items name cs hname hgap h ih =>
    rw [List.mem_append, not_or] at hquote
    have hnone : ∀ b, isBracket b = true → name.count b = 0 := by
      intro b hb
      refine List.count_eq_zero.mpr fun hmem => ?_
      have hd := isDelimiter_of_isSymbolText hname b hmem
      rw [isDelimiter, hb] at hd
      cases hd
    rw [List.count_append, List.count_append, hnone '(' rfl, hnone ')' rfl, ih hquote.2]
  | text _ _ _ => exact absurd List.mem_cons_self hquote
  | call _ _ _ ihinner ih =>
    simp only [List.mem_cons, List.mem_append, not_or] at hquote
    have hinner := ihinner hquote.2.1
    have hrest := ih hquote.2.2.2
    simp [List.count_append, hinner, hrest]
    omega

/-- Nothing but separators is written where there is no item. -/
theorem Written.eq_nil_iff {items : List Item} {cs : List Char} (h : Written items cs) :
    items = [] ↔ ∀ c ∈ cs, isSeparator c = true := by
  induction h with
  | nil => simp
  | separator hc _ ih => simp [hc, ih]
  | symbol hname _ _ _ =>
    obtain ⟨c, name, rfl⟩ := exists_cons_of_isSymbolText hname
    have hc : isSeparator c = false := (Bool.or_eq_false_iff.mp (isSymbolText_cons hname).1).2
    simp [hc]
  | text _ _ _ => simp [isSeparator]
  | call _ _ _ _ _ => simp [isSeparator]

/-! ## Reading to the end -/

/-- Whether a text has an empty call: a bracket that is closed again behind separators at most. -/
def hasEmptyCall : List Char → Bool
  | [] => false
  | c :: cs => c == '(' && (cs.dropWhile isSeparator).head? == some ')' || hasEmptyCall cs

theorem hasEmptyCall_of_cons {c : Char} {cs : List Char} (h : hasEmptyCall (c :: cs) = false) :
    hasEmptyCall cs = false := by
  rw [hasEmptyCall, Bool.or_eq_false_iff] at h
  exact h.2

theorem hasEmptyCall_of_append {before cs : List Char} (h : hasEmptyCall (before ++ cs) = false) :
    hasEmptyCall cs = false := by
  induction before with
  | nil => exact h
  | cons c before ih => exact ih (hasEmptyCall_of_cons h)

theorem hasEmptyCall_of_separators {gap k : List Char} (h : ∀ c ∈ gap, isSeparator c = true) :
    hasEmptyCall ('(' :: (gap ++ ')' :: k)) = true := by
  rw [hasEmptyCall, List.dropWhile_append_of_pos h]
  rfl

/-- How a text goes on behind the items `parts` of a call while nothing is bound: complete items and
a closing bracket come next, or it ends behind complete items, or it ends behind the complete items
of a call that is opened in it. In the latter two cases the innermost call is reported, in the last
one as an error inside another call. -/
inductive Ending (parts : List Value) (cs : List Char) : Prop where
  | closed {items : List Item} {text rest : List Char} (hcut : cs = text ++ ')' :: rest)
      (h : Written items text)
  | here {items : List Item} (h : Written items cs)
      (hread : readRest [] parts cs = .error (unterminated (parts ++ Item.toValues items)))
  | inside {items : List Item} {before tail : List Char} (hcut : cs = before ++ '(' :: tail)
      (h : Written items tail)
      (hread : readRest [] parts cs = .error (unterminated (Item.toValues items)).fromInside)

theorem Error.fromInside_fromInside (e : Error) : e.fromInside.fromInside = e.fromInside := by
  cases e <;> rfl

namespace Ending

variable {parts : List Value} {cs k : List Char}

/-- A separator changes nothing. -/
theorem separator {c : Char} (hc : isSeparator c = true) (h : Ending parts cs) :
    Ending parts (c :: cs) := by
  have hread : readRest [] parts (c :: cs) = readRest [] parts cs := readRest_separator hc
  cases h with
  | closed hcut h =>
    subst hcut
    exact .closed rfl (.separator hc h)
  | here h herror => exact .here (.separator hc h) (hread.trans herror)
  | @inside _ before _ hcut h herror =>
    subst hcut
    exact @inside _ _ _ (c :: before) _ rfl h (hread.trans herror)

/-- A symbol is one more item. -/
theorem symbol {name : List Char} (hname : isSymbolText name = true)
    (hk : ∀ d ∈ k.head?, isDelimiter d = true)
    (h : Ending (parts ++ [.symbol (String.ofList name)]) k) : Ending parts (name ++ k) := by
  have hread : readRest [] parts (name ++ k) = _ := readRest_symbol hname hk
  cases h with
  | closed hcut h =>
    subst hcut
    exact .closed (List.append_assoc ..).symm (.symbol hname (h.gap_of_delimits hk) h)
  | here h herror =>
    rw [← List.append_nil k] at hk
    refine .here (.symbol hname (h.gap_of_delimits hk) h) (hread.trans ?_)
    rw [herror, List.append_assoc]
    rfl
  | @inside _ before _ hcut h herror =>
    subst hcut
    exact @inside _ _ _ (name ++ before) _ (List.append_assoc ..).symm h (hread.trans herror)

/-- A call that is closed is one more item. -/
theorem call {inner : List Item} {text : List Char} (hne : inner ≠ []) (hinner : Written inner text)
    (h : Ending (parts ++ [.call (Item.toCall inner)]) k) :
    Ending parts ('(' :: (text ++ ')' :: k)) := by
  have hclose : Item.close [] [] inner = .ok (Item.toCall inner) :=
    CallText.close_nothing ⟨hne, text, rfl, hinner⟩
  have hread : readRest [] parts ('(' :: (text ++ ')' :: k)) =
      readRest [] (parts ++ [.call (Item.toCall inner)]) k := by
    rw [readRest_open, readRest_of_written hinner, hclose]
    rfl
  cases h with
  | @closed _ text' rest hcut h =>
    subst hcut
    exact @closed _ _ _ ('(' :: (text ++ ')' :: text')) rest (by simp) (.call hne hinner h)
  | here h herror =>
    refine .here (.call hne hinner h) (hread.trans ?_)
    rw [herror, List.append_assoc]
    rfl
  | @inside _ before _ hcut h herror =>
    subst hcut
    exact @inside _ _ _ ('(' :: (text ++ ')' :: before)) _ (by simp) h (hread.trans herror)

/-- A call that is opened is closed, or it is reported, or one inside it is. -/
theorem opened (hempty : hasEmptyCall ('(' :: cs) = false) (h : Ending [] cs)
    (hrest : ∀ c k, readRest [] [] cs = .ok (c, k) → Ending (parts ++ [.call c]) k) :
    Ending parts ('(' :: cs) := by
  have hread : ∀ e, readRest [] [] cs = .error e →
      readRest [] parts ('(' :: cs) = .error e.fromInside := by
    intro e herror
    rw [readRest_open, herror]
    rfl
  cases h with
  | @closed inner text k hcut h =>
    have hne : inner ≠ [] := by
      rintro rfl
      rw [hcut, hasEmptyCall_of_separators (h.eq_nil_iff.mp rfl)] at hempty
      cases hempty
    have hclose : Item.close [] [] inner = .ok (Item.toCall inner) :=
      CallText.close_nothing ⟨hne, text, rfl, h⟩
    have hinner : readRest [] [] cs = .ok (Item.toCall inner, k) := by
      rw [hcut, readRest_of_written h, hclose]
      rfl
    rw [hcut]
    exact .call hne h (hrest _ k hinner)
  | here h herror => exact @inside _ _ _ [] _ rfl h (hread _ herror)
  | @inside _ before _ hcut h herror =>
    refine @inside _ _ _ ('(' :: before) _ (by rw [hcut]; rfl) h ?_
    rw [hread _ herror, Error.fromInside_fromInside]

end Ending

/-- **Without quotes and empty calls every text goes on in one of these ways.** -/
theorem ending_of_hasEmptyCall {parts : List Value} {cs : List Char} (hquote : '"' ∉ cs)
    (hempty : hasEmptyCall cs = false) : Ending parts cs := by
  induction parts, cs using readRest_induction [] with
  | nil parts => exact .here .nil (by rw [readRest_nil, Item.toValues, List.append_nil])
  | call parts cs ihinner ih =>
    have hquote' : '"' ∉ cs := fun hmem => hquote (List.mem_cons_of_mem _ hmem)
    have hempty' := hasEmptyCall_of_cons hempty
    refine .opened hempty (ihinner hquote' hempty') fun c k hread => ?_
    -- what is left has no quotes and empty calls either
    obtain ⟨-, text, rfl, -⟩ := writtenUpTo_of_readRest hread
    rw [List.append_cons] at hquote' hempty'
    exact ih c k hread (fun hmem => hquote' (List.mem_append_right _ hmem))
      (hasEmptyCall_of_append hempty')
  | close parts cs => exact @Ending.closed _ _ [] [] cs rfl .nil
  | separator parts c cs hc ih =>
    exact .separator hc (ih (fun hmem => hquote (List.mem_cons_of_mem c hmem))
      (hasEmptyCall_of_cons hempty))
  | symbol parts name cs hname hcs ih =>
    exact .symbol hname hcs (ih (fun hmem => hquote (List.mem_append_right name hmem))
      (hasEmptyCall_of_append hempty))
  | text parts content cs _ _ => exact absurd List.mem_cons_self hquote
  | unclosed parts content _ => exact absurd List.mem_cons_self hquote

/-! ## The report -/

/-- The error that names an item, if there is one. -/
theorem unterminated_toValues {items : List Item} :
    (∀ item ∈ items.head?, unterminated (Item.toValues items) = .unterminated (item.shown true)) ∧
      (items = [] → unterminated (Item.toValues items) = .unfinished) := by
  cases items with
  | nil => simp [Item.toValues, unterminated]
  | cons item items =>
    have hshown : item.toValue.display = .ok (item.shown true) := Item.write_toValue true item
    simp [Item.toValues, unterminated, hshown]

theorem readCallAt_zero {globals : Scope} {s : String} {cs : List Char} {e : Error}
    (hs : s.toList = '(' :: cs) (h : readRest globals [] cs = .error e) :
    readCallAt globals s 0 = .error e := by
  have hfrom : textFrom ('(' :: cs) 0 = some ('(' :: cs) := by
    rw [textFrom, if_pos (Int.le_refl 0), if_pos (by simp)]
    rfl
  have hread : readCall globals ('(' :: cs) = .error e := h
  rw [readCallAt, hs, hfrom]
  dsimp only
  rw [hread]
  rfl

/-- If no bracket closes the call that a text opens, it ends in the complete items of a call that is
left open, and that one is reported, inside another call unless it is the outermost. -/
theorem exists_innermost {cs : List Char} (hquote : '"' ∉ cs)
    (hempty : hasEmptyCall ('(' :: cs) = false)
    (hleft : ∀ front, front <+: '(' :: cs → front ≠ [] → front.count ')' ≠ front.count '(') :
    ∃ before items tail, '(' :: cs = before ++ '(' :: tail ∧ Written items tail ∧
      (before = [] ∧ readRest [] [] cs = .error (unterminated (Item.toValues items)) ∨
        before ≠ [] ∧
          readRest [] [] cs = .error (unterminated (Item.toValues items)).fromInside) := by
  have hending : Ending [] cs := ending_of_hasEmptyCall hquote (hasEmptyCall_of_cons hempty)
  cases hending with
  | @closed items text rest hcut h =>
    -- up to the closing bracket there are as many brackets of either kind
    subst hcut
    have hfront : '(' :: (text ++ [')']) <+: '(' :: (text ++ ')' :: rest) := ⟨rest, by simp⟩
    have hcount := h.count_brackets fun hmem => hquote (List.mem_append_left _ hmem)
    refine absurd ?_ (hleft _ hfront (List.cons_ne_nil _ _))
    simp [hcount]
  | here h herror => exact ⟨[], _, cs, rfl, h, Or.inl ⟨rfl, herror⟩⟩
  | @inside items before tail hcut h herror =>
    exact ⟨'(' :: before, items, tail, by rw [hcut]; rfl, h,
      Or.inr ⟨List.cons_ne_nil _ _, herror⟩⟩

/-- **An incomplete call is reported by the first item of the innermost call that is left open.**
The text begins with a bracket, has neither quotes nor empty calls, and none of its beginnings
closes as many brackets as it opens. Then it ends in the complete items of a call that is not
closed. If there is an item the error names the first one. If there is none, because only separators
follow the bracket, nothing is reported: if the call is the outermost one there is no call, and if
it stands inside another one that call fails for want of it. -/
theorem incomplete_call_reported (s : String) (hopen : s.toList.head? = some '(')
    (hquote : '"' ∉ s.toList) (hempty : hasEmptyCall s.toList = false)
    (hleft : ∀ front, front <+: s.toList → front ≠ [] → front.count ')' ≠ front.count '(') :
    ∃ before items tail, s.toList = before ++ '(' :: tail ∧ Written items tail ∧
      (∀ item ∈ items.head?, readCallAt [] s 0 = .error (.unterminated (item.shown true))) ∧
      (items = [] ↔ ∀ c ∈ tail, isSeparator c = true) ∧
      (items = [] → before = [] → readCallAt [] s 0 = .error .unfinished) ∧
      (items = [] → before ≠ [] → readCallAt [] s 0 = .error .wrongType) := by
  obtain ⟨cs, hs⟩ := List.head?_eq_some_iff.mp hopen
  rw [hs] at hquote hempty hleft ⊢
  obtain ⟨before, items, tail, hcut, hitems, herror⟩ :=
    exists_innermost (fun hmem => hquote (List.mem_cons_of_mem _ hmem)) hempty hleft
  refine ⟨before, items, tail, hcut, hitems, fun item hitem => ?_, hitems.eq_nil_iff,
    fun hnil houter => ?_, fun hnil hinner => ?_⟩
  · rcases herror with ⟨-, herror⟩ | ⟨-, herror⟩
    · rw [readCallAt_zero hs herror, unterminated_toValues.1 item hitem]
    · rw [readCallAt_zero hs herror, unterminated_toValues.1 item hitem]
      rfl
  · rcases herror with ⟨-, herror⟩ | ⟨hinner, -⟩
    · rw [readCallAt_zero hs herror, unterminated_toValues.2 hnil]
    · exact absurd houter hinner
  · rcases herror with ⟨houter, -⟩ | ⟨-, herror⟩
    · exact absurd houter hinner
    · rw [readCallAt_zero hs herror, unterminated_toValues.2 hnil, Error.fromInside]

/-- The call of `g` is left open, and so is that of `f` around it. -/
theorem incomplete_call_reported_inner :
    "(f (g (h) 1".toList.head? = some '(' ∧ '"' ∉ "(f (g (h) 1".toList ∧
      hasEmptyCall "(f (g (h) 1".toList = false ∧
      (∀ front, front <+: "(f (g (h) 1".toList → front ≠ [] →
        front.count ')' ≠ front.count '(') ∧
      (∃ before items tail, "(f (g (h) 1".toList = before ++ '(' :: tail ∧ Written items tail ∧
        (∀ item ∈ items.head?,
          readCallAt [] "(f (g (h) 1" 0 = .error (.unterminated (item.shown true))) ∧
        (items = [] ↔ ∀ c ∈ tail, isSeparator c = true) ∧
        (items = [] → before = [] → readCallAt [] "(f (g (h) 1" 0 = .error .unfinished) ∧
        (items = [] → before ≠ [] → readCallAt [] "(f (g (h) 1" 0 = .error .wrongType)) ∧
      readCallAt [] "(f (g (h) 1" 0 = .error (.unterminated "g") := by
  have hopen : "(f (g (h) 1".toList.head? = some '(' := by decide +kernel
  have hquote : '"' ∉ "(f (g (h) 1".toList := by decide +kernel
  have hempty : hasEmptyCall "(f (g (h) 1".toList = false := by decide +kernel
  have hleft : ∀ front, front <+: "(f (g (h) 1".toList → front ≠ [] →
      front.count ')' ≠ front.count '(' := by
    have hall : ∀ front ∈ "(f (g (h) 1".toList.inits, front ≠ [] →
        front.count ')' ≠ front.count '(' := by decide +kernel
    exact fun front hfront => hall front ((List.mem_inits _ _).mpr hfront)
  have hread : readRest [] [] "f (g (h) 1".toList = .error (.unterminated "g") := by cbv
  exact ⟨hopen, hquote, hempty, hleft, incomplete_call_reported _ hopen hquote hempty hleft,
    readCallAt_zero rfl hread⟩

-- nothing can be named if the text ends behind an opening bracket
example : readCallAt [] "(" 0 = .error .unfinished := readCallAt_zero rfl (by cbv)

example : readCallAt [] "(f (" 0 = .error .wrongType := readCallAt_zero rfl (by cbv)

end MiniLisp

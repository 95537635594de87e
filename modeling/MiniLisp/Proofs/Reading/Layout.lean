import MiniLisp.Proofs.Reading.Grammar
import MiniLisp.Source

/-!
# Layout

Bringing a program text to its normal form changes the blanks between items and nothing else, as
long as no text between quotes holds what the normal form changes: brackets, and blanks other than
single spaces. Each of the two passes keeps the items that are written (`Written.squeeze`,
`Written.tighten`), and in the end the calls stand one right behind the other
(`Written.callTexts_tighten`). So the normal form is read, block after block, to the calls of the
text itself (`readsBlocks_normalise_iff`).
-/

namespace MiniLisp

open Source

/-! ## Items that the normal form keeps -/

/-- Whether the normal form keeps what stands between two quotes: there is no bracket, and no blank
but single spaces. -/
def isPlainText (content : List Char) : Prop :=
  (∀ c ∈ content, isBracket c = false) ∧ (∀ c ∈ content, isBlank c = true → c = ' ') ∧
    ¬ [' ', ' '] <:+: content

mutual

/-- The normal form keeps all texts in an item. -/
def Item.IsPlain : Item → Prop
  | .symbol _ => True
  | .text content => isPlainText content.toList
  | .call items => Item.ArePlain items

/-- The normal form keeps all texts in some items. -/
def Item.ArePlain : List Item → Prop
  | [] => True
  | item :: items => item.IsPlain ∧ Item.ArePlain items

end

/-- Whether an item is a call. -/
def Item.isCall : Item → Bool
  | .call _ => true
  | _ => false

/-! ## Comments -/

theorem dropComments_eq_self {cs : List Char} (h : '#' ∉ cs) : dropComments false cs = cs := by
  induction cs with
  | nil => rfl
  | cons c cs ih =>
    have hc : ¬ (c == '#') = true := by
      intro heq
      exact h (by simp [eq_of_beq heq])
    have hcs : '#' ∉ cs := fun hmem => h (List.mem_cons_of_mem c hmem)
    rw [dropComments, if_neg (by simp), if_neg hc, ih hcs]

/-! ## Runs of blanks -/

section Squeeze

variable {c : Char} {xs ys : List Char}

theorem squeezeBlanks_cons (hc : isBlank c = false) (after : Bool) :
    squeezeBlanks after (c :: ys) = c :: squeezeBlanks false ys := by
  rw [squeezeBlanks, if_neg (by simp [hc])]

/-- What stands before and behind a character that is no blank is squeezed apart. -/
theorem squeezeBlanks_append (hc : isBlank c = false) (after : Bool) :
    squeezeBlanks after (xs ++ c :: ys) =
      squeezeBlanks after xs ++ c :: squeezeBlanks false ys := by
  induction xs generalizing after with
  | nil => exact squeezeBlanks_cons hc after
  | cons x xs ih =>
    rw [List.cons_append, squeezeBlanks, squeezeBlanks]
    by_cases hx : isBlank x = true
    · rw [if_pos hx, if_pos hx]
      cases after with
      | true => exact ih true
      | false =>
        rw [if_neg (by simp), if_neg (by simp), ih true]
        rfl
    · rw [if_neg hx, if_neg hx, ih false]
      rfl

/-- Characters that are no blanks stay. -/
theorem squeezeBlanks_append_left (hne : xs ≠ []) (hxs : ∀ x ∈ xs, isBlank x = false)
    (after : Bool) : squeezeBlanks after (xs ++ ys) = xs ++ squeezeBlanks false ys := by
  induction xs generalizing after with
  | nil => exact absurd rfl hne
  | cons x xs ih =>
    rw [List.cons_append, squeezeBlanks_cons (hxs x List.mem_cons_self)]
    cases xs with
    | nil => rfl
    | cons y xs =>
      rw [ih (List.cons_ne_nil y xs) (fun z hz => hxs z (List.mem_cons_of_mem x hz))]
      rfl

/-- Single spaces stay. -/
theorem squeezeBlanks_eq_self (hblank : ∀ x ∈ xs, isBlank x = true → x = ' ')
    (hsingle : ¬ [' ', ' '] <:+: xs) : squeezeBlanks false xs = xs := by
  induction xs with
  | nil => rfl
  | cons x xs ih =>
    have hxs : squeezeBlanks false xs = xs := by
      refine ih (fun y hy => hblank y (List.mem_cons_of_mem x hy)) fun hinfix => hsingle ?_
      exact hinfix.trans (List.suffix_cons x xs).isInfix
    by_cases hx : isBlank x = true
    · have hspace : x = ' ' := hblank x List.mem_cons_self hx
      subst hspace
      -- behind a space comes no blank, so that it does not matter that a blank came before
      have hnext : squeezeBlanks true xs = squeezeBlanks false xs := by
        cases xs with
        | nil => rfl
        | cons y xs =>
          have hy : isBlank y = false := by
            rw [Bool.eq_false_iff]
            intro hy
            have hspace : y = ' ' := hblank y (by simp) hy
            subst hspace
            exact hsingle ⟨[], xs, rfl⟩
          rw [squeezeBlanks_cons hy, squeezeBlanks_cons hy]
      rw [squeezeBlanks, if_pos hx, if_neg (by simp), hnext, hxs]
    · rw [squeezeBlanks_cons (by simpa using hx), hxs]

theorem startsWithSeparator_squeezeBlanks (h : startsWithSeparator xs = true) :
    startsWithSeparator (squeezeBlanks false xs) = true := by
  cases xs with
  | nil => cases h
  | cons x xs =>
    rw [squeezeBlanks, if_pos (isBlank_of_isSeparator h), if_neg (by simp)]
    rfl

end Squeeze

/-- A symbol holds no blank if all blanks are separators. -/
theorem isBlank_of_isSymbolText {name : List Char} (hname : isSymbolText name = true)
    (hblank : ∀ c ∈ name, isBlank c = true → isSeparator c = true) :
    ∀ c ∈ name, isBlank c = false := by
  intro c hc
  rw [Bool.eq_false_iff]
  intro hblank'
  have hsep : isSeparator c = true := hblank c hc hblank'
  have hdelimiter := isDelimiter_of_isSymbolText hname c hc
  rw [isDelimiter_of_isSeparator hsep] at hdelimiter
  cases hdelimiter

/-- **Squeezing blanks keeps the items that are written.** -/
theorem Written.squeeze {items : List Item} {cs : List Char} (h : Written items cs)
    (hplain : Item.ArePlain items) (hblank : ∀ c ∈ cs, isBlank c = true → isSeparator c = true) :
    ∀ after, Written items (squeezeBlanks after cs) := by
  induction h with
  | nil =>
    intro after
    exact .nil
  | @separator items cs c hc h ih =>
    intro after
    have hcs : ∀ after, Written items (squeezeBlanks after cs) :=
      ih hplain fun d hd => hblank d (List.mem_cons_of_mem c hd)
    rw [squeezeBlanks, if_pos (isBlank_of_isSeparator hc)]
    cases after with
    | true => exact hcs true
    | false => exact .separator rfl (hcs true)
  | @symbol items name cs hname hgap h ih =>
    intro after
    rw [Item.ArePlain] at hplain
    have hcs := ih hplain.2 (fun d hd => hblank d (List.mem_append_right name hd)) false
    have hnoblank := isBlank_of_isSymbolText hname
      fun d hd => hblank d (List.mem_append_left cs hd)
    have hne : name ≠ [] := by
      rintro rfl
      cases hname
    rw [squeezeBlanks_append_left hne hnoblank]
    exact .symbol hname (fun hword => startsWithSeparator_squeezeBlanks (hgap hword)) hcs
  | @text items content cs hcontent h ih =>
    intro after
    rw [Item.ArePlain, Item.IsPlain, String.toList_ofList] at hplain
    obtain ⟨⟨-, hspaces, hsingle⟩, hrest⟩ := hplain
    have hcs := ih hrest (fun d hd => hblank d (by simp [hd])) false
    rw [squeezeBlanks_cons (by decide), squeezeBlanks_append (by decide),
      squeezeBlanks_eq_self hspaces hsingle]
    exact .text hcontent hcs
  | @call inner items text cs hne hinner h ihinner ih =>
    intro after
    rw [Item.ArePlain, Item.IsPlain] at hplain
    have htext := ihinner hplain.1 (fun d hd => hblank d (by simp [hd])) false
    have hcs := ih hplain.2 (fun d hd => hblank d (by simp [hd])) false
    rw [squeezeBlanks_cons (by decide), squeezeBlanks_append (by decide)]
    exact .call hne htext hcs

/-! ## Spaces next to brackets -/

section Tighten

variable {xs k : List Char}

/-- A bracket stays, and what stands behind it knows of it. -/
theorem tightenBrackets_bracket {c : Char} (hc : isBracket c = true) (after : Bool) :
    tightenBrackets after (c :: k) = c :: tightenBrackets true k := by
  have hspace : ¬ (c == ' ' && (after || startsWithBracket k)) = true := by
    intro h
    rw [eq_of_beq (Bool.and_eq_true_iff.mp h).1] at hc
    cases hc
  rw [tightenBrackets, if_neg hspace, hc]

theorem startsWithBracket_append (hxs : ∀ x ∈ xs, isBracket x = false)
    (hk : startsWithBracket k = false) : startsWithBracket (xs ++ k) = false := by
  cases xs with
  | nil => exact hk
  | cons x xs => exact hxs x List.mem_cons_self

/-- Where there is no bracket all stays. -/
theorem tightenBrackets_append (hxs : ∀ x ∈ xs, isBracket x = false)
    (hk : startsWithBracket k = false) :
    tightenBrackets false (xs ++ k) = xs ++ tightenBrackets false k := by
  induction xs with
  | nil => rfl
  | cons x xs ih =>
    have hrest : ∀ y ∈ xs, isBracket y = false := fun y hy => hxs y (List.mem_cons_of_mem x hy)
    have hnext : startsWithBracket (xs ++ k) = false := startsWithBracket_append hrest hk
    rw [List.cons_append, tightenBrackets, if_neg (by simp [hnext]), hxs x List.mem_cons_self,
      ih hrest]
    rfl

/-- Characters that are neither brackets nor spaces stay, whatever stands around them. -/
theorem tightenBrackets_word (hne : xs ≠ []) (hxs : ∀ x ∈ xs, isDelimiter x = false)
    (after : Bool) : tightenBrackets after (xs ++ k) = xs ++ tightenBrackets false k := by
  induction xs generalizing after with
  | nil => exact absurd rfl hne
  | cons x xs ih =>
    have hx : isDelimiter x = false := hxs x List.mem_cons_self
    have hspace : ¬ (x == ' ' && (after || startsWithBracket (xs ++ k))) = true := by
      intro h
      rw [eq_of_beq (Bool.and_eq_true_iff.mp h).1] at hx
      cases hx
    have hbracket : isBracket x = false := by
      rw [isDelimiter, Bool.or_eq_false_iff] at hx
      exact hx.1
    rw [List.cons_append, tightenBrackets, if_neg hspace, hbracket]
    cases xs with
    | nil => rfl
    | cons y xs =>
      rw [ih (List.cons_ne_nil y xs) fun z hz => hxs z (List.mem_cons_of_mem x hz)]
      rfl

end Tighten

/-- A symbol or a text does not begin with a bracket. -/
theorem Written.startsWithBracket_eq_false {items : List Item} {cs : List Char}
    (h : Written items cs) (hword : startsWithWord items = true) (k : List Char) :
    startsWithBracket (cs ++ k) = false := by
  cases h with
  | nil => cases hword
  | separator hc _ => exact isBracket_of_isSeparator hc
  | symbol hname _ _ =>
    obtain ⟨c, name, rfl⟩ := exists_cons_of_isSymbolText hname
    have hc : isDelimiter c = false := (isSymbolText_cons hname).1
    rw [isDelimiter, Bool.or_eq_false_iff] at hc
    exact hc.1
  | text _ _ => rfl
  | call _ _ _ => cases hword

/-- **Taking out spaces next to brackets keeps the items that are written**, in front of a bracket.
A separator in front of a symbol or a text stays, unless a bracket came before. -/
theorem Written.tighten {items : List Item} {cs : List Char} (h : Written items cs)
    (hplain : Item.ArePlain items) :
    ∀ after k, startsWithBracket k = true →
      ∃ text, tightenBrackets after (cs ++ k) = text ++ tightenBrackets false k ∧
        Written items text ∧
          (after = false → startsWithWord items = true → startsWithSeparator cs = true →
            startsWithSeparator text = true) := by
  induction h with
  | nil =>
    intro after k hk
    refine ⟨[], ?_, .nil, by simp [startsWithWord]⟩
    cases k with
    | nil => cases hk
    | cons c k =>
      rw [List.nil_append, List.nil_append, tightenBrackets_bracket hk, tightenBrackets_bracket hk]
  | @separator items cs c hc h ih =>
    intro after k hk
    obtain ⟨text, htext, hwritten, -⟩ := ih hplain false k hk
    have hbracket : isBracket c = false := isBracket_of_isSeparator hc
    rw [List.cons_append, tightenBrackets]
    by_cases hdrop : (c == ' ' && (after || startsWithBracket (cs ++ k))) = true
    · refine ⟨text, by rw [if_pos hdrop, htext], hwritten, ?_⟩
      intro hafter hword _
      rw [hafter, h.startsWithBracket_eq_false hword] at hdrop
      simp at hdrop
    · refine ⟨c :: text, ?_, .separator hc hwritten, fun _ _ _ => hc⟩
      rw [if_neg hdrop, hbracket, htext]
      rfl
  | @symbol items name cs hname hgap h ih =>
    intro after k hk
    rw [Item.ArePlain] at hplain
    obtain ⟨text, htext, hwritten, hkeeps⟩ := ih hplain.2 false k hk
    have hne : name ≠ [] := by
      rintro rfl
      cases hname
    refine ⟨name ++ text, ?_, .symbol hname (fun hword => hkeeps rfl hword (hgap hword)) hwritten,
      ?_⟩
    · rw [List.append_assoc, tightenBrackets_word hne (isDelimiter_of_isSymbolText hname), htext,
        List.append_assoc]
    · intro _ _ hsep
      obtain ⟨c, name, rfl⟩ := exists_cons_of_isSymbolText hname
      exact hsep
  | @text items content cs hcontent h ih =>
    intro after k hk
    rw [Item.ArePlain, Item.IsPlain, String.toList_ofList] at hplain
    obtain ⟨⟨hbrackets, -⟩, hrest⟩ := hplain
    obtain ⟨text, htext, hwritten, -⟩ := ih hrest false k hk
    refine ⟨'"' :: (content ++ '"' :: text), ?_, .text hcontent hwritten, fun _ _ hsep => hsep⟩
    -- the two quotes are words of one character, and between them there is no bracket
    have hquote : ∀ after k, tightenBrackets after ('"' :: k) = '"' :: tightenBrackets false k :=
      fun after k => tightenBrackets_word (List.cons_ne_nil '"' [])
        (List.forall_mem_singleton.mpr rfl) after
    rw [List.cons_append, List.append_assoc, List.cons_append, hquote,
      tightenBrackets_append hbrackets rfl, hquote, htext]
    simp
  | @call inner items text cs hne hinner h ihinner ih =>
    intro after k hk
    rw [Item.ArePlain, Item.IsPlain] at hplain
    obtain ⟨inner', hinner', hwritten', -⟩ := ihinner hplain.1 true (')' :: (cs ++ k)) rfl
    obtain ⟨text', htext', hwritten, -⟩ := ih hplain.2 true k hk
    refine ⟨'(' :: (inner' ++ ')' :: text'), ?_, .call hne hwritten' hwritten,
      fun _ hword => by cases hword⟩
    rw [List.cons_append, List.append_assoc, List.cons_append,
      tightenBrackets_bracket rfl, hinner', tightenBrackets_bracket rfl, htext']
    simp

/-! ## Texts of calls -/

/-- The texts of some calls one behind the other, with characters that `skip` holds of between
them. -/
inductive CallTexts (skip : Char → Bool) : List Item → List Char → Prop where
  | nil : CallTexts skip [] []
  | skip {items : List Item} {cs : List Char} {c : Char} (hc : skip c = true)
      (h : CallTexts skip items cs) : CallTexts skip items (c :: cs)
  | cons {inner items : List Item} {text cs : List Char} (htext : CallText inner text)
      (h : CallTexts skip items cs) : CallTexts skip (.call inner :: items) (text ++ cs)

/-- Calls that are written are texts of calls with separators between them. -/
theorem Written.callTexts {items : List Item} {cs : List Char} (h : Written items cs)
    (hcalls : ∀ item ∈ items, item.isCall = true) : CallTexts isSeparator items cs := by
  induction h with
  | nil => exact .nil
  | separator hc _ ih => exact .skip hc (ih hcalls)
  | symbol _ _ _ _ => cases hcalls _ List.mem_cons_self
  | text _ _ _ => cases hcalls _ List.mem_cons_self
  | @call inner items text cs hne hinner h _ ih =>
    have hitems : CallTexts isSeparator items cs :=
      ih fun item hitem => hcalls item (List.mem_cons_of_mem _ hitem)
    have hcut : '(' :: (text ++ ')' :: cs) = '(' :: (text ++ [')']) ++ cs := by simp
    rw [hcut]
    exact .cons ⟨hne, text, rfl, hinner⟩ hitems

/-- Squeezing blanks behind a blank leaves nothing of calls, if there are none, or the bracket of
the first one. -/
theorem Written.squeezeBlanks_calls {items : List Item} {cs : List Char} (h : Written items cs)
    (hcalls : ∀ item ∈ items, item.isCall = true) :
    (items = [] ∧ squeezeBlanks true cs = []) ∨ ∃ k, squeezeBlanks true cs = '(' :: k := by
  induction h with
  | nil => exact Or.inl ⟨rfl, rfl⟩
  | separator hc _ ih =>
    rw [squeezeBlanks, if_pos (isBlank_of_isSeparator hc), if_pos rfl]
    exact ih hcalls
  | symbol _ _ _ _ => cases hcalls _ List.mem_cons_self
  | text _ _ _ => cases hcalls _ List.mem_cons_self
  | call _ _ _ _ _ =>
    rw [squeezeBlanks_cons (by decide)]
    exact Or.inr ⟨_, rfl⟩

/-- **In the normal form calls stand one right behind the other.** There has to be a bracket before
the text or in it, so that no space is left over. -/
theorem Written.callTexts_tighten {items : List Item} {cs : List Char} (h : Written items cs)
    (hcalls : ∀ item ∈ items, item.isCall = true) (hplain : Item.ArePlain items)
    (hblank : ∀ c ∈ cs, isBlank c = true → isSeparator c = true) :
    ∀ after blank, (after = true ∨ items ≠ []) →
      CallTexts (fun _ => false) items (tightenBrackets after (squeezeBlanks blank cs)) := by
  induction h with
  | nil =>
    intro after blank _
    exact .nil
  | @separator items cs c hc h ih =>
    intro after blank hafter
    have hrest := ih hcalls hplain fun d hd => hblank d (List.mem_cons_of_mem c hd)
    rw [squeezeBlanks, if_pos (isBlank_of_isSeparator hc)]
    cases blank with
    | true => exact hrest after true hafter
    | false =>
      rw [if_neg (by simp), tightenBrackets]
      -- the space goes: a bracket stands before it or behind it
      rcases h.squeezeBlanks_calls hcalls with ⟨rfl, hnone⟩ | ⟨k, hk⟩
      · obtain rfl : after = true := hafter.resolve_right fun hne => hne rfl
        rw [hnone]
        exact .nil
      · have hrest' := hrest true true (Or.inl rfl)
        rw [hk, tightenBrackets_bracket rfl] at hrest'
        rw [hk, if_pos (by simp [startsWithBracket, isBracket]), tightenBrackets_bracket rfl]
        exact hrest'
  | symbol _ _ _ _ => cases hcalls _ List.mem_cons_self
  | text _ _ _ => cases hcalls _ List.mem_cons_self
  | @call inner items text cs hne hinner h _ ih =>
    intro after blank _
    rw [Item.ArePlain, Item.IsPlain] at hplain
    have hsqueezed : Written inner (squeezeBlanks false text) :=
      hinner.squeeze hplain.1 (fun d hd => hblank d (by simp [hd])) false
    obtain ⟨text', htext', hwritten, -⟩ :=
      hsqueezed.tighten hplain.1 true (')' :: squeezeBlanks false cs) rfl
    have hitems := ih (fun item hitem => hcalls item (List.mem_cons_of_mem _ hitem)) hplain.2
      (fun d hd => hblank d (by simp [hd])) true false (Or.inl rfl)
    have hcut : '(' :: (text' ++ ')' :: tightenBrackets true (squeezeBlanks false cs)) =
        '(' :: (text' ++ [')']) ++ tightenBrackets true (squeezeBlanks false cs) := by simp
    rw [squeezeBlanks_cons (by decide), squeezeBlanks_append (by decide),
      tightenBrackets_bracket rfl, htext', tightenBrackets_bracket rfl, hcut]
    exact .cons ⟨hne, text', rfl, hwritten⟩ hitems

/-! ## Reading call after call -/

/-- Reading a text to its end, call after call, with characters that `skip` holds of skipped in
front of calls and at the end. -/
inductive ReadsCalls (globals : Scope) (skip : Char → Bool) : List Char → List Call → Prop where
  | nil : ReadsCalls globals skip [] []
  | skip {cs : List Char} {calls : List Call} {c : Char} (hc : skip c = true)
      (h : ReadsCalls globals skip cs calls) : ReadsCalls globals skip (c :: cs) calls
  | cons {cs rest : List Char} {c : Call} {calls : List Call}
      (hc : readCall globals cs = .ok (c, rest)) (h : ReadsCalls globals skip rest calls) :
      ReadsCalls globals skip cs (c :: calls)

/-- Reading a text block after block, each block where the one before ended. -/
def ReadsBlocks (globals : Scope) : List Char → List Call → Prop :=
  ReadsCalls globals fun _ => false

section ReadsCalls

variable {globals : Scope} {skip : Char → Bool} {calls : List Call}

theorem readsCalls_nil : ReadsCalls globals skip [] calls ↔ calls = [] := by
  constructor
  · intro h
    cases h with
    | nil => rfl
    | cons hc _ => cases hc
  · rintro rfl
    exact .nil

theorem readsCalls_skip {c : Char} {cs : List Char} (hskip : skip '(' = false)
    (hc : skip c = true) : ReadsCalls globals skip (c :: cs) calls ↔
      ReadsCalls globals skip cs calls := by
  constructor
  · intro h
    cases h with
    | skip _ h => exact h
    | cons hread _ =>
      obtain ⟨_, _, hcut, ⟨-, _, rfl, -⟩, -⟩ := readCall_eq_ok_iff.mp hread
      rw [(List.cons.inj hcut).1, hskip] at hc
      cases hc
  · exact .skip hc

theorem readsCalls_append {inner : List Item} {text cs : List Char} (hskip : skip '(' = false)
    (htext : CallText inner text) :
    ReadsCalls globals skip (text ++ cs) calls ↔
      ∃ c rest, calls = c :: rest ∧ Item.close globals [] inner = .ok c ∧
        ReadsCalls globals skip cs rest := by
  have hread := htext.readCall_append globals cs
  constructor
  · intro h
    obtain ⟨-, body, rfl, -⟩ := htext
    cases h with
    | skip hc _ =>
      rw [hskip] at hc
      cases hc
    | @cons _ rest c calls hc h =>
      obtain ⟨_, hclose, heq⟩ := map_eq_ok_iff.mp (hread.symm.trans hc)
      cases heq
      exact ⟨c, calls, rfl, hclose, h⟩
  · rintro ⟨c, rest, rfl, hclose, h⟩
    rw [hclose] at hread
    exact .cons hread h

theorem buildAll_call_eq_ok_iff {inner items : List Item} :
    Item.buildAll globals (.call inner :: items) = .ok (calls.map Value.call) ↔
      ∃ c rest, calls = c :: rest ∧ Item.close globals [] inner = .ok c ∧
        Item.buildAll globals items = .ok (rest.map Value.call) := by
  rw [Item.buildAll, Item.build_call]
  constructor
  · intro h
    obtain ⟨v, hv, hvs⟩ := bind_eq_ok_iff.mp h
    obtain ⟨c, hc, rfl⟩ := map_eq_ok_iff.mp hv
    obtain ⟨vs, hbuild, hcons⟩ := map_eq_ok_iff.mp hvs
    cases calls with
    | nil => cases hcons
    | cons d rest =>
      rw [List.map_cons, List.cons.injEq, Value.call.injEq] at hcons
      obtain ⟨rfl, rfl⟩ := hcons
      exact ⟨d, rest, rfl, hc, hbuild⟩
  · rintro ⟨c, rest, rfl, hc, hbuild⟩
    rw [hc, hbuild]
    rfl

/-- **The calls that are read are those whose texts stand there.** -/
theorem CallTexts.readsCalls_iff {items : List Item} {cs : List Char}
    (h : CallTexts skip items cs) (hskip : skip '(' = false) :
    ReadsCalls globals skip cs calls ↔
      Item.buildAll globals items = .ok (calls.map Value.call) := by
  induction h generalizing calls with
  | nil =>
    rw [readsCalls_nil, Item.buildAll, Except.ok.injEq, eq_comm (a := []), List.map_eq_nil_iff]
  | skip hc _ ih => rw [readsCalls_skip hskip hc, ih]
  | cons htext _ ih =>
    rw [readsCalls_append hskip htext, buildAll_call_eq_ok_iff]
    simp only [ih]

end ReadsCalls

/-- **Normalising does not change what is read.** A text is given that consists of calls with
separators around them. There are no comments, no blanks but separators, and the texts between
quotes are such as the normal form keeps. Then reading the normal form block after block, from its
beginning to its end, gives the calls that are read from the text itself. -/
theorem readsBlocks_normalise_iff {globals : Scope} {items : List Item} {cs : List Char}
    (h : Written items cs) (hne : items ≠ []) (hcalls : ∀ item ∈ items, item.isCall = true)
    (hplain : Item.ArePlain items) (hcomment : '#' ∉ cs)
    (hblank : ∀ c ∈ cs, isBlank c = true → isSeparator c = true) (calls : List Call) :
    ReadsBlocks globals (normalise cs) calls ↔ ReadsCalls globals isSeparator cs calls := by
  have hnormal : CallTexts (fun _ => false) items (normalise cs) := by
    rw [normalise, dropComments_eq_self hcomment]
    exact h.callTexts_tighten hcalls hplain hblank false false (Or.inr hne)
  rw [ReadsBlocks, hnormal.readsCalls_iff rfl, (h.callTexts hcalls).readsCalls_iff rfl]

/-- Two calls with blanks of several sorts around their items, and a text that holds spaces: the
normal form keeps the spaces of the text, and is read to the same calls. -/
theorem readsBlocks_normalise_iff_two :
    let cs : List Char := ['\t', '(', ' ', 'f', '\n', '"', ' ', 'a', ' ', '"', ' ', ' ', 'c', ' ',
      ')', '\n', ' ', '(', 'g', ' ', ')', ' ']
    let calls : List Call := [.defer (.symbol (String.ofList ['f']))
        [.text (String.ofList [' ', 'a', ' ']), .symbol (String.ofList ['c'])],
      .defer (.symbol (String.ofList ['g'])) []]
    normalise cs = ['(', 'f', ' ', '"', ' ', 'a', ' ', '"', ' ', 'c', ')', '(', 'g', ')'] ∧
      ReadsCalls [] isSeparator cs calls ∧ ReadsBlocks [] (normalise cs) calls := by
  intro cs calls
  let items : List Item := [.call [.symbol (String.ofList ['f']),
      .text (String.ofList [' ', 'a', ' ']), .symbol (String.ofList ['c'])],
    .call [.symbol (String.ofList ['g'])]]
  have hcalls : ∀ item ∈ items, item.isCall = true := by simp [items, Item.isCall]
  have hwritten : Written items cs := by
    have hg : Written [.symbol (String.ofList ['g'])] ['g', ' '] :=
      @Written.symbol [] ['g'] [' '] rfl (by simp [startsWithWord]) (.separator rfl .nil)
    have hc : Written [.symbol (String.ofList ['c'])] [' ', ' ', 'c', ' '] :=
      .separator rfl (.separator rfl
        (@Written.symbol [] ['c'] [' '] rfl (by simp [startsWithWord]) (.separator rfl .nil)))
    have ha := @Written.text _ [' ', 'a', ' '] _ (by decide) hc
    have hf := @Written.symbol _ ['f'] _ rfl (fun _ => rfl) (.separator (c := '\n') rfl ha)
    exact .separator rfl (.call (by simp) (.separator (c := ' ') rfl hf) (.separator rfl
      (.separator rfl (.call (by simp) hg (.separator rfl .nil)))))
  have hplain : Item.ArePlain items := by
    have htext : isPlainText [' ', 'a', ' '] := by
      refine ⟨by simp [isBracket], ?_, by decide⟩
      intro c hc hblank
      have hne : c ≠ 'a' := by
        rintro rfl
        cases hblank
      simpa [hne] using hc
    simp [items, Item.ArePlain, Item.IsPlain, htext]
  have hblank : ∀ c ∈ cs, isBlank c = true → isSeparator c = true := by
    have hall : cs.all (fun c => !isBlank c || isSeparator c) = true := rfl
    intro c hc hblank
    have hsep := List.all_eq_true.mp hall c hc
    rw [hblank] at hsep
    exact hsep
  have hreads : ReadsCalls [] isSeparator cs calls :=
    ((hwritten.callTexts hcalls).readsCalls_iff rfl).mpr rfl
  refine ⟨by decide, hreads, ?_⟩
  exact (readsBlocks_normalise_iff hwritten (by simp [items]) hcalls hplain (by decide) hblank
    calls).mpr hreads

end MiniLisp

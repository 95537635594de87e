import MiniLisp.Proofs.Calls

/-!
# The grammar of calls

A call is written as an opening bracket, one or more items and a closing bracket. An item is a
symbol, a text between double quotes, or a call. Separators may stand anywhere between items, and
one must stand between a symbol and a symbol or a text that follows it.

`Written` is this grammar. The reader accepts exactly what it derives: what is written is read to
the call of its items, whatever comes behind it (`readRest_of_written`), and what is read is written
(`writtenUpTo_of_readRest`). `readCall_eq_ok_iff` puts the two together.
-/

namespace MiniLisp

/-! ## Items -/

/-- An item of a call as it is written. -/
inductive Item where
  | symbol (name : String)
  | text (content : String)
  | call (items : List Item)

/-- Whether characters can be a symbol: there is at least one, none of them ends a symbol, and the
first does not begin a text. -/
def isSymbolText (cs : List Char) : Bool :=
  !cs.isEmpty && cs.all (!isDelimiter ·) && cs.head? != some '"'

/-- Whether the first of some items is a symbol or a text. -/
def startsWithWord : List Item → Bool
  | .symbol _ :: _ => true
  | .text _ :: _ => true
  | _ => false

/-- Whether a text begins with a separator. -/
def startsWithSeparator : List Char → Bool
  | [] => false
  | c :: _ => isSeparator c

/-- Items are written one after the other, with separators around them. A separator must follow a
symbol if a symbol or a text comes next. -/
inductive Written : List Item → List Char → Prop where
  | nil : Written [] []
  | separator {items : List Item} {cs : List Char} {c : Char} (hc : isSeparator c = true)
      (h : Written items cs) : Written items (c :: cs)
  | symbol {items : List Item} {name cs : List Char} (hname : isSymbolText name = true)
      (hgap : startsWithWord items = true → startsWithSeparator cs = true)
      (h : Written items cs) : Written (.symbol (String.ofList name) :: items) (name ++ cs)
  | text {items : List Item} {content cs : List Char} (hcontent : '"' ∉ content)
      (h : Written items cs) :
      Written (.text (String.ofList content) :: items) ('"' :: (content ++ '"' :: cs))
  | call {inner items : List Item} {text cs : List Char} (hne : inner ≠ [])
      (hinner : Written inner text) (h : Written items cs) :
      Written (.call inner :: items) ('(' :: (text ++ ')' :: cs))

/-- The text of the call with some items. -/
def CallText (items : List Item) (cs : List Char) : Prop :=
  items ≠ [] ∧ ∃ text, cs = '(' :: (text ++ [')']) ∧ Written items text

/-! ## Characters -/

theorem isDelimiter_of_isSeparator {c : Char} (h : isSeparator c = true) :
    isDelimiter c = true := by
  rw [isDelimiter, h, Bool.or_true]

theorem isBracket_of_isSeparator {c : Char} (h : isSeparator c = true) : isBracket c = false := by
  rw [Bool.eq_false_iff]
  intro hbracket
  rw [isBracket, Bool.or_eq_true, beq_iff_eq, beq_iff_eq] at hbracket
  rcases hbracket with rfl | rfl
  · cases h
  · cases h

/-- No character of a symbol ends it. -/
theorem isDelimiter_of_isSymbolText {name : List Char} (h : isSymbolText name = true) :
    ∀ c ∈ name, isDelimiter c = false := by
  rw [isSymbolText, Bool.and_eq_true, Bool.and_eq_true, List.all_eq_true] at h
  intro c hc
  simpa using h.1.2 c hc

/-- A symbol starts with neither a delimiter nor a quotation mark. -/
theorem isSymbolText_cons {c : Char} {cs : List Char} (h : isSymbolText (c :: cs) = true) :
    isDelimiter c = false ∧ c ≠ '"' := by
  refine ⟨isDelimiter_of_isSymbolText h c List.mem_cons_self, ?_⟩
  rw [isSymbolText, Bool.and_eq_true] at h
  simpa using h.2

theorem exists_cons_of_isSymbolText {name : List Char} (h : isSymbolText name = true) :
    ∃ c cs, name = c :: cs := by
  cases name with
  | nil => cases h
  | cons c cs => exact ⟨c, cs, rfl⟩

/-- What follows a symbol in a call ends it: a separator or a bracket. -/
theorem Written.delimits {items : List Item} {cs rest : List Char} (h : Written items cs)
    (hgap : startsWithWord items = true → startsWithSeparator cs = true) :
    ∀ d ∈ (cs ++ ')' :: rest).head?, isDelimiter d = true := by
  intro d hd
  cases h with
  | nil =>
    cases hd
    rfl
  | separator hc h =>
    cases hd
    exact isDelimiter_of_isSeparator hc
  | symbol hname _ h =>
    obtain ⟨c, name, rfl⟩ := exists_cons_of_isSymbolText hname
    cases hd
    exact isDelimiter_of_isSeparator (hgap rfl)
  | text _ h =>
    cases hd
    exact isDelimiter_of_isSeparator (hgap rfl)
  | call _ _ h =>
    cases hd
    rfl

/-- A symbol or a text that comes behind a delimiter comes behind a separator. -/
theorem Written.gap {items : List Item} {d : Char} {cs : List Char} (h : Written items (d :: cs))
    (hd : isDelimiter d = true) (hword : startsWithWord items = true) : isSeparator d = true := by
  generalize htext : d :: cs = text at h
  cases h with
  | nil => cases htext
  | separator hc h =>
    cases htext
    exact hc
  | symbol hname _ h =>
    obtain ⟨c, name, rfl⟩ := exists_cons_of_isSymbolText hname
    cases htext
    rw [(isSymbolText_cons hname).1] at hd
    cases hd
  | text _ h =>
    cases htext
    cases hd
  | call _ _ h => cases hword

/-- A symbol or a text that comes next where a symbol has ended comes behind a separator. -/
theorem Written.gap_of_delimits {items : List Item} {cs k : List Char} (h : Written items cs)
    (hcs : ∀ d ∈ (cs ++ k).head?, isDelimiter d = true) (hword : startsWithWord items = true) :
    startsWithSeparator cs = true := by
  cases cs with
  | nil =>
    generalize hnil : ([] : List Char) = cs at h
    cases h with
    | nil => cases hword
    | symbol hname _ _ =>
      obtain ⟨d, name, rfl⟩ := exists_cons_of_isSymbolText hname
      cases hnil
    | _ => cases hnil
  | cons d cs => exact h.gap (hcs d rfl) hword

/-! ## Reading tokens -/

/-- The longest front of a text that has a property ends where the property does. -/
theorem takeWhile_append_eq {p : Char → Bool} {xs ys : List Char} (hxs : ∀ x ∈ xs, p x = true)
    (hys : ∀ y ∈ ys.head?, p y = false) : (xs ++ ys).takeWhile p = xs := by
  rw [List.takeWhile_append_of_pos hxs]
  cases ys with
  | nil => rw [List.takeWhile_nil, List.append_nil]
  | cons y ys =>
    have hy : p y = false := hys y rfl
    rw [List.takeWhile_cons_of_neg (by simp [hy]), List.append_nil]

/-- A symbol is read up to the delimiter behind it. -/
theorem Token.read_symbol {name k : List Char} (hname : isSymbolText name = true)
    (hk : ∀ d ∈ k.head?, isDelimiter d = true) :
    Token.read (name ++ k) = ⟨.symbol (String.ofList name), name.length⟩ := by
  have hall : ∀ c ∈ name, (!isDelimiter c) = true := by
    intro c hc
    rw [isDelimiter_of_isSymbolText hname c hc]
    rfl
  have htake : (name ++ k).takeWhile (!isDelimiter ·) = name :=
    takeWhile_append_eq hall fun d hd => by simp [hk d hd]
  obtain ⟨c, cs, rfl⟩ := exists_cons_of_isSymbolText hname
  have hquote : c ≠ '"' := (isSymbolText_cons hname).2
  unfold Token.read
  split
  · rename_i heq
    exact absurd (List.cons.inj heq).1 hquote
  · rw [htake]

/-- A text ends with the next double quote, or with all that is left. -/
theorem Token.read_text {content k : List Char} (hcontent : '"' ∉ content)
    (hk : ∀ d ∈ k.head?, d = '"') :
    Token.read ('"' :: (content ++ k)) = ⟨.text (String.ofList content), content.length + 2⟩ := by
  have hall : ∀ c ∈ content, (c != '"') = true := by
    intro c hc
    exact bne_iff_ne.mpr fun heq => hcontent (heq ▸ hc)
  have htake : (content ++ k).takeWhile (· != '"') = content :=
    takeWhile_append_eq hall fun d hd => by simp [hk d hd]
  rw [Token.read, htake]

theorem drop_text (content k : List Char) :
    ('"' :: (content ++ '"' :: k)).drop (content.length + 2) = k := by
  rw [List.drop_succ_cons, List.append_cons]
  exact List.drop_left' (by simp)

/-! ## Reading items -/

/-- What is read behind the items `parts` of a call: the call, and the text behind it. -/
def readRest (globals : Scope) (parts : List Value) (cs : List Char) :
    Except Error (Call × List Char) :=
  (readItems globals parts cs).map fun r => (r.1, r.2.1)

section Equations

variable {globals : Scope} {parts : List Value} {c : Char} {cs : List Char}

theorem readRest_nil : readRest globals parts [] = .error (unterminated parts) := by
  rw [readRest, readItems]
  rfl

/-- An opening bracket starts a call that becomes one part. -/
theorem readRest_open :
    readRest globals parts ('(' :: cs) =
      ((readRest globals [] cs).mapError Error.fromInside).bind fun r =>
        readRest globals (parts ++ [.call r.1]) r.2 := by
  rw [readRest, readItems, readRest]
  simp only [beq_self_eq_true, if_true]
  cases readItems globals [] cs with
  | error e => rfl
  | ok r =>
    obtain ⟨inner, rest⟩ := r
    show _ = readRest globals (parts ++ [.call inner]) rest.1
    rw [readRest]
    dsimp only
    cases readItems globals (parts ++ [.call inner]) rest.1 <;> rfl

/-- A closing bracket makes a call of the parts read so far. -/
theorem readRest_close :
    readRest globals parts (')' :: cs) = (closeCall globals parts).map fun call => (call, cs) := by
  rw [readRest, readItems]
  rw [if_neg (by decide), if_pos (by decide)]
  cases closeCall globals parts <;> rfl

theorem readRest_separator (hc : isSeparator c = true) :
    readRest globals parts (c :: cs) = readRest globals parts cs := by
  have hopen : ¬ (c == '(') = true := by
    intro h
    rw [eq_of_beq h] at hc
    cases hc
  have hclose : ¬ (c == ')') = true := by
    intro h
    rw [eq_of_beq h] at hc
    cases hc
  rw [readRest, readItems, if_neg hopen, if_neg hclose, if_pos hc, readRest]
  cases readItems globals parts cs <;> rfl

/-- Anything else is a token. -/
theorem readRest_token (hc : isDelimiter c = false) :
    readRest globals parts (c :: cs) =
      readRest globals (parts ++ [(Token.read (c :: cs)).value])
        ((c :: cs).drop (Token.read (c :: cs)).width) := by
  have hwidth : (c :: cs).drop (Token.read (c :: cs)).width =
      cs.drop ((Token.read (c :: cs)).width - 1) := by
    have hpos : 0 < (Token.read (c :: cs)).width := Token.read_width_pos hc
    obtain ⟨n, hn⟩ : ∃ n, (Token.read (c :: cs)).width = n + 1 :=
      ⟨_, (Nat.sub_add_cancel hpos).symm⟩
    rw [hn, List.drop_succ_cons, Nat.add_sub_cancel]
  simp only [isDelimiter, isBracket, Bool.or_eq_false_iff] at hc
  obtain ⟨⟨hopen, hclose⟩, hsep⟩ := hc
  rw [hwidth, readRest, readItems, if_neg (by simp [hopen]), if_neg (by simp [hclose]),
    if_neg (by simp [hsep]), readRest]
  dsimp only
  cases readItems globals (parts ++ [(Token.read (c :: cs)).value])
    (cs.drop ((Token.read (c :: cs)).width - 1)) <;> rfl

/-- A symbol with a delimiter behind it becomes one part. -/
theorem readRest_symbol {name k : List Char} (hname : isSymbolText name = true)
    (hk : ∀ d ∈ k.head?, isDelimiter d = true) :
    readRest globals parts (name ++ k) =
      readRest globals (parts ++ [.symbol (String.ofList name)]) k := by
  have htoken := Token.read_symbol hname hk
  obtain ⟨c, name, rfl⟩ := exists_cons_of_isSymbolText hname
  rw [List.cons_append, readRest_token (isSymbolText_cons hname).1, ← List.cons_append, htoken]
  dsimp only
  rw [List.drop_left]

/-- A text between quotation marks becomes one part. -/
theorem readRest_text {content : List Char} (hcontent : '"' ∉ content) (k : List Char) :
    readRest globals parts ('"' :: (content ++ '"' :: k)) =
      readRest globals (parts ++ [.text (String.ofList content)]) k := by
  have htoken : Token.read ('"' :: (content ++ '"' :: k)) = _ :=
    Token.read_text hcontent fun d hd => (Option.some.inj hd).symm
  rw [readRest_token (by decide), htoken]
  dsimp only
  rw [drop_text]

/-- A text that is not closed takes all that is left. -/
theorem readRest_unclosed {content : List Char} (hcontent : '"' ∉ content) :
    readRest globals parts ('"' :: content) =
      .error (unterminated (parts ++ [.text (String.ofList content)])) := by
  have htoken := Token.read_text (k := []) hcontent (by simp)
  rw [List.append_nil] at htoken
  rw [readRest_token (by decide), htoken, List.drop_of_length_le (by simp), readRest_nil]

/-- A character that neither ends a symbol nor begins a text begins a symbol. -/
theorem exists_symbol {c : Char} {cs : List Char} (hc : isDelimiter c = false) (hq : c ≠ '"') :
    ∃ name k, c :: cs = name ++ k ∧ isSymbolText name = true ∧
      ∀ d ∈ k.head?, isDelimiter d = true := by
  refine ⟨c :: cs.takeWhile (!isDelimiter ·), cs.dropWhile (!isDelimiter ·), ?_, ?_, ?_⟩
  · rw [List.cons_append, List.takeWhile_append_dropWhile]
  · have hall := List.all_takeWhile (p := (!isDelimiter ·)) (l := cs)
    simp [isSymbolText, hc, hq, hall]
  · intro d hd
    have hhead := List.head?_dropWhile_not (!isDelimiter ·) cs
    rw [hd] at hhead
    simpa using hhead

/-- A call that was read took some of the text. -/
theorem length_lt_of_readRest {rest : List Char} {call : Call}
    (h : readRest globals parts cs = .ok (call, rest)) : rest.length < cs.length := by
  obtain ⟨⟨_, k⟩, -, hk⟩ := map_eq_ok_iff.mp h
  cases hk
  exact k.2

end Equations

/-- **Induction along the reader.** Each item is read before those behind it, and the items of a
call before the rest of the call around it. -/
@[elab_as_elim]
theorem readRest_induction (globals : Scope) {motive : List Value → List Char → Prop}
    (nil : ∀ parts, motive parts [])
    (call : ∀ parts cs, motive [] cs →
      (∀ c rest, readRest globals [] cs = .ok (c, rest) → motive (parts ++ [.call c]) rest) →
        motive parts ('(' :: cs))
    (close : ∀ parts cs, motive parts (')' :: cs))
    (separator : ∀ parts c cs, isSeparator c = true → motive parts cs → motive parts (c :: cs))
    (symbol : ∀ parts name cs, isSymbolText name = true →
      (∀ d ∈ cs.head?, isDelimiter d = true) →
        motive (parts ++ [.symbol (String.ofList name)]) cs → motive parts (name ++ cs))
    (text : ∀ parts content cs, '"' ∉ content →
      motive (parts ++ [.text (String.ofList content)]) cs →
        motive parts ('"' :: (content ++ '"' :: cs)))
    (unclosed : ∀ parts content, '"' ∉ content → motive parts ('"' :: content))
    (parts : List Value) (cs : List Char) : motive parts cs := by
  match cs with
  | [] => exact nil parts
  | c :: cs =>
    have ih : ∀ parts k, k.length < (c :: cs).length → motive parts k := fun parts k _ =>
      readRest_induction globals nil call close separator symbol text unclosed parts k
    by_cases hopen : c = '('
    · subst hopen
      refine call parts cs (ih [] cs (Nat.lt_succ_self _)) fun c rest h => ih _ rest ?_
      exact Nat.lt_succ_of_lt (length_lt_of_readRest h)
    by_cases hclose : c = ')'
    · subst hclose
      exact close parts cs
    by_cases hsep : isSeparator c = true
    · exact separator parts c cs hsep (ih parts cs (Nat.lt_succ_self _))
    by_cases hquote : c = '"'
    · subst hquote
      by_cases hmem : '"' ∈ cs
      · obtain ⟨content, k, rfl, hcontent⟩ := List.eq_append_cons_of_mem hmem
        refine text parts content k hcontent (ih _ k ?_)
        simp only [List.length_cons, List.length_append]
        omega
      · exact unclosed parts cs hmem
    have hc : isDelimiter c = false := by simp [isDelimiter, isBracket, hopen, hclose, hsep]
    obtain ⟨name, k, hcut, hname, hk⟩ := @exists_symbol c cs hc hquote
    rw [hcut] at ih ⊢
    refine symbol parts name k hname hk (ih _ k ?_)
    obtain ⟨d, name, rfl⟩ := exists_cons_of_isSymbolText hname
    simp only [List.length_cons, List.length_append]
    omega
termination_by cs.length
decreasing_by assumption

/-! ## The calls of items -/

mutual

/-- The value that an item is read to while `globals` are bound. -/
def Item.build (globals : Scope) : Item → Except Error Value
  | .symbol name => .ok (.symbol name)
  | .text content => .ok (.text content)
  | .call items =>
    (Item.buildAll globals items).bind fun vs => (closeCall globals vs).map .call

/-- The values that items are read to, up to the first that cannot be built. -/
def Item.buildAll (globals : Scope) : List Item → Except Error (List Value)
  | [] => .ok []
  | item :: items =>
    (item.build globals).bind fun v => (Item.buildAll globals items).map (v :: ·)

end

/-- The call of the items `items` behind the items `parts`. -/
def Item.close (globals : Scope) (parts : List Value) (items : List Item) : Except Error Call :=
  (Item.buildAll globals items).bind fun vs => closeCall globals (parts ++ vs)

section Close

variable {globals : Scope} {parts : List Value} {items : List Item}

theorem Item.close_nil : Item.close globals parts [] = closeCall globals parts := by
  rw [Item.close, Item.buildAll]
  show closeCall globals (parts ++ []) = _
  rw [List.append_nil]

theorem Item.close_cons {item : Item} {v : Value} (h : item.build globals = .ok v) :
    Item.close globals parts (item :: items) = Item.close globals (parts ++ [v]) items := by
  rw [Item.close, Item.close, Item.buildAll, h]
  cases Item.buildAll globals items with
  | error e => rfl
  | ok vs =>
    show closeCall globals (parts ++ v :: vs) = closeCall globals (parts ++ [v] ++ vs)
    rw [List.append_assoc, List.singleton_append]

theorem Item.build_call {inner : List Item} :
    (Item.call inner).build globals = (Item.close globals [] inner).map .call := by
  rw [Item.build, Item.close]
  cases Item.buildAll globals inner <;> rfl

/-- An inner call is built before the items behind it. -/
theorem Item.close_call {inner : List Item} :
    Item.close globals parts (.call inner :: items) =
      (Item.close globals [] inner).bind fun c =>
        Item.close globals (parts ++ [.call c]) items := by
  have hbuild : (Item.call inner).build globals = _ := Item.build_call
  cases hinner : Item.close globals [] inner with
  | error e =>
    rw [hinner] at hbuild
    rw [Item.close, Item.buildAll, hbuild]
    rfl
  | ok c =>
    rw [hinner] at hbuild
    exact Item.close_cons hbuild

end Close

/-! ## What is written is read -/

mutual

/-- Only a text cannot be compared. -/
theorem Value.eq_notText_of_equal (a : Value) {b : Value} {e : Error} (h : a.equal b = .error e) :
    e = .notText := by
  cases a with
  | tuple xs =>
    cases b with
    | tuple ys => exact Value.eq_notText_of_equalItems xs h
    | text t =>
      cases h
      rfl
    | _ => cases h
  | list xs =>
    cases b with
    | list ys =>
      rw [Value.equal] at h
      split at h
      · exact Value.eq_notText_of_equalItems xs h
      · cases h
    | text t =>
      cases h
      rfl
    | _ => cases h
  | text s =>
    cases b with
    | text t => cases h
    | _ =>
      cases h
      rfl
  | _ =>
    cases b with
    | text t =>
      cases h
      rfl
    | _ => cases h

theorem Value.eq_notText_of_equalItems (xs : List Value) {ys : List Value} {e : Error}
    (h : Value.equalItems xs ys = .error e) : e = .notText := by
  cases xs with
  | nil => cases h
  | cons x xs =>
    cases ys with
    | nil => cases h
    | cons y ys =>
      rw [Value.equalItems] at h
      split at h
      · exact Value.eq_notText_of_equalItems xs h
      · exact Value.eq_notText_of_equal x h

end

section Errors

variable {globals : Scope} {head : Value} {vs : List Value} {e : Error}

theorem Scope.eq_notText_of_find? {s : Scope} (h : s.find? head = .error e) : e = .notText := by
  induction s with
  | nil => cases h
  | cons entry s ih =>
    rw [Scope.find?] at h
    split at h
    · rename_i hkey
      cases h
      unfold Value.isKey at hkey
      split at hkey
      · exact Value.eq_notText_of_equal head hkey
      · cases hkey
    · cases h
    · exact ih h

/-- Looking for the rest parameter never reports an unfinished call. -/
theorem restPosition?_ne_unfinished (h : restPosition? vs = .error e) : e ≠ .unfinished := by
  have hmap : ∀ {r : Except Error (Option Nat)}, r.map (·.map (· + 1)) = .error e →
      r = .error e := by
    intro r hr
    cases r with
    | error e' =>
      cases hr
      rfl
    | ok i => cases hr
  fun_induction restPosition? vs with
  | case1 => cases h
  | case2 =>
    cases h
    simp
  | case3 => cases h
  | case4 _ _ _ ih => exact ih (hmap h)
  | case5 _ _ _ _ ih => exact ih (hmap h)

/-- Starting a call never reports it as unfinished. -/
theorem begin_ne_unfinished {fn : Function} (h : fn.begin vs = .error e) : e ≠ .unfinished := by
  have hdefinition : beginDefinition fn vs = .error e → e ≠ .unfinished := by
    intro h
    unfold beginDefinition at h
    split at h
    · rename_i hrest
      cases h
      exact restPosition?_ne_unfinished hrest
    · cases h
    · split at h
      · cases h
      · cases h
        simp
  unfold Function.begin at h
  split at h
  · exact hdefinition h
  · exact hdefinition h
  · split at h
    · cases h
      simp
    · cases h
  · cases h

/-- A call that is closed has been read, even if it cannot be made. -/
theorem closeCall_ne_unfinished (h : closeCall globals vs = .error e) : e ≠ .unfinished := by
  cases vs with
  | nil =>
    cases h
    simp
  | cons head args =>
    rw [closeCall] at h
    unfold makeCall at h
    split at h
    · rename_i hfind
      cases h
      rw [Scope.eq_notText_of_find? hfind]
      simp
    · cases h
    · exact begin_ne_unfinished h
    · cases h
      simp

theorem Error.fromInside_of_ne (h : e ≠ .unfinished) : e.fromInside = e := by
  unfold Error.fromInside
  split
  · exact absurd rfl h
  · rfl

end Errors

/-- Items that are written are read up to the closing bracket, and then the call is closed. -/
theorem readRest_of_written_aux {globals : Scope} {items : List Item} {cs : List Char}
    (h : Written items cs) :
    ∀ parts, (∀ rest, readRest globals parts (cs ++ ')' :: rest) =
      (Item.close globals parts items).map fun c => (c, rest)) ∧
        ∀ e, Item.close globals parts items = .error e → e ≠ .unfinished := by
  induction h with
  | nil =>
    intro parts
    rw [Item.close_nil]
    exact ⟨fun rest => readRest_close, fun e => closeCall_ne_unfinished⟩
  | separator hc h ih =>
    intro parts
    refine ⟨fun rest => ?_, (ih parts).2⟩
    rw [List.cons_append, readRest_separator hc, (ih parts).1]
  | @symbol items name cs hname hgap h ih =>
    intro parts
    rw [Item.close_cons rfl]
    refine ⟨fun rest => ?_, (ih _).2⟩
    rw [List.append_assoc, readRest_symbol hname (h.delimits hgap), (ih _).1]
  | @text items content cs hcontent h ih =>
    intro parts
    rw [Item.close_cons rfl]
    refine ⟨fun rest => ?_, (ih _).2⟩
    rw [List.cons_append, List.append_assoc, List.cons_append, readRest_text hcontent, (ih _).1]
  | @call inner items text cs hne hinner h ihinner ih =>
    intro parts
    obtain ⟨hread, herror⟩ := ihinner []
    rw [Item.close_call]
    cases hclose : Item.close globals [] inner with
    | error e =>
      refine ⟨fun rest => ?_, fun e' he' => ?_⟩
      · rw [List.cons_append, List.append_assoc, List.cons_append, readRest_open, hread, hclose]
        exact congrArg Except.error (Error.fromInside_of_ne (herror e hclose))
      · cases he'
        exact herror e hclose
    | ok c =>
      refine ⟨fun rest => ?_, (ih _).2⟩
      rw [List.cons_append, List.append_assoc, List.cons_append, readRest_open, hread, hclose]
      exact (ih _).1 rest

/-- **Items that are written are read**, up to the closing bracket, whatever comes behind it. -/
theorem readRest_of_written {globals : Scope} {items : List Item} {cs : List Char}
    (h : Written items cs) (parts : List Value) (rest : List Char) :
    readRest globals parts (cs ++ ')' :: rest) =
      (Item.close globals parts items).map fun c => (c, rest) :=
  (readRest_of_written_aux h parts).1 rest

/-! ## What is read is written -/

theorem bind_eq_ok_iff {α β : Type} {r : Except Error α} {g : α → Except Error β} {b : β} :
    r.bind g = .ok b ↔ ∃ a, r = .ok a ∧ g a = .ok b := by
  cases r with
  | error e => simp [Except.bind]
  | ok a => simp [Except.bind]

theorem mapError_eq_ok_iff {α : Type} {r : Except Error α} {f : Error → Error} {a : α} :
    r.mapError f = .ok a ↔ r = .ok a := by
  cases r with
  | error e => exact ⟨fun h => (nomatch h), fun h => (nomatch h)⟩
  | ok b => exact Iff.rfl

/-- The text `cs` up to `rest` consists of items and a closing bracket. Behind the items `parts`
they make the call `c`. -/
def WrittenUpTo (globals : Scope) (parts : List Value) (cs rest : List Char) (c : Call) : Prop :=
  ∃ items text, cs = text ++ ')' :: rest ∧ Written items text ∧
    Item.close globals parts items = .ok c

namespace WrittenUpTo

variable {globals : Scope} {parts : List Value} {cs rest k : List Char} {c inner : Call}

theorem close (h : closeCall globals parts = .ok c) :
    WrittenUpTo globals parts (')' :: rest) rest c :=
  ⟨[], [], rfl, .nil, by rw [Item.close_nil]; exact h⟩

theorem separator {d : Char} (hd : isSeparator d = true)
    (h : WrittenUpTo globals parts cs rest c) : WrittenUpTo globals parts (d :: cs) rest c := by
  obtain ⟨items, text, rfl, hwritten, hc⟩ := h
  exact ⟨items, d :: text, rfl, .separator hd hwritten, hc⟩

theorem call (hinner : WrittenUpTo globals [] cs k inner)
    (h : WrittenUpTo globals (parts ++ [.call inner]) k rest c) :
    WrittenUpTo globals parts ('(' :: cs) rest c := by
  obtain ⟨inneritems, text, rfl, hwritten, hclose⟩ := hinner
  obtain ⟨items, text', rfl, hwritten', hclose'⟩ := h
  have hne : inneritems ≠ [] := by
    -- a call without items is refused
    rintro rfl
    rw [Item.close_nil] at hclose
    cases hclose
  refine ⟨.call inneritems :: items, '(' :: (text ++ ')' :: text'), by simp,
    .call hne hwritten hwritten', ?_⟩
  rw [Item.close_call, hclose]
  exact hclose'

theorem symbol {name : List Char} (hname : isSymbolText name = true)
    (hk : ∀ d ∈ k.head?, isDelimiter d = true)
    (h : WrittenUpTo globals (parts ++ [.symbol (String.ofList name)]) k rest c) :
    WrittenUpTo globals parts (name ++ k) rest c := by
  obtain ⟨items, text, rfl, hwritten, hclose⟩ := h
  have hgap : startsWithWord items = true → startsWithSeparator text = true :=
    hwritten.gap_of_delimits hk
  refine ⟨.symbol (String.ofList name) :: items, name ++ text, by rw [List.append_assoc],
    .symbol hname hgap hwritten, ?_⟩
  rw [Item.close_cons rfl]
  exact hclose

theorem text {content : List Char} (hcontent : '"' ∉ content)
    (h : WrittenUpTo globals (parts ++ [.text (String.ofList content)]) k rest c) :
    WrittenUpTo globals parts ('"' :: (content ++ '"' :: k)) rest c := by
  obtain ⟨items, text, rfl, hwritten, hclose⟩ := h
  refine ⟨.text (String.ofList content) :: items, '"' :: (content ++ '"' :: text), by simp,
    .text hcontent hwritten, ?_⟩
  rw [Item.close_cons rfl]
  exact hclose

end WrittenUpTo

/-- **What is read is written.** -/
theorem writtenUpTo_of_readRest {globals : Scope} {parts : List Value} {cs rest : List Char}
    {c : Call} (h : readRest globals parts cs = .ok (c, rest)) :
    WrittenUpTo globals parts cs rest c := by
  induction parts, cs using readRest_induction globals generalizing rest c with
  | nil parts =>
    rw [readRest_nil] at h
    cases h
  | call parts cs ihinner ih =>
    rw [readRest_open] at h
    obtain ⟨⟨inner, k⟩, hinner, hrest⟩ := bind_eq_ok_iff.mp h
    rw [mapError_eq_ok_iff] at hinner
    exact .call (ihinner hinner) (ih inner k hinner hrest)
  | close parts cs =>
    rw [readRest_close] at h
    obtain ⟨call, hcall, hr⟩ := map_eq_ok_iff.mp h
    cases hr
    exact .close hcall
  | separator parts d cs hd ih =>
    rw [readRest_separator hd] at h
    exact .separator hd (ih h)
  | symbol parts name cs hname hcs ih =>
    rw [readRest_symbol hname hcs] at h
    exact .symbol hname hcs (ih h)
  | text parts content cs hcontent ih =>
    rw [readRest_text hcontent] at h
    exact .text hcontent (ih h)
  | unclosed parts content hcontent =>
    rw [readRest_unclosed hcontent] at h
    cases h

/-! ## Reading calls -/

/-- The text of a call is read as the call that its items make. -/
theorem CallText.readCall_append {items : List Item} {text : List Char} (h : CallText items text)
    (globals : Scope) (rest : List Char) :
    readCall globals (text ++ rest) =
      (Item.close globals [] items).map fun c => (c, rest) := by
  obtain ⟨-, inner, rfl, hwritten⟩ := h
  have hcut : '(' :: (inner ++ [')']) ++ rest = '(' :: (inner ++ ')' :: rest) := by simp
  rw [hcut]
  exact readRest_of_written hwritten [] rest

/-- A call is read where its text stands, and nowhere else. -/
theorem readCall_eq_ok_iff {globals : Scope} {cs rest : List Char} {c : Call} :
    readCall globals cs = .ok (c, rest) ↔
      ∃ items text, cs = text ++ rest ∧ CallText items text ∧
        Item.close globals [] items = .ok c := by
  constructor
  · intro h
    cases cs with
    | nil => cases h
    | cons d cs =>
      by_cases hopen : d = '('
      · subst hopen
        have hread : readRest globals [] cs = .ok (c, rest) := h
        obtain ⟨items, text, rfl, hwritten, hclose⟩ :=
          writtenUpTo_of_readRest hread
        have hne : items ≠ [] := by
          rintro rfl
          rw [Item.close_nil] at hclose
          cases hclose
        exact ⟨items, '(' :: (text ++ [')']), by simp, ⟨hne, text, rfl, hwritten⟩, hclose⟩
      · rw [readCall, if_neg (by simpa using hopen)] at h
        cases h
  · rintro ⟨items, text, rfl, htext, hclose⟩
    rw [htext.readCall_append, hclose]
    rfl

end MiniLisp

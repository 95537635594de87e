import MiniLisp.Proofs.Reading.Comments
import MiniLisp.Proofs.Reading.Spacing

/-!
# Comments and line breaks

A comment goes with the end of its line. So it is worth a line break only if a blank or a bracket
stands before it or behind that line end: otherwise the symbol before it is joined with what the
next line begins with. A text that consists of comments alone is also told apart from its empty
lines, since the empty text is a program and a blank one is not.

`Region` says where in a text a character stands, and `hashesPass` asks something of every `#` in
it. If none stands in a text between quotes, none joins a symbol to the next line, and there is more
than comments, then a program runs as it does with its comments taken out and the line ends left
(`runText_withoutComments`).
-/

namespace MiniLisp

open Source

/-! ## Regions of a text -/

/-- Where a character stands: between items, behind a character of a symbol, in a text between
quotes, or in a comment. -/
inductive Region where
  | between
  | symbol
  | text
  | comment
deriving DecidableEq

/-- The region behind a character. A quote within a symbol belongs to the symbol. -/
def Region.next : Region → Char → Region
  | .comment, c => if c == '\n' then .between else .comment
  | .text, c => if c == '"' then .between else .text
  | .symbol, c => if c == '#' then .comment else if isItemChar c then .symbol else .between
  | .between, c =>
    if c == '#' then .comment
    else if c == '"' then .text
    else if isItemChar c then .symbol
    else .between

/-- Whether every `#` of a text passes a check, which is told its region and the text behind it. -/
def hashesPass (check : Region → List Char → Bool) (region : Region) : List Char → Bool
  | [] => true
  | c :: cs => (c != '#' || check region cs) && hashesPass check (region.next c) cs

/-- The check that no `#` stands in a text between quotes. -/
def outsideText (region : Region) (_ : List Char) : Bool :=
  region != .text

/-- The check that no comment joins a symbol to the next line: a `#` that follows a symbol is
followed, once comments are gone, by a blank, a bracket or the end. -/
def keepsApart (region : Region) (behind : List Char) : Bool :=
  region != .symbol || !startsWithItem (dropComments true behind)

section Regions

variable {check : Region → List Char → Bool} {region : Region}

theorem hashesPass_cons {c : Char} {cs : List Char} (h : hashesPass check region (c :: cs) = true) :
    hashesPass check (region.next c) cs = true := by
  rw [hashesPass, Bool.and_eq_true] at h
  exact h.2

theorem hashesPass_of_append {xs ys : List Char} (h : hashesPass check region (xs ++ ys) = true) :
    hashesPass check (xs.foldl Region.next region) ys = true := by
  induction xs generalizing region with
  | nil => exact h
  | cons x xs ih =>
    exact ih (hashesPass_cons h)

theorem foldl_next_eq_self {xs : List Char} (h : ∀ x ∈ xs, region.next x = region) :
    xs.foldl Region.next region = region := by
  induction xs with
  | nil => rfl
  | cons x xs ih =>
    rw [List.foldl_cons, h x List.mem_cons_self]
    exact ih fun y hy => h y (List.mem_cons_of_mem x hy)

theorem foldl_next_comment {line : List Char} (h : '\n' ∉ line) :
    line.foldl Region.next .comment = .comment := by
  refine foldl_next_eq_self fun c hc => ?_
  have hend : c ≠ '\n' := fun heq => h (heq ▸ hc)
  simp [Region.next, hend]

theorem foldl_next_text {content : List Char} (h : '"' ∉ content) :
    content.foldl Region.next .text = .text := by
  refine foldl_next_eq_self fun c hc => ?_
  have hquote : c ≠ '"' := fun heq => h (heq ▸ hc)
  simp [Region.next, hquote]

theorem foldl_next_symbol {name : List Char}
    (h : ∀ c ∈ name, isItemChar c = true ∧ c ≠ '#') :
    name.foldl Region.next .symbol = .symbol := by
  refine foldl_next_eq_self fun c hc => ?_
  simp [Region.next, h c hc]

/-- The text of a comment's line is passed over. -/
theorem hashesPass_of_comment {line rest : List Char} (hline : '\n' ∉ line)
    (h : hashesPass check .between ('#' :: (line ++ '\n' :: rest)) = true) :
    hashesPass check .between rest = true := by
  have hrest := hashesPass_of_append (hashesPass_cons h)
  have hregion : Region.between.next '#' = .comment := rfl
  rw [hregion, foldl_next_comment hline] at hrest
  exact hashesPass_cons hrest

/-- A text between quotes is passed over. -/
theorem hashesPass_of_text {content rest : List Char} (hcontent : '"' ∉ content)
    (h : hashesPass check .between ('"' :: (content ++ '"' :: rest)) = true) :
    hashesPass check .between rest = true := by
  have hrest := hashesPass_of_append (hashesPass_cons h)
  have hregion : Region.between.next '"' = .text := rfl
  rw [hregion, foldl_next_text hcontent] at hrest
  exact hashesPass_cons hrest

/-- Behind a symbol the text goes on as between items, unless the symbol does. -/
theorem hashesPass_of_symbol {name rest : List Char} (hname : isSymbolText name = true)
    (hchars : ∀ c ∈ name, isItemChar c = true ∧ c ≠ '#')
    (h : hashesPass check .between (name ++ rest) = true) :
    hashesPass check .symbol rest = true := by
  obtain ⟨c, name, rfl⟩ := exists_cons_of_isSymbolText hname
  obtain ⟨hitem, hhash⟩ := hchars c List.mem_cons_self
  have hregion : Region.between.next c = .symbol := by
    simp [Region.next, hhash, (isSymbolText_cons hname).2, hitem]
  have hrest := hashesPass_of_append h
  rwa [List.foldl_cons, hregion,
    foldl_next_symbol fun d hd => hchars d (List.mem_cons_of_mem c hd)] at hrest

theorem hashesPass_between_of_symbol {rest : List Char}
    (hbetween : ∀ behind, check .between behind = true)
    (hrest : ∀ c ∈ rest.head?, isItemChar c = true → c = '#')
    (h : hashesPass check .symbol rest = true) : hashesPass check .between rest = true := by
  cases rest with
  | nil => rfl
  | cons c rest =>
    rw [hashesPass, hbetween, Bool.or_true, Bool.true_and]
    have hnext : Region.between.next c = Region.symbol.next c := by
      by_cases hc : c = '#'
      · subst hc
        rfl
      · have hitem : isItemChar c = false := by
          rw [Bool.eq_false_iff]
          exact fun hitem => hc (hrest c rfl hitem)
        have hquote : c ≠ '"' := by
          rintro rfl
          cases hitem
        simp [Region.next, hc, hitem, hquote]
    rw [hnext]
    exact hashesPass_cons h

/-- No `#` stands between quotes. -/
theorem not_mem_of_hashesPass_text {content rest : List Char} (hcontent : '"' ∉ content)
    (h : hashesPass outsideText .text (content ++ rest) = true) : '#' ∉ content := by
  induction content with
  | nil => simp
  | cons c content ih =>
    rw [List.mem_cons, not_or] at hcontent
    rw [List.cons_append, hashesPass, Bool.and_eq_true] at h
    have hc : c ≠ '#' := by simpa [outsideText] using h.1
    have hregion : Region.text.next c = .text := by
      simp [Region.next, Ne.symm hcontent.1]
    rw [hregion] at h
    rw [List.mem_cons, not_or]
    exact ⟨Ne.symm hc, ih hcontent.2 h.2⟩

end Regions

/-! ## Comments between items -/

/-- What stands before a comment stays, however comments are taken out. -/
theorem withoutComments_code_append {code : List Char} (h : '#' ∉ code) (cs : List Char) :
    withoutComments (code ++ cs) = code ++ withoutComments cs := by
  induction code with
  | nil => rfl
  | cons c code ih =>
    rw [List.mem_cons, not_or] at h
    rw [List.cons_append, withoutComments_cons (Ne.symm h.1), ih h.2, List.cons_append]

theorem isDelimiter_of_isItemChar {c : Char} (h : isItemChar c = true) : isDelimiter c = false := by
  rw [isItemChar, Bool.and_eq_true, Bool.not_eq_true', Bool.not_eq_true'] at h
  rw [isDelimiter, h.2, Bool.false_or, Bool.eq_false_iff]
  intro hsep
  rw [isBlank_of_isSeparator hsep] at h
  cases h.1

/-- A text that begins with the character of an item, but with neither a quote nor a `#`, begins
with a symbol. -/
theorem exists_symbol_before_hash {c : Char} {cs : List Char} (hc : isItemChar c = true)
    (hhash : c ≠ '#') (hquote : c ≠ '"') :
    ∃ name rest, c :: cs = name ++ rest ∧ isSymbolText name = true ∧
      (∀ d ∈ name, isItemChar d = true ∧ d ≠ '#') ∧
        ∀ d ∈ rest.head?, isItemChar d = true → d = '#' := by
  let inside : Char → Bool := fun d => isItemChar d && d != '#'
  have hinside : ∀ d ∈ c :: cs.takeWhile inside, isItemChar d = true ∧ d ≠ '#' := by
    intro d hd
    rcases List.mem_cons.mp hd with rfl | hd
    · exact ⟨hc, hhash⟩
    · simpa [inside] using List.all_eq_true.mp List.all_takeWhile d hd
  refine ⟨c :: cs.takeWhile inside, cs.dropWhile inside, ?_, ?_, hinside, ?_⟩
  · rw [List.cons_append, List.takeWhile_append_dropWhile]
  · have hall : ∀ d ∈ c :: cs.takeWhile inside, isDelimiter d = false :=
      fun d hd => isDelimiter_of_isItemChar (hinside d hd).1
    have hhead : (some c != some '"') = true := by simpa using hquote
    rw [isSymbolText, Bool.and_eq_true, Bool.and_eq_true, List.all_eq_true]
    exact ⟨⟨rfl, fun d hd => by simp [hall d hd]⟩, hhead⟩
  · intro d hd hitem
    have hhead := List.head?_dropWhile_not inside cs
    rw [hd] at hhead
    simpa [inside, hitem] using hhead

/-- Where no symbol goes on, nothing is joined to it when comments are taken out with their line
ends. -/
theorem startsWithItem_dropComments {rest : List Char}
    (hrest : ∀ d ∈ rest.head?, isItemChar d = true → d = '#')
    (h : hashesPass keepsApart .symbol rest = true) :
    startsWithItem (dropComments false rest) = false := by
  cases rest with
  | nil => rfl
  | cons c rest =>
    by_cases hc : c = '#'
    · subst hc
      rw [hashesPass, Bool.and_eq_true] at h
      have hdrop : dropComments false ('#' :: rest) = dropComments true rest := rfl
      rw [hdrop]
      simpa [keepsApart] using h.1
    · have hdrop : dropComments false (c :: rest) = c :: dropComments false rest :=
        @dropComments_append [c] (by simp [Ne.symm hc]) rest
      rw [hdrop, startsWithItem, Bool.eq_false_iff]
      exact fun hitem => hc (hrest c rfl hitem)

/-- The end of a comment's line keeps the symbol before it apart from the next line. -/
theorem startsWithItem_withoutComments {rest : List Char}
    (hrest : ∀ d ∈ rest.head?, isItemChar d = true → d = '#') :
    startsWithItem (withoutComments rest) = false := by
  cases rest with
  | nil => rfl
  | cons c rest =>
    by_cases hc : c = '#'
    · subst hc
      rcases comment_cases rest with ⟨-, hw, -⟩ | ⟨line, k, -, -, -, hw⟩
      · rw [hw]
        rfl
      · rw [hw]
        rfl
    · rw [withoutComments_cons hc, startsWithItem, Bool.eq_false_iff]
      exact fun hitem => hc (hrest c rfl hitem)

/-- Whether line ends go with their comments or stay, a text has the same items, if no `#` in it
stands between quotes and no comment joins a symbol to the next line. -/
def SameItems (s : List Char) : Prop :=
  hashesPass outsideText .between s = true → hashesPass keepsApart .between s = true →
    Respaced (dropComments false s) (withoutComments s)

section Cases

variable {c : Char} {s : List Char}
  (ih : ∀ rest : List Char, rest.length ≤ s.length → SameItems rest)

include ih

theorem SameItems.comment : SameItems ('#' :: s) := by
  intro htext hapart
  rcases comment_cases s with ⟨hd, hw, -⟩ | ⟨line, rest, rfl, hline, hd, hw⟩
  · rw [hd, hw]
    exact .nil
  · have hlen : rest.length ≤ (line ++ '\n' :: rest).length := by
      rw [List.length_append, List.length_cons]
      omega
    rw [hd, hw]
    exact .right rfl (ih rest hlen (hashesPass_of_comment hline htext)
      (hashesPass_of_comment hline hapart))

theorem SameItems.quoted : SameItems ('"' :: s) := by
  intro htext hapart
  by_cases hclosed : '"' ∈ s
  · obtain ⟨content, rest, rfl, hcontent⟩ := List.eq_append_cons_of_mem hclosed
    have hplain : '#' ∉ '"' :: (content ++ ['"']) := by
      have hnot : '#' ∉ content := not_mem_of_hashesPass_text hcontent (hashesPass_cons htext)
      simp [hnot]
    have hcut : '"' :: (content ++ '"' :: rest) = '"' :: (content ++ ['"']) ++ rest := by simp
    have hlen : rest.length ≤ (content ++ '"' :: rest).length := by
      rw [List.length_append, List.length_cons]
      omega
    have hrest := ih rest hlen (hashesPass_of_text hcontent htext)
      (hashesPass_of_text hcontent hapart)
    rw [hcut, dropComments_append hplain, withoutComments_code_append hplain]
    simpa using Respaced.text hcontent hrest
  · -- a text that is not closed goes up to the end
    have hplain : '#' ∉ '"' :: s := by
      have hrest := hashesPass_cons htext
      rw [← List.append_nil s] at hrest
      have hnot : '#' ∉ s := not_mem_of_hashesPass_text hclosed hrest
      simp [hnot]
    have hw := withoutComments_code_append hplain []
    rw [List.append_nil] at hw
    rw [dropComments_eq_self hplain, hw]
    simpa [withoutComments] using Respaced.unclosed hclosed

theorem SameItems.symbol (hitem : isItemChar c = true) (hhash : c ≠ '#') (hquote : c ≠ '"') :
    SameItems (c :: s) := by
  intro htext hapart
  obtain ⟨name, rest, hcut, hname, hchars, hrest⟩ :=
    @exists_symbol_before_hash c s hitem hhash hquote
  have hplain : '#' ∉ name := fun hmem => (hchars _ hmem).2 rfl
  rw [hcut] at htext hapart ⊢
  have htext' := hashesPass_of_symbol hname hchars htext
  have hapart' := hashesPass_of_symbol hname hchars hapart
  have hlen : rest.length ≤ s.length := by
    have hlength := congrArg List.length hcut
    obtain ⟨d, name, rfl⟩ := exists_cons_of_isSymbolText hname
    rw [List.length_cons, List.length_append, List.length_cons] at hlength
    omega
  have hih := ih rest hlen (hashesPass_between_of_symbol (fun _ => rfl) hrest htext')
    (hashesPass_between_of_symbol (fun _ => rfl) hrest hapart')
  rw [dropComments_append hplain, withoutComments_code_append hplain]
  refine .symbol hname ?_ (startsWithItem_dropComments hrest hapart')
    (startsWithItem_withoutComments hrest) hih
  intro d hd
  have hd := (hchars d hd).1
  rw [isItemChar, Bool.and_eq_true] at hd
  simpa using hd.1

/-- Blanks and brackets stay in both texts. -/
theorem SameItems.delimiter (hitem : isItemChar c ≠ true) (hhash : c ≠ '#') (hquote : c ≠ '"') :
    SameItems (c :: s) := by
  intro htext hapart
  have hplain : '#' ∉ [c] := by simp [Ne.symm hhash]
  have hregion : Region.between.next c = .between := by
    simp [Region.next, hhash, hquote, hitem]
  have hrest := ih s (Nat.le_refl _) (hregion ▸ hashesPass_cons htext)
    (hregion ▸ hashesPass_cons hapart)
  have hd := dropComments_append hplain s
  rw [List.singleton_append] at hd
  rw [hd, withoutComments_cons hhash]
  by_cases hblank : isBlank c = true
  · exact .left hblank (.right hblank hrest)
  · refine .bracket ?_ hrest
    simpa [isItemChar, hblank] using hitem

end Cases

/-- **Whether line ends go with their comments or stay, the items are the same.** -/
theorem respaced_dropComments (s : List Char) : SameItems s := by
  -- comments, texts and symbols are passed over as a whole
  induction hn : s.length using Nat.strong_induction_on generalizing s with
  | _ n ih =>
    cases s with
    | nil => exact fun _ _ => .nil
    | cons c s =>
      have hshorter : ∀ rest : List Char, rest.length ≤ s.length → SameItems rest := by
        intro rest hrest
        rw [List.length_cons] at hn
        exact ih rest.length (by omega) rest rfl
      by_cases hhash : c = '#'
      · subst hhash
        exact SameItems.comment hshorter
      by_cases hquote : c = '"'
      · subst hquote
        exact SameItems.quoted hshorter
      by_cases hitem : isItemChar c = true
      · exact SameItems.symbol hshorter hitem hhash hquote
      · exact SameItems.delimiter hshorter hitem hhash hquote

/-! ## Running -/

/-- Only the empty text has the empty normal form. -/
theorem tighten_squeeze_eq_nil_iff {cs : List Char} :
    tightenBrackets false (squeezeBlanks false cs) = [] ↔ cs = [] := by
  constructor
  · intro h
    cases cs with
    | nil => rfl
    | cons c cs =>
      by_cases hblank : isBlank c = true
      · rw [squeezeBlanks, if_pos hblank, if_neg (by simp), tightenBrackets] at h
        -- a space goes only before a bracket, and this stays
        split at h
        · rename_i hdrop
          generalize squeezeBlanks true cs = k at h hdrop
          cases k with
          | nil => cases hdrop
          | cons d k =>
            have hd : isBracket d = true := hdrop
            rw [tightenBrackets_bracket hd] at h
            cases h
        · cases h
      · have hspace :
            ¬ (c == ' ' && (false || startsWithBracket (squeezeBlanks false cs))) = true := by
          intro hdrop
          rw [eq_of_beq (Bool.and_eq_true_iff.mp hdrop).1] at hblank
          exact hblank rfl
        rw [squeezeBlanks, if_neg hblank, tightenBrackets, if_neg hspace] at h
        cases h
  · rintro rfl
    rfl

/-- Nothing is left if there is nothing but a comment, on the only line. -/
theorem withoutComments_eq_nil_iff {s : List Char} :
    withoutComments s = [] ↔ dropComments false s = [] ∧ '\n' ∉ s := by
  cases s with
  | nil => simp [withoutComments, dropComments]
  | cons c s =>
    by_cases hc : c = '#'
    · subst hc
      rcases comment_cases s with ⟨hd, hw, hline⟩ | ⟨line, rest, rfl, -, -, hw⟩
      · simp [hd, hw, hline]
      · simp [hw]
    · have hd : dropComments false (c :: s) = c :: dropComments false s :=
        @dropComments_append [c] (by simp [Ne.symm hc]) s
      simp [withoutComments_cons hc, hd]

theorem hash_not_mem_withoutComments (s : List Char) : '#' ∉ withoutComments s := by
  intro hmem
  have hfilter := filter_dropComments (p := (· == '#')) rfl s
  have hleft : '#' ∈ (withoutComments s).filter (· == '#') := List.mem_filter.mpr ⟨hmem, rfl⟩
  rw [← hfilter] at hleft
  exact not_mem_dropComments false s (List.mem_filter.mp hleft).1

/-- **A comment is worth a line break.** A program in which no `#` stands in a text between quotes
runs as it does with each comment deleted up to the end of its line, unless a comment joins a symbol
to the next line, or there is nothing but comments on several lines. -/
theorem runText_withoutComments (files : Files) (n : Nat) (w : World) (s : List Char)
    (htext : hashesPass outsideText .between s = true)
    (hapart : hashesPass keepsApart .between s = true)
    (hcode : dropComments false s = [] → '\n' ∉ s) :
    runText files n w s = runText files n w (withoutComments s) := by
  have hspaced : Respaced (normalise s) (normalise (withoutComments s)) := by
    rw [normalise, normalise, dropComments_eq_self (hash_not_mem_withoutComments s)]
    exact (respaced_dropComments s htext hapart).tighten_squeeze _ _ _ _
  have hempty : normalise s = [] ↔ normalise (withoutComments s) = [] := by
    rw [normalise, normalise, dropComments_eq_self (hash_not_mem_withoutComments s),
      tighten_squeeze_eq_nil_iff, tighten_squeeze_eq_nil_iff, withoutComments_eq_nil_iff]
    exact ⟨fun h => ⟨h, hcode h⟩, And.left⟩
  exact hspaced.runBlocks n (isNormal_normalise _) (isNormal_normalise _) hempty

/-- A comment behind a text between quotes, where the next line begins with another one: the normal
forms differ, but not the run. -/
theorem runText_withoutComments_texts :
    hashesPass outsideText .between "(+ \"a\"#first\n\"b\")".toList = true ∧
      hashesPass keepsApart .between "(+ \"a\"#first\n\"b\")".toList = true ∧
      dropComments false "(+ \"a\"#first\n\"b\")".toList = "(+ \"a\"\"b\")".toList ∧
      withoutComments "(+ \"a\"#first\n\"b\")".toList = "(+ \"a\"\n\"b\")".toList ∧
      runText (Files.ofList []) 20 (World.start true) "(+ \"a\"#first\n\"b\")".toList =
        runText (Files.ofList []) 20 (World.start true)
          (withoutComments "(+ \"a\"#first\n\"b\")".toList) :=
  ⟨by decide +kernel, by decide +kernel, by decide +kernel, by decide +kernel,
    runText_withoutComments _ _ _ _ (by decide +kernel) (by decide +kernel) (by decide +kernel)⟩

-- behind a symbol the comment joins the two lines
example : normalise "(+ 1#first\n2)".toList = "(+ 12)".toList := by decide +kernel

end MiniLisp

import MiniLisp.Proofs.Reading.NormalForm

/-!
# Blanks between items

Two texts are respaced (`Respaced`) if they consist of the same brackets, symbols and texts between
quotes, and differ only in the blanks between them. A symbol ends in both before a blank, a bracket
or the end. Normalising keeps two texts respaced (`Respaced.tighten_squeeze`), the reader makes the
same calls of both (`Respaced.readRest`), and so their blocks run alike (`Respaced.runBlocks`).
-/

namespace MiniLisp

open Source

/-- Whether a character belongs to an item: whether it is neither a blank nor a bracket. -/
def isItemChar (c : Char) : Bool :=
  !isBlank c && !isBracket c

/-- Whether a text begins with a character of an item. -/
def startsWithItem : List Char → Bool
  | [] => false
  | c :: _ => isItemChar c

/-- Two texts of the same items, with other blanks between these. A text between quotes may be left
open at the end. -/
inductive Respaced : List Char → List Char → Prop where
  | nil : Respaced [] []
  | left {c : Char} {s t : List Char} (hc : isBlank c = true) (h : Respaced s t) :
      Respaced (c :: s) t
  | right {c : Char} {s t : List Char} (hc : isBlank c = true) (h : Respaced s t) :
      Respaced s (c :: t)
  | bracket {c : Char} {s t : List Char} (hc : isBracket c = true) (h : Respaced s t) :
      Respaced (c :: s) (c :: t)
  | symbol {name s t : List Char} (hname : isSymbolText name = true)
      (hblank : ∀ c ∈ name, isBlank c = false) (hs : startsWithItem s = false)
      (ht : startsWithItem t = false) (h : Respaced s t) : Respaced (name ++ s) (name ++ t)
  | text {content s t : List Char} (hcontent : '"' ∉ content) (h : Respaced s t) :
      Respaced ('"' :: (content ++ '"' :: s)) ('"' :: (content ++ '"' :: t))
  | unclosed {content : List Char} (hcontent : '"' ∉ content) :
      Respaced ('"' :: content) ('"' :: content)

theorem Respaced.symm {s t : List Char} (h : Respaced s t) : Respaced t s := by
  induction h with
  | nil => exact .nil
  | left hc _ ih => exact .right hc ih
  | right hc _ ih => exact .left hc ih
  | bracket hc _ ih => exact .bracket hc ih
  | symbol hname hblank hs ht _ ih => exact .symbol hname hblank ht hs ih
  | text hcontent _ ih => exact .text hcontent ih
  | unclosed hcontent => exact .unclosed hcontent

/-! ## Normalising -/

section Normalising

variable {s t : List Char}

/-- A blank leaves a space or nothing. -/
theorem Respaced.blank_left {c : Char} (hc : isBlank c = true)
    (h : ∀ after blank, Respaced (tightenBrackets after (squeezeBlanks blank s)) t)
    (after blank : Bool) :
    Respaced (tightenBrackets after (squeezeBlanks blank (c :: s))) t := by
  rw [squeezeBlanks, if_pos hc]
  cases blank with
  | true => exact h after true
  | false =>
    rw [if_neg (by simp), tightenBrackets]
    split
    · exact h false true
    · exact .left rfl (h false true)

/-- Where no item begins none begins in the normal form. -/
theorem startsWithItem_tighten_squeeze (h : startsWithItem s = false) :
    startsWithItem (tightenBrackets false (squeezeBlanks false s)) = false := by
  cases s with
  | nil => rfl
  | cons c s =>
    by_cases hblank : isBlank c = true
    · rw [squeezeBlanks, if_pos hblank, if_neg (by simp), tightenBrackets]
      generalize squeezeBlanks true s = k
      split
      · rename_i hdrop
        cases k with
        | nil => cases hdrop
        | cons d k =>
          have hd : isBracket d = true := hdrop
          rw [tightenBrackets_bracket hd]
          simp [startsWithItem, isItemChar, hd]
      · rfl
    · have hbracket : isBracket c = true := by simpa [startsWithItem, isItemChar, hblank] using h
      rw [squeezeBlanks, if_neg hblank, tightenBrackets_bracket hbracket]
      exact h

/-- What stands before and behind a character that is neither a space nor a bracket is tightened
apart. -/
theorem tightenBrackets_append_cons {c : Char} (hc : isDelimiter c = false) {xs k : List Char}
    (after : Bool) :
    tightenBrackets after (xs ++ c :: k) =
      tightenBrackets after xs ++ c :: tightenBrackets false k := by
  have hbracket : isBracket c = false := (Bool.or_eq_false_iff.mp hc).1
  induction xs generalizing after with
  | nil =>
    exact tightenBrackets_word (List.cons_ne_nil c []) (List.forall_mem_singleton.mpr hc) after
  | cons x xs ih =>
    have hstart : startsWithBracket (xs ++ c :: k) = startsWithBracket xs := by
      cases xs with
      | nil => exact hbracket
      | cons y xs => rfl
    rw [List.cons_append, tightenBrackets, tightenBrackets, hstart]
    split
    · exact ih false
    · rw [ih]
      rfl

/-- The normal form of what stands behind a quote. -/
theorem tighten_squeeze_quote (after blank : Bool) :
    tightenBrackets after (squeezeBlanks blank ('"' :: s)) =
      '"' :: tightenBrackets false (squeezeBlanks false s) := by
  have hquote : isDelimiter '"' = false := by decide
  rw [squeezeBlanks_cons (by decide)]
  exact @tightenBrackets_append_cons _ hquote [] _ after

/-- A text between quotes is brought to its normal form on its own. -/
theorem tighten_squeeze_text {content : List Char} (after blank : Bool) :
    tightenBrackets after (squeezeBlanks blank ('"' :: (content ++ '"' :: s))) =
      '"' :: (tightenBrackets false (squeezeBlanks false content) ++
        '"' :: tightenBrackets false (squeezeBlanks false s)) := by
  rw [tighten_squeeze_quote, squeezeBlanks_append (by decide),
    tightenBrackets_append_cons (by decide)]

theorem quote_not_mem_tighten_squeeze (h : '"' ∉ s) :
    '"' ∉ tightenBrackets false (squeezeBlanks false s) := by
  intro hmem
  rcases mem_squeezeBlanks ((tightenBrackets_sublist _ _).subset hmem) with hspace | ⟨hmem, -⟩
  · cases hspace
  · exact h hmem

/-- **Normalising keeps the items.** It does not matter what came before either text. -/
theorem Respaced.tighten_squeeze (h : Respaced s t) :
    ∀ after blank after' blank', Respaced (tightenBrackets after (squeezeBlanks blank s))
      (tightenBrackets after' (squeezeBlanks blank' t)) := by
  induction h with
  | nil =>
    intro after blank after' blank'
    exact .nil
  | left hc _ ih =>
    intro after blank after' blank'
    exact Respaced.blank_left hc (fun after blank => ih after blank after' blank') after blank
  | right hc _ ih =>
    intro after blank after' blank'
    refine (Respaced.blank_left hc (fun after' blank' => ?_) after' blank').symm
    exact (ih after blank after' blank').symm
  | bracket hc _ ih =>
    intro after blank after' blank'
    have hblank := isBlank_eq_false_of_isBracket hc
    rw [squeezeBlanks_cons hblank, squeezeBlanks_cons hblank, tightenBrackets_bracket hc,
      tightenBrackets_bracket hc]
    exact .bracket hc (ih true false true false)
  | @symbol name s t hname hblank hs ht _ ih =>
    intro after blank after' blank'
    have hne : name ≠ [] := by
      rintro rfl
      cases hname
    have hdelimiter := isDelimiter_of_isSymbolText hname
    rw [squeezeBlanks_append_left hne hblank, squeezeBlanks_append_left hne hblank,
      tightenBrackets_word hne hdelimiter, tightenBrackets_word hne hdelimiter]
    exact .symbol hname hblank (startsWithItem_tighten_squeeze hs)
      (startsWithItem_tighten_squeeze ht) (ih false false false false)
  | text hcontent _ ih =>
    intro after blank after' blank'
    rw [tighten_squeeze_text, tighten_squeeze_text]
    exact .text (quote_not_mem_tighten_squeeze hcontent) (ih false false false false)
  | unclosed hcontent =>
    intro after blank after' blank'
    rw [tighten_squeeze_quote, tighten_squeeze_quote]
    exact .unclosed (quote_not_mem_tighten_squeeze hcontent)

end Normalising

/-! ## Reading -/

section Reading

variable {globals : Scope} {s t : List Char}

/-- A delimiter stands where no item begins, if all blanks are separators. -/
theorem isDelimiter_of_startsWithItem (h : startsWithItem s = false)
    (hblank : ∀ c ∈ s, isBlank c = true → isSeparator c = true) :
    ∀ d ∈ s.head?, isDelimiter d = true := by
  intro d hd
  cases s with
  | nil => cases hd
  | cons c s =>
    obtain rfl : c = d := Option.some.inj hd
    rw [startsWithItem, isItemChar, Bool.and_eq_false_iff, Bool.not_eq_false', Bool.not_eq_false']
      at h
    rcases h with h | h
    · exact isDelimiter_of_isSeparator (hblank c List.mem_cons_self h)
    · rw [isDelimiter, h, Bool.true_or]

/-- What is read of two texts alike: the same error, or the same call and respaced rests. -/
def ReadAlike (r r' : Except Error (Call × List Char)) : Prop :=
  (∃ e, r = .error e ∧ r' = .error e) ∨
    ∃ c k k', r = .ok (c, k) ∧ r' = .ok (c, k') ∧ Respaced k k'

theorem ReadAlike.bind {r r' : Except Error (Call × List Char)}
    {f : Call × List Char → Except Error (Call × List Char)} (h : ReadAlike r r')
    (hf : ∀ c k k', r = .ok (c, k) → r' = .ok (c, k') → Respaced k k' →
      ReadAlike (f (c, k)) (f (c, k'))) : ReadAlike (r.bind f) (r'.bind f) := by
  rcases h with ⟨e, rfl, rfl⟩ | ⟨c, k, k', rfl, rfl, hk⟩
  · exact Or.inl ⟨e, rfl, rfl⟩
  · exact hf c k k' rfl rfl hk

/-- A call ends with a closing bracket. -/
theorem exists_append_of_readRest {parts : List Value} {cs rest : List Char} {c : Call}
    (h : readRest globals parts cs = .ok (c, rest)) : ∃ text, cs = text ++ ')' :: rest := by
  obtain ⟨-, text, hcut, -⟩ := writtenUpTo_of_readRest h
  exact ⟨text, hcut⟩

theorem exists_append_of_readCall {cs rest : List Char} {c : Call}
    (h : readCall globals cs = .ok (c, rest)) : ∃ text, cs = text ++ ')' :: rest := by
  cases cs with
  | nil => cases h
  | cons d cs =>
    rw [readCall] at h
    split at h
    · obtain ⟨text, rfl⟩ := exists_append_of_readRest h
      exact ⟨d :: text, rfl⟩
    · cases h

theorem ReadAlike.mapError {r r' : Except Error (Call × List Char)} (h : ReadAlike r r')
    (f : Error → Error) : ReadAlike (r.mapError f) (r'.mapError f) := by
  rcases h with ⟨e, rfl, rfl⟩ | ⟨c, k, k', rfl, rfl, hk⟩
  · exact Or.inl ⟨f e, rfl, rfl⟩
  · exact Or.inr ⟨c, k, k', rfl, rfl, hk⟩

/-- **Respaced texts are read alike**, if all their blanks are separators. -/
theorem Respaced.readRest {s t : List Char} (parts : List Value) (h : Respaced s t)
    (hs : ∀ c ∈ s, isBlank c = true → isSeparator c = true)
    (ht : ∀ c ∈ t, isBlank c = true → isSeparator c = true) :
    ReadAlike (readRest globals parts s) (readRest globals parts t) := by
  -- the reader goes on in both texts behind each item, and behind blanks in one of them
  cases h with
  | nil => exact Or.inl ⟨_, readRest_nil, readRest_nil⟩
  | @left c s _ hc h =>
    rw [readRest_separator (hs c List.mem_cons_self hc)]
    exact Respaced.readRest parts h (fun d hd => hs d (List.mem_cons_of_mem c hd)) ht
  | @right c _ t hc h =>
    rw [readRest_separator (ht c List.mem_cons_self hc)]
    exact Respaced.readRest parts h hs fun d hd => ht d (List.mem_cons_of_mem c hd)
  | @bracket c s t hc h =>
    have hs' : ∀ d ∈ s, isBlank d = true → isSeparator d = true :=
      fun d hd => hs d (List.mem_cons_of_mem c hd)
    have ht' : ∀ d ∈ t, isBlank d = true → isSeparator d = true :=
      fun d hd => ht d (List.mem_cons_of_mem c hd)
    rw [isBracket, Bool.or_eq_true, beq_iff_eq, beq_iff_eq] at hc
    rcases hc with rfl | rfl
    · rw [readRest_open, readRest_open]
      refine ((Respaced.readRest [] h hs' ht').mapError _).bind fun call k k' hk hk' hrest => ?_
      rw [mapError_eq_ok_iff] at hk hk'
      obtain ⟨text, rfl⟩ := exists_append_of_readRest hk
      obtain ⟨text', rfl⟩ := exists_append_of_readRest hk'
      exact Respaced.readRest _ hrest (fun d hd => hs' d (by simp [hd]))
        fun d hd => ht' d (by simp [hd])
    · rw [readRest_close, readRest_close]
      cases closeCall globals parts with
      | error e => exact Or.inl ⟨e, rfl, rfl⟩
      | ok call => exact Or.inr ⟨call, s, t, rfl, rfl, h⟩
  | @symbol name s t hname hblank hnext hnext' h =>
    have hs' : ∀ d ∈ s, isBlank d = true → isSeparator d = true :=
      fun d hd => hs d (List.mem_append_right name hd)
    have ht' : ∀ d ∈ t, isBlank d = true → isSeparator d = true :=
      fun d hd => ht d (List.mem_append_right name hd)
    rw [readRest_symbol hname (isDelimiter_of_startsWithItem hnext hs'),
      readRest_symbol hname (isDelimiter_of_startsWithItem hnext' ht')]
    -- a symbol has characters, so less is left to read
    have hpos : 0 < name.length := by
      obtain ⟨c, name, rfl⟩ := exists_cons_of_isSymbolText hname
      exact Nat.succ_pos _
    exact Respaced.readRest _ h hs' ht'
  | @text content s t hcontent h =>
    rw [readRest_text hcontent, readRest_text hcontent]
    exact Respaced.readRest _ h (fun d hd => hs d (by simp [hd])) fun d hd => ht d (by simp [hd])
  | @unclosed content hcontent =>
    exact Or.inl ⟨_, readRest_unclosed hcontent, readRest_unclosed hcontent⟩
termination_by s.length + t.length
decreasing_by
  all_goals
    subst_vars
    simp only [List.length_cons, List.length_append]
    omega

end Reading

/-! ## Running -/

/-- The first character that is no blank is the same in both texts. -/
theorem Respaced.head?_dropWhile {s t : List Char} (h : Respaced s t) :
    (s.dropWhile isBlank).head? = (t.dropWhile isBlank).head? := by
  induction h with
  | nil => rfl
  | left hc _ ih => rw [List.dropWhile_cons_of_pos hc, ih]
  | right hc _ ih => rw [List.dropWhile_cons_of_pos hc, ih]
  | @bracket c _ _ hc _ _ =>
    have hblank : ¬ isBlank c = true := by simp [isBlank_eq_false_of_isBracket hc]
    rw [List.dropWhile_cons_of_neg hblank, List.dropWhile_cons_of_neg hblank]
    rfl
  | symbol hname hblank _ _ _ _ =>
    obtain ⟨c, name, rfl⟩ := exists_cons_of_isSymbolText hname
    have hc : ¬ isBlank c = true := by simp [hblank c List.mem_cons_self]
    rw [List.cons_append, List.cons_append, List.dropWhile_cons_of_neg hc,
      List.dropWhile_cons_of_neg hc]
    rfl
  | text _ _ _ =>
    rw [List.dropWhile_cons_of_neg (by decide), List.dropWhile_cons_of_neg (by decide)]
    rfl
  | unclosed _ => rfl

/-- A normal form begins with a bracket if there is one behind its blanks. -/
theorem IsNormal.head?_eq_some_iff {s : List Char} (h : IsNormal s) :
    s.head? = some '(' ↔ (s.dropWhile isBlank).head? = some '(' := by
  cases s with
  | nil => rfl
  | cons c s =>
    by_cases hc : isBlank c = true
    · obtain rfl : c = ' ' := h.blank c List.mem_cons_self hc
      have hnext := (List.isChain_cons.mp h.spaces).1
      rw [List.dropWhile_cons_of_pos hc]
      constructor
      · intro hhead
        cases hhead
      · intro hhead
        cases s with
        | nil => cases hhead
        | cons d s =>
          -- behind the space stands neither a space nor a bracket
          obtain ⟨hspace, hbracket⟩ := (hnext d rfl).1 rfl
          have hd : ¬ isBlank d = true := fun hd => hspace (h.blank d (by simp) hd)
          rw [List.dropWhile_cons_of_neg hd] at hhead
          cases hhead
          cases hbracket
    · rw [List.dropWhile_cons_of_neg hc]

/-- Behind a bracket a normal form goes on without a space, so that no blanks are left there. -/
theorem Respaced.eq_nil_of_normal {text t : List Char} (h : Respaced [] t)
    (hnormal : IsNormal (text ++ ')' :: t)) : t = [] := by
  cases t with
  | nil => rfl
  | cons c t =>
    have hblank : isBlank c = true := by
      have hhead := h.head?_dropWhile
      by_cases hc : isBlank c = true
      · exact hc
      · rw [List.dropWhile_cons_of_neg hc] at hhead
        cases hhead
    obtain rfl : c = ' ' := hnormal.blank c (by simp) hblank
    have hspaces := List.isChain_append.mp hnormal.spaces
    have hfollow := (List.isChain_cons.mp hspaces.2.1).1 ' ' rfl
    cases hfollow.2 rfl

/-- The blanks of a normal form are separators. -/
theorem IsNormal.isSeparator {s : List Char} (h : IsNormal s) :
    ∀ c ∈ s, isBlank c = true → isSeparator c = true := by
  intro c hc hblank
  rw [h.blank c hc hblank]
  rfl

/-- The end of a normal form is a normal form. -/
theorem IsNormal.of_append {s t : List Char} (h : IsNormal (s ++ t)) : IsNormal t :=
  ⟨fun hmem => h.comment (List.mem_append_right s hmem),
    fun c hc => h.blank c (List.mem_append_right s hc), (List.isChain_append.mp h.spaces).2.1⟩

/-- What stands behind an opening bracket in both texts is respaced. -/
theorem Respaced.of_cons_open {s t : List Char} (h : Respaced ('(' :: s) ('(' :: t)) :
    Respaced s t := by
  generalize hs : '(' :: s = s' at h
  generalize ht : '(' :: t = t' at h
  cases h with
  | nil => cases hs
  | left hc _ =>
    cases hs
    cases hc
  | right hc _ =>
    cases ht
    cases hc
  | bracket _ h =>
    cases hs
    cases ht
    exact h
  | symbol hname _ _ _ _ =>
    obtain ⟨c, name, rfl⟩ := exists_cons_of_isSymbolText hname
    cases hs
    cases (isSymbolText_cons hname).1
  | text _ _ => cases hs
  | unclosed _ => cases hs

/-- **The blocks of respaced normal forms are read alike.** -/
theorem Respaced.readCall {globals : Scope} {s t : List Char} (h : Respaced s t) (hs : IsNormal s)
    (ht : IsNormal t) (hempty : s ≠ []) (hempty' : t ≠ []) :
    ReadAlike (readCall globals s) (readCall globals t) := by
  have hopen : s.head? = some '(' ↔ t.head? = some '(' := by
    rw [hs.head?_eq_some_iff, ht.head?_eq_some_iff, h.head?_dropWhile]
  obtain ⟨c, s, rfl⟩ := List.exists_cons_of_ne_nil hempty
  obtain ⟨d, t, rfl⟩ := List.exists_cons_of_ne_nil hempty'
  rw [List.head?_cons, List.head?_cons, Option.some.injEq, Option.some.injEq] at hopen
  by_cases hc : c = '('
  · obtain rfl : d = '(' := hopen.mp hc
    subst hc
    exact Respaced.readRest [] h.of_cons_open
      (fun c hc => hs.isSeparator c (List.mem_cons_of_mem _ hc))
      fun c hc => ht.isSeparator c (List.mem_cons_of_mem _ hc)
  · have hd : ¬ d = '(' := fun hd => hc (hopen.mpr hd)
    refine Or.inl ⟨.missingOpen, ?_, ?_⟩
    · rw [MiniLisp.readCall, if_neg (by simpa using hc)]
    · rw [MiniLisp.readCall, if_neg (by simpa using hd)]

/-- **The blocks of respaced normal forms run alike.** A text of blanks is no program, so both
texts must be empty if one is. -/
theorem Respaced.runBlocks {files : Files} (n : Nat) :
    ∀ {w : World} {last : Value} {s t : List Char}, Respaced s t → IsNormal s →
      IsNormal t → (s = [] ↔ t = []) → runBlocks files n w last s = runBlocks files n w last t := by
  induction n with
  | zero =>
    intro w last s t _ _ _ _
    rw [runBlocks_zero, runBlocks_zero]
  | succ n ih =>
    intro w last s t h hs ht hnil
    by_cases hempty : s = []
    · rw [hempty, hnil.mp hempty]
    have hempty' : t ≠ [] := fun heq => hempty (hnil.mpr heq)
    have halike : ReadAlike (MiniLisp.readCall w.globals s) (MiniLisp.readCall w.globals t) :=
      h.readCall hs ht hempty hempty'
    rcases halike with ⟨e, hread, hread'⟩ | ⟨c, k, k', hread, hread', hrest⟩
    · rw [runBlocks_succ_error hempty hread, runBlocks_succ_error hempty' hread']
    · obtain ⟨text, rfl⟩ := exists_append_of_readCall hread
      obtain ⟨text', rfl⟩ := exists_append_of_readCall hread'
      have hnil : k = [] ↔ k' = [] := by
        constructor
        · rintro rfl
          exact hrest.eq_nil_of_normal ht
        · rintro rfl
          exact hrest.symm.eq_nil_of_normal hs
      have hk : IsNormal k := by
        rw [List.append_cons] at hs
        exact hs.of_append
      have hk' : IsNormal k' := by
        rw [List.append_cons] at ht
        exact ht.of_append
      rw [runBlocks_succ_ok hempty hread, runBlocks_succ_ok hempty' hread']
      congr 1
      funext w v
      exact ih hrest hk hk' hnil

end MiniLisp

import MiniLisp.Proofs.Reading.NormalForm

/-!
# Comments

A comment begins with `#` and goes up to the end of its line. `withoutComments` takes the comments
out line by line and leaves the ends of the lines; normalising takes these out too where a comment
stands before them. Apart from line ends the two leave the same characters
(`filter_dropComments`). Hence the normal form has the brackets that the text has outside comments,
in the same order (`normalise_has_normal_form`).
-/

namespace MiniLisp

open Source

/-- The text without its comments. The ends of the lines stay. -/
def withoutComments (cs : List Char) : List Char :=
  ['\n'].intercalate ((cs.splitOn '\n').map fun line => line.takeWhile (· != '#'))

/-! ## Line by line -/

section Lines

variable {line : List Char}

theorem withoutComments_line (h : '\n' ∉ line) :
    withoutComments line = line.takeWhile (· != '#') := by
  rw [withoutComments, List.splitOn_eq_singleton h]
  simp [List.intercalate]

theorem withoutComments_append (h : '\n' ∉ line) (cs : List Char) :
    withoutComments (line ++ '\n' :: cs) =
      line.takeWhile (· != '#') ++ '\n' :: withoutComments cs := by
  rw [withoutComments, withoutComments, List.splitOn_append_cons_self_of_not_mem h, List.map_cons]
  obtain ⟨first, lines, hlines⟩ := List.exists_cons_of_ne_nil (List.splitOn_ne_nil '\n' cs)
  rw [hlines, List.map_cons, List.intercalate_cons_cons]
  simp

/-- Inside a comment the text goes on with the next line. -/
theorem dropComments_inside_append (h : '\n' ∉ line) (cs : List Char) :
    dropComments true (line ++ '\n' :: cs) = dropComments false cs := by
  induction line with
  | nil => rfl
  | cons c line ih =>
    rw [List.mem_cons, not_or] at h
    have hc : (c != '\n') = true := bne_iff_ne.mpr (Ne.symm h.1)
    rw [List.cons_append, dropComments, if_pos rfl, hc, ih h.2]

theorem dropComments_inside_line (h : '\n' ∉ line) : dropComments true line = [] := by
  induction line with
  | nil => rfl
  | cons c line ih =>
    rw [List.mem_cons, not_or] at h
    have hc : (c != '\n') = true := bne_iff_ne.mpr (Ne.symm h.1)
    rw [dropComments, if_pos rfl, hc, ih h.2]

/-- What stands before a comment stays. -/
theorem dropComments_append {code : List Char} (h : '#' ∉ code) (cs : List Char) :
    dropComments false (code ++ cs) = code ++ dropComments false cs := by
  induction code with
  | nil => rfl
  | cons c code ih =>
    rw [List.mem_cons, not_or] at h
    have hc : ¬ (c == '#') = true := fun heq => h.1 (eq_of_beq heq).symm
    rw [List.cons_append, dropComments, if_neg (by simp), if_neg hc, ih h.2]
    rfl

end Lines

/-- A text is a single line, or a line and what stands behind its end. -/
theorem line_cases (cs : List Char) :
    '\n' ∉ cs ∨ ∃ line rest, cs = line ++ '\n' :: rest ∧ '\n' ∉ line := by
  by_cases h : '\n' ∈ cs
  · obtain ⟨line, rest, hcut, hline⟩ := List.eq_append_cons_of_mem h
    exact Or.inr ⟨line, rest, hcut, hline⟩
  · exact Or.inl h

/-! ## What comments leave -/

/-- Outside comments the two ways to take them out go through the same characters. -/
theorem withoutComments_cons {c : Char} (hc : c ≠ '#') (cs : List Char) :
    withoutComments (c :: cs) = c :: withoutComments cs := by
  by_cases hend : c = '\n'
  · subst hend
    exact @withoutComments_append [] (by simp) cs
  have htake : ∀ line : List Char,
      (c :: line).takeWhile (· != '#') = c :: line.takeWhile (· != '#') :=
    fun line => List.takeWhile_cons_of_pos (bne_iff_ne.mpr hc)
  rcases line_cases cs with hline | ⟨line, rest, rfl, hline⟩
  · rw [withoutComments_line hline, ← htake]
    exact withoutComments_line (by simp [Ne.symm hend, hline])
  · rw [withoutComments_append hline, ← List.cons_append, ← List.cons_append, ← htake]
    exact withoutComments_append (by simp [Ne.symm hend, hline]) rest

/-- The first comment of a text that begins with one: up to the end of its line, or to the end of
the text. -/
theorem comment_cases (cs : List Char) :
    (dropComments false ('#' :: cs) = [] ∧ withoutComments ('#' :: cs) = [] ∧ '\n' ∉ cs) ∨
      ∃ line rest, cs = line ++ '\n' :: rest ∧ '\n' ∉ line ∧
        dropComments false ('#' :: cs) = dropComments false rest ∧
          withoutComments ('#' :: cs) = '\n' :: withoutComments rest := by
  have hdrop : dropComments false ('#' :: cs) = dropComments true cs := rfl
  rw [hdrop]
  rcases line_cases cs with hline | ⟨line, rest, rfl, hline⟩
  · refine Or.inl ⟨dropComments_inside_line hline, ?_, hline⟩
    rw [withoutComments_line (by simp [hline])]
    rfl
  · refine Or.inr ⟨line, rest, rfl, hline, dropComments_inside_append hline rest, ?_⟩
    exact @withoutComments_append ('#' :: line) (by simp [hline]) rest

/-- The characters of a comment are passed over one by one. -/
theorem withoutComments_comment {c : Char} (hc : c ≠ '\n') (cs : List Char) :
    withoutComments ('#' :: c :: cs) = withoutComments ('#' :: cs) := by
  rcases line_cases cs with hline | ⟨line, rest, rfl, hline⟩
  · rw [withoutComments_line (by simp [Ne.symm hc, hline]), withoutComments_line (by simp [hline])]
    rfl
  · rw [← List.cons_append, ← List.cons_append, ← List.cons_append,
      withoutComments_append (by simp [Ne.symm hc, hline]),
      withoutComments_append (by simp [hline])]
    rfl

/-- Apart from line ends both ways to take comments out leave the same characters, from outside a
comment and from inside one. -/
theorem filter_dropComments_or {p : Char → Bool} (hp : p '\n' = false) (inside : Bool)
    (cs : List Char) :
    (dropComments inside cs).filter p =
      (withoutComments (if inside = true then '#' :: cs else cs)).filter p := by
  induction cs generalizing inside with
  | nil => cases inside <;> rfl
  | cons c cs ih =>
    cases inside with
    | true =>
      rw [dropComments, if_pos rfl, if_pos rfl]
      by_cases hc : c = '\n'
      · subst hc
        have hw : withoutComments ('#' :: '\n' :: cs) = '\n' :: withoutComments cs :=
          @withoutComments_append ['#'] (by simp) cs
        rw [hw, List.filter_cons_of_neg (by simp [hp])]
        exact ih false
      · rw [bne_iff_ne.mpr hc, withoutComments_comment hc]
        exact ih true
    | false =>
      rw [if_neg Bool.false_ne_true]
      by_cases hc : c = '#'
      · subst hc
        exact ih true
      · have hd : dropComments false (c :: cs) = c :: dropComments false cs :=
          @dropComments_append [c] (by simp [Ne.symm hc]) cs
        rw [hd, withoutComments_cons hc, List.filter_cons, List.filter_cons, ih false]
        rfl

/-- Apart from line ends both ways to take comments out leave the same characters. -/
theorem filter_dropComments {p : Char → Bool} (hp : p '\n' = false) (cs : List Char) :
    (dropComments false cs).filter p = (withoutComments cs).filter p :=
  filter_dropComments_or hp false cs

/-! ## Brackets -/

theorem filter_squeezeBlanks (after : Bool) (cs : List Char) :
    (squeezeBlanks after cs).filter isBracket = cs.filter isBracket := by
  induction cs generalizing after with
  | nil => rfl
  | cons c cs ih =>
    by_cases hc : isBlank c = true
    · have hbracket : ¬ isBracket c = true := by
        intro h
        rw [isBlank_eq_false_of_isBracket h] at hc
        cases hc
      rw [squeezeBlanks, if_pos hc, List.filter_cons_of_neg hbracket]
      cases after with
      | true => exact ih true
      | false =>
        rw [if_neg (by simp), List.filter_cons_of_neg (by decide)]
        exact ih true
    · rw [squeezeBlanks, if_neg hc, List.filter_cons, List.filter_cons, ih]

theorem filter_tightenBrackets (after : Bool) (cs : List Char) :
    (tightenBrackets after cs).filter isBracket = cs.filter isBracket := by
  induction cs generalizing after with
  | nil => rfl
  | cons c cs ih =>
    rw [tightenBrackets]
    by_cases hdrop : (c == ' ' && (after || startsWithBracket cs)) = true
    · rw [if_pos hdrop, ih, eq_of_beq (Bool.and_eq_true_iff.mp hdrop).1,
        List.filter_cons_of_neg (by decide)]
    · rw [if_neg hdrop, List.filter_cons, List.filter_cons, ih]

/-- **The normal form of a text.** It has no comment and no blank but the space, no two spaces
follow each other, and none stands next to a bracket; its brackets are those that the text has
outside comments, in their order; and normalising it again does not change it. -/
theorem normalise_has_normal_form (cs : List Char) :
    '#' ∉ normalise cs ∧ (∀ c ∈ normalise cs, isBlank c = true → c = ' ') ∧
      ¬ [' ', ' '] <:+: normalise cs ∧
      (∀ b, isBracket b = true →
        ¬ [b, ' '] <:+: normalise cs ∧ ¬ [' ', b] <:+: normalise cs) ∧
      (normalise cs).filter isBracket = (withoutComments cs).filter isBracket ∧
      normalise (normalise cs) = normalise cs := by
  have hnormal : IsNormal (normalise cs) := isNormal_normalise cs
  refine ⟨hnormal.comment, hnormal.blank, hnormal.single, fun b hb => ?_, ?_,
    normalise_normalise cs⟩
  · constructor
    · intro h
      have hfollow := (hnormal.mayFollow h).2 rfl
      rw [hb] at hfollow
      cases hfollow
    · intro h
      have hfollow := ((hnormal.mayFollow h).1 rfl).2
      rw [hb] at hfollow
      cases hfollow
  · rw [normalise, filter_tightenBrackets, filter_squeezeBlanks,
      filter_dropComments (by decide) cs]

end MiniLisp

import Mathlib.Data.List.Chain
import MiniLisp.Proofs.Reading.Layout

/-!
# Normal forms

A text is in normal form if it has no comment, no blank but the space, and no space next to a
bracket or to another space (`IsNormal`). Normalising brings every text to such a form
(`isNormal_normalise`) and leaves a text that has it as it is (`IsNormal.normalise_eq_self`). So the
normal forms are the texts that normalising does not change, and two of them can be put together
unless a space at the seam meets a bracket or a space (`IsNormal.append`).
-/

namespace MiniLisp

open Source

/-- The character `d` may follow `c` in a normal form: a space follows neither a bracket nor a
space, and no bracket follows a space. -/
def MayFollow (c d : Char) : Prop :=
  (c = ' ' → d ≠ ' ' ∧ isBracket d = false) ∧ (d = ' ' → isBracket c = false)

/-- A text in normal form. -/
structure IsNormal (cs : List Char) : Prop where
  comment : '#' ∉ cs
  blank : ∀ c ∈ cs, isBlank c = true → c = ' '
  spaces : cs.IsChain MayFollow

/-! ## What the passes leave -/

theorem not_mem_dropComments (inside : Bool) (cs : List Char) :
    '#' ∉ dropComments inside cs := by
  induction cs generalizing inside with
  | nil => simp [dropComments]
  | cons c cs ih =>
    rw [dropComments]
    split
    · exact ih _
    · split
      · exact ih _
      · rename_i hc
        intro hmem
        rcases List.mem_cons.mp hmem with rfl | hmem
        · exact hc rfl
        · exact ih _ hmem

/-- Squeezing blanks leaves spaces, and characters of the text that are no blanks. -/
theorem mem_squeezeBlanks {c : Char} {after : Bool} {cs : List Char}
    (h : c ∈ squeezeBlanks after cs) : c = ' ' ∨ c ∈ cs ∧ isBlank c = false := by
  have hlater : ∀ {d : Char} {cs : List Char}, c = ' ' ∨ c ∈ cs ∧ isBlank c = false →
      c = ' ' ∨ c ∈ d :: cs ∧ isBlank c = false :=
    fun h => h.imp_right fun h => ⟨List.mem_cons_of_mem _ h.1, h.2⟩
  induction cs generalizing after with
  | nil => cases h
  | cons d cs ih =>
    rw [squeezeBlanks] at h
    split at h
    · split at h
      · exact hlater (ih h)
      · rcases List.mem_cons.mp h with rfl | h
        · exact Or.inl rfl
        · exact hlater (ih h)
    · rename_i hd
      rcases List.mem_cons.mp h with rfl | h
      · exact Or.inr ⟨List.mem_cons_self, by simpa using hd⟩
      · exact hlater (ih h)

/-- Squeezing blanks leaves no space behind a space, nor at the beginning if a blank came before. -/
theorem squeezeBlanks_spaces (after : Bool) (cs : List Char) :
    (squeezeBlanks after cs).IsChain (fun c d => c = ' ' → d ≠ ' ') ∧
      (after = true → (squeezeBlanks after cs).head? ≠ some ' ') := by
  induction cs generalizing after with
  | nil => simp [squeezeBlanks]
  | cons c cs ih =>
    rw [squeezeBlanks]
    by_cases hc : isBlank c = true
    · rw [if_pos hc]
      obtain ⟨hchain, hhead⟩ := ih true
      cases after with
      | true => exact ⟨hchain, hhead⟩
      | false =>
        refine ⟨List.isChain_cons.mpr ⟨fun d hd _ hspace => ?_, hchain⟩, by simp⟩
        rw [hspace] at hd
        exact hhead rfl hd
    · rw [if_neg hc]
      have hspace : c ≠ ' ' := by
        rintro rfl
        exact hc rfl
      refine ⟨List.isChain_cons.mpr ⟨fun d _ h => absurd h hspace, (ih false).1⟩, fun _ => ?_⟩
      rw [List.head?_cons]
      exact fun h => hspace (Option.some.inj h)

/-- Tightening takes characters out and adds none. -/
theorem tightenBrackets_sublist (after : Bool) (cs : List Char) :
    (tightenBrackets after cs).Sublist cs := by
  induction cs generalizing after with
  | nil => exact List.Sublist.slnil
  | cons c cs ih =>
    rw [tightenBrackets]
    split
    · exact (ih _).cons c
    · exact (ih _).cons_cons c

/-- A text that does not begin with a space keeps its first character. -/
theorem head?_tightenBrackets {cs : List Char} (h : cs.head? ≠ some ' ') (after : Bool) :
    (tightenBrackets after cs).head? = cs.head? := by
  cases cs with
  | nil => rfl
  | cons c cs =>
    have hc : ¬ (c == ' ' && (after || startsWithBracket cs)) = true := by
      intro hdrop
      rw [eq_of_beq (Bool.and_eq_true_iff.mp hdrop).1] at h
      exact h rfl
    rw [tightenBrackets, if_neg hc]
    rfl

/-- Tightening leaves no space next to a bracket, nor at the beginning if a bracket came before. -/
theorem tightenBrackets_spaces {cs : List Char}
    (hsingle : cs.IsChain (fun c d => c = ' ' → d ≠ ' ')) (after : Bool) :
    (tightenBrackets after cs).IsChain MayFollow ∧
      (after = true → (tightenBrackets after cs).head? ≠ some ' ') := by
  induction cs generalizing after with
  | nil => simp [tightenBrackets]
  | cons c cs ih =>
    obtain ⟨hnext, hrest⟩ := List.isChain_cons.mp hsingle
    -- behind a space the text goes on with another character, which stays
    have hhead : c = ' ' → ∀ after, (tightenBrackets after cs).head? = cs.head? :=
      fun hc => head?_tightenBrackets fun h => hnext ' ' h hc rfl
    rw [tightenBrackets]
    by_cases hdrop : (c == ' ' && (after || startsWithBracket cs)) = true
    · rw [if_pos hdrop]
      have hc : c = ' ' := eq_of_beq (Bool.and_eq_true_iff.mp hdrop).1
      refine ⟨(ih hrest false).1, fun _ => ?_⟩
      rw [hhead hc]
      exact fun h => hnext ' ' h hc rfl
    · rw [if_neg hdrop]
      obtain ⟨hchain, hfirst⟩ := ih hrest (isBracket c)
      refine ⟨List.isChain_cons.mpr ⟨fun d hd => ⟨fun hc => ?_, fun hspace => ?_⟩, hchain⟩, ?_⟩
      · rw [hhead hc] at hd
        refine ⟨hnext d hd hc, ?_⟩
        have hbracket : startsWithBracket cs = false := by
          rw [Bool.eq_false_iff]
          exact fun h => hdrop (by simp [hc, h])
        cases cs with
        | nil => cases hd
        | cons e cs =>
          cases hd
          exact hbracket
      · rw [Bool.eq_false_iff]
        intro hbracket
        rw [hspace] at hd
        exact hfirst hbracket hd
      · rintro rfl
        rw [List.head?_cons]
        intro h
        rw [Option.some.inj h] at hdrop
        simp at hdrop

/-- **A normal form is in normal form.** -/
theorem isNormal_normalise (cs : List Char) : IsNormal (normalise cs) := by
  have hmem : ∀ c ∈ normalise cs, c = ' ' ∨ c ∈ dropComments false cs ∧ isBlank c = false :=
    fun c hc => mem_squeezeBlanks ((tightenBrackets_sublist _ _).subset hc)
  refine ⟨fun h => ?_, fun c hc hblank => ?_,
    (tightenBrackets_spaces (squeezeBlanks_spaces false _).1 false).1⟩
  · rcases hmem '#' h with h | ⟨h, -⟩
    · cases h
    · exact not_mem_dropComments false cs h
  · rcases hmem c hc with h | ⟨-, h⟩
    · exact h
    · rw [hblank] at h
      cases h

/-! ## Texts that normalising leaves alone -/

theorem tightenBrackets_eq_self {cs : List Char} (h : cs.IsChain MayFollow) (after : Bool)
    (hafter : after = true → cs.head? ≠ some ' ') : tightenBrackets after cs = cs := by
  induction cs generalizing after with
  | nil => rfl
  | cons c cs ih =>
    obtain ⟨hnext, hrest⟩ := List.isChain_cons.mp h
    have hkeep : ¬ (c == ' ' && (after || startsWithBracket cs)) = true := by
      intro hdrop
      rw [Bool.and_eq_true, Bool.or_eq_true, beq_iff_eq] at hdrop
      obtain ⟨rfl, rfl | hbracket⟩ := hdrop
      · exact hafter rfl rfl
      · cases cs with
        | nil => cases hbracket
        | cons d cs =>
          have hd := ((hnext d rfl).1 rfl).2
          rw [startsWithBracket, hd] at hbracket
          cases hbracket
    rw [tightenBrackets, if_neg hkeep, ih hrest]
    intro hbracket hhead
    have hc := (hnext ' ' hhead).2 rfl
    rw [hbracket] at hc
    cases hc

/-- Characters that stand next to each other in a normal form may do so. -/
theorem IsNormal.mayFollow {cs : List Char} {c d : Char} (h : IsNormal cs)
    (hpair : [c, d] <:+: cs) : MayFollow c d := by
  obtain ⟨before, behind, rfl⟩ := hpair
  exact List.isChain_pair.mp h.spaces.left_of_append.right_of_append

theorem IsNormal.single {cs : List Char} (h : IsNormal cs) : ¬ [' ', ' '] <:+: cs :=
  fun hpair => ((h.mayFollow hpair).1 rfl).1 rfl

theorem IsNormal.normalise_eq_self {cs : List Char} (h : IsNormal cs) : normalise cs = cs := by
  rw [normalise, dropComments_eq_self h.comment, squeezeBlanks_eq_self h.blank h.single,
    tightenBrackets_eq_self h.spaces false (by simp)]

/-- The normal forms are the texts that normalising does not change. -/
theorem normalise_eq_self_iff {cs : List Char} : normalise cs = cs ↔ IsNormal cs :=
  ⟨fun h => h ▸ isNormal_normalise cs, IsNormal.normalise_eq_self⟩

@[simp] theorem normalise_normalise (cs : List Char) : normalise (normalise cs) = normalise cs :=
  (isNormal_normalise cs).normalise_eq_self

/-- Normal forms can be put together if the two characters at the seam may follow each other. -/
theorem IsNormal.append {a b : List Char} (ha : IsNormal a) (hb : IsNormal b)
    (hseam : ∀ c ∈ a.getLast?, ∀ d ∈ b.head?, MayFollow c d) : IsNormal (a ++ b) := by
  refine ⟨?_, ?_, List.isChain_append.mpr ⟨ha.spaces, hb.spaces, hseam⟩⟩
  · rw [List.mem_append]
    exact fun h => h.elim ha.comment hb.comment
  · intro c hc
    rcases List.mem_append.mp hc with hc | hc
    · exact ha.blank c hc
    · exact hb.blank c hc

end MiniLisp

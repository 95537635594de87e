import MiniLisp.Proofs.Import
import MiniLisp.Proofs.Reading.Comments

/-!
# Programs without code

A text without code consists of comments and of blanks outside them (`Codeless`). What becomes of it
depends on these blanks: without any, normalising leaves nothing and the text does nothing, and
otherwise a space is left, which is not the beginning of a call (`Codeless.normalise_eq`). The line
feed at the end of a comment belongs to the comment. So comments on lines of their own do nothing,
while an empty line between them is an error, and so is importing such a file
(`codeless_text_runs`).
-/

namespace MiniLisp

open Source

/-- A text is made of comments, each up to and including the end of its line, and of blanks. Those
that stand outside the comments are `blanks`. -/
inductive Codeless : (text blanks : List Char) → Prop where
  | nil : Codeless [] []
  | blank {c : Char} {text blanks : List Char} (hc : isBlank c = true) (h : Codeless text blanks) :
      Codeless (c :: text) (c :: blanks)
  | comment {line text blanks : List Char} (hline : '\n' ∉ line) (h : Codeless text blanks) :
      Codeless ('#' :: (line ++ '\n' :: text)) blanks
  /-- A comment in the last line, which is not ended. -/
  | lastComment {line : List Char} (hline : '\n' ∉ line) : Codeless ('#' :: line) []

/-! ## Normal forms -/

namespace Codeless

variable {text blanks : List Char}

theorem isBlank_of_mem (h : Codeless text blanks) : ∀ c ∈ blanks, isBlank c = true := by
  induction h with
  | nil => simp
  | blank hc _ ih => exact List.forall_mem_cons.mpr ⟨hc, ih⟩
  | comment _ _ ih => exact ih
  | lastComment _ => simp

/-- Without its comments, a text without code consists of its blanks. -/
theorem dropComments_eq (h : Codeless text blanks) : dropComments false text = blanks := by
  induction h with
  | nil => rfl
  | @blank c text blanks hc _ ih =>
    have hcomment : '#' ∉ [c] := by
      intro hmem
      rw [← List.mem_singleton.mp hmem] at hc
      cases hc
    have happend := dropComments_append hcomment text
    rw [ih] at happend
    exact happend
  | comment hline _ ih => exact (dropComments_inside_append hline _).trans ih
  | lastComment hline => exact dropComments_inside_line hline

end Codeless

theorem squeezeBlanks_blanks {cs : List Char} (h : ∀ c ∈ cs, isBlank c = true) :
    squeezeBlanks true cs = [] := by
  induction cs with
  | nil => rfl
  | cons c cs ih =>
    obtain ⟨hc, hcs⟩ := List.forall_mem_cons.mp h
    rw [squeezeBlanks, if_pos hc, if_pos rfl, ih hcs]

/-- **The normal form of a text without code** is a space if there are blanks outside the comments,
and nothing otherwise. -/
theorem Codeless.normalise_eq {text blanks : List Char} (h : Codeless text blanks) :
    normalise text = if blanks = [] then [] else [' '] := by
  rw [normalise, h.dropComments_eq]
  cases blanks with
  | nil => rfl
  | cons c blanks =>
    obtain ⟨hc, hrest⟩ := List.forall_mem_cons.mp h.isBlank_of_mem
    rw [squeezeBlanks, if_pos hc, if_neg (by simp), squeezeBlanks_blanks hrest,
      if_neg (List.cons_ne_nil c blanks)]
    rfl

/-! ## Runs -/

/-- What running a text without code leads to: it does nothing, or there is something that is not a
call. -/
def codelessOutcome (w : World) (blanks : List Char) : Outcome :=
  if blanks = [] then ⟨w, .value .none⟩ else ⟨w, .failed .missingOpen⟩

section Runs

variable {files : Files} {w : World} {text blanks : List Char} {path : String}

theorem Codeless.runText_eq (h : Codeless text blanks) (files : Files) (w : World) (n : Nat) :
    runText files (n + 1) w text = codelessOutcome w blanks := by
  rw [runText, h.normalise_eq, codelessOutcome]
  by_cases hblanks : blanks = []
  · rw [if_pos hblanks, if_pos hblanks, runBlocks_succ_nil]
  · rw [if_neg hblanks, if_neg hblanks, runBlocks_succ_error (List.cons_ne_nil _ _) rfl]

theorem Codeless.textEnds (h : Codeless text blanks) (files : Files) (w : World) :
    TextEnds files w text (codelessOutcome w blanks) := by
  refine ⟨?_, 1, h.runText_eq files w 0⟩
  rw [codelessOutcome]
  split <;> rfl

/-- A call of `import` fails with the text of its file. -/
theorem ends_start_loading_failed_iff {w1 : World} {e : Error} {script : Bool} {scope : Scope}
    {o : Outcome} (hfile : files.read? path = some text)
    (hrun : TextEnds files w text ⟨w1, .failed e⟩) :
    Ends files w (.start (.loading script path) scope) o ↔ o = ⟨w1, .failed e⟩ := by
  rw [State.start, ends_load_iff (step_loading hfile [])]
  constructor
  · rintro (⟨w2, e', -, hfail⟩ | ⟨w2, v, hval, -⟩)
    · exact BlocksEnd.unique hfail hrun
    · cases BlocksEnd.unique hval hrun
  · rintro rfl
    exact Or.inl ⟨w1, e, rfl, hrun⟩

theorem Codeless.ends_loading_iff (h : Codeless text blanks) (hfile : files.read? path = some text)
    (script : Bool) (scope : Scope) (o : Outcome) :
    Ends files w (.start (.loading script path) scope) o ↔ o = codelessOutcome w blanks := by
  have hrun := h.textEnds files w
  by_cases hblanks : blanks = []
  · rw [codelessOutcome, if_pos hblanks] at hrun ⊢
    exact ends_start_loading_iff hfile hrun
  · rw [codelessOutcome, if_neg hblanks] at hrun ⊢
    exact ends_start_loading_failed_iff hfile hrun

end Runs

/-- **A program without code does nothing, unless there are blanks outside its comments.** Let a
text be made of comments and of blanks, in any number, order and layout. If no blank stands outside
the comments, running it has the value none and leaves the world as it is: nothing is written and
nothing is bound; and a call of `import` with a file of this text has the value none and leaves the
world as it is. If a blank stands outside the comments both are refused, because a call must begin
with an opening bracket, and also leave the world as it is. -/
theorem codeless_text_runs {text blanks : List Char} (h : Codeless text blanks) (files : Files)
    (w : World) :
    (blanks = [] →
      (∀ n, runText files (n + 1) w text = ⟨w, .value .none⟩) ∧
        ∀ script path scope o, files.read? path = some text →
          (Ends files w (.start (.loading script path) scope) o ↔ o = ⟨w, .value .none⟩)) ∧
      (blanks ≠ [] →
        (∀ n, runText files (n + 1) w text = ⟨w, .failed .missingOpen⟩) ∧
          ∀ script path scope o, files.read? path = some text →
            (Ends files w (.start (.loading script path) scope) o ↔
              o = ⟨w, .failed .missingOpen⟩)) := by
  constructor
  · intro hblanks
    have hout : codelessOutcome w blanks = ⟨w, .value .none⟩ := if_pos hblanks
    rw [← hout]
    exact ⟨h.runText_eq files w, fun script _ scope o hfile =>
      h.ends_loading_iff hfile script scope o⟩
  · intro hblanks
    have hout : codelessOutcome w blanks = ⟨w, .failed .missingOpen⟩ := if_neg hblanks
    rw [← hout]
    exact ⟨h.runText_eq files w, fun script _ scope o hfile =>
      h.ends_loading_iff hfile script scope o⟩

/-- Two comments, once on lines that follow each other and once with an empty line between them. -/
theorem codeless_text_runs_lines :
    let w : World := World.start false
    let text : List Char := ['#', 'a', '\n', '#', '(', 'b']
    let spaced : List Char := ['#', 'a', '\n', '\n', '#', '(', 'b']
    let files : Files := .ofList [("a", String.ofList text), ("b", String.ofList spaced)]
    Codeless text [] ∧ Codeless spaced ['\n'] ∧
      runText files 1 w text = ⟨w, .value .none⟩ ∧
      Ends files w (.start (.loading false "a") []) ⟨w, .value .none⟩ ∧
      runText files 1 w spaced = ⟨w, .failed .missingOpen⟩ ∧
      Ends files w (.start (.loading false "b") []) ⟨w, .failed .missingOpen⟩ := by
  intro w text spaced files
  have hlast : Codeless ['#', '(', 'b'] [] := .lastComment (by decide)
  have htext : Codeless text [] := @Codeless.comment ['a'] _ _ (by decide) hlast
  have hspaced : Codeless spaced ['\n'] :=
    @Codeless.comment ['a'] _ _ (by decide) (.blank rfl hlast)
  have hread : files.read? "a" = some text := by decide +kernel
  have hread' : files.read? "b" = some spaced := by decide +kernel
  obtain ⟨hrun, himport⟩ := (codeless_text_runs htext files w).1 rfl
  obtain ⟨hrun', himport'⟩ := (codeless_text_runs hspaced files w).2 (by decide)
  exact ⟨htext, hspaced, hrun 0, (himport _ _ _ _ hread).mpr rfl, hrun' 0,
    (himport' _ _ _ _ hread').mpr rfl⟩

end MiniLisp

import MiniLisp.Proofs.History
import MiniLisp.Proofs.Reading.NormalForm

/-!
# Programs one behind the other

A text is read and run block after block, each block under the functions that the blocks before it
have left. `BlocksRun` is this loop for texts that are run to their end. A text that is run to its
end can be followed by any other: the two together do what the second does in the world that the
first leaves (`BlocksRun.blocksEnd_append_iff`). For program texts there is the seam to look at,
where normalising might change something; `runText_append` says that it does not.
-/

namespace MiniLisp

open Source

/-- Running a text in a world ends with an outcome. -/
def TextEnds (files : Files) (w : World) (text : List Char) (o : Outcome) : Prop :=
  EndsWith (fun n => runText files n w text) o

/-! ## Block after block -/

/-- The blocks of a text are run to the last one. -/
inductive BlocksRun (files : Files) : World → Value → List Char → World → Value → Prop where
  | nil {w : World} {last : Value} : BlocksRun files w last [] w last
  | cons {w w1 w2 : World} {last v r : Value} {cs rest : List Char} {c : Call}
      (hread : readCall w.globals cs = .ok (c, rest))
      (hends : Ends files w.startBlock (.start c []) ⟨w1, .value v⟩)
      (hrest : BlocksRun files w1 v rest w2 r) : BlocksRun files w last cs w2 r

section Blocks

variable {files : Files} {w w1 : World} {last r : Value} {cs rest : List Char} {c : Call}

theorem ne_nil_of_readCall {globals : Scope} (h : readCall globals cs = .ok (c, rest)) :
    cs ≠ [] := by
  rintro rfl
  cases h

/-- A text has a value exactly if its blocks are run to the last one. -/
theorem blocksEnd_value_iff :
    BlocksEnd files w last cs ⟨w1, .value r⟩ ↔ BlocksRun files w last cs w1 r := by
  constructor
  · rintro ⟨-, n, hn⟩
    dsimp only at hn
    induction n generalizing w last cs with
    | zero =>
      rw [runBlocks_zero] at hn
      cases hn
    | succ n ih =>
      cases cs with
      | nil =>
        rw [runBlocks_succ_nil] at hn
        cases hn
        exact .nil
      | cons d cs =>
        cases hread : readCall w.globals (d :: cs) with
        | error e =>
          rw [runBlocks_succ_error (by simp) hread] at hn
          cases hn
        | ok p =>
          obtain ⟨c, rest⟩ := p
          rw [runBlocks_succ_ok (by simp) hread] at hn
          rcases (Outcome.andThen_eq_iff rfl).mp hn with ⟨_, _, h, -⟩ | ⟨w2, v, hd, hb⟩
          · cases h
          · exact .cons hread ⟨rfl, n, hd⟩ (ih hb)
  · intro h
    induction h with
    | nil => exact blocksEnd_nil_iff.mpr rfl
    | cons hread hends _ ih =>
      exact (blocksEnd_cons_iff (ne_nil_of_readCall hread) hread).mpr (Or.inr ⟨_, _, hends, ih⟩)

/-- A call that is read stands at the beginning of the text, whatever comes behind it, and ends with
its closing bracket. -/
theorem readCall_append {globals : Scope} (h : readCall globals cs = .ok (c, rest)) :
    ∃ text, cs = text ++ rest ∧ text.getLast? = some ')' ∧
      ∀ k, readCall globals (text ++ k) = .ok (c, k) := by
  obtain ⟨items, text, rfl, htext, hclose⟩ := readCall_eq_ok_iff.mp h
  refine ⟨text, rfl, ?_, fun k => readCall_eq_ok_iff.mpr ⟨items, text, rfl, htext, hclose⟩⟩
  obtain ⟨-, inner, rfl, -⟩ := htext
  rw [← List.cons_append]
  exact List.getLast?_concat

/-- **A text that is run to its end goes on with what follows it.** -/
theorem BlocksRun.blocksEnd_append_iff (h : BlocksRun files w last cs w1 r) (b : List Char)
    (o : Outcome) : BlocksEnd files w last (cs ++ b) o ↔ BlocksEnd files w1 r b o := by
  induction h with
  | nil => exact Iff.rfl
  | @cons w w1 w2 last v r cs rest c hread hends _ ih =>
    obtain ⟨text, rfl, -, hlocal⟩ := readCall_append hread
    have hread' := hlocal (rest ++ b)
    rw [List.append_assoc, blocksEnd_cons_iff (ne_nil_of_readCall hread') hread', ← ih]
    constructor
    · -- the first block has one end only, and that is a value
      rintro (⟨w', e, rfl, hfail⟩ | ⟨w', v', hval, hb⟩)
      · cases hfail.unique hends
      · cases hval.unique hends
        exact hb
    · exact fun hb => Or.inr ⟨w1, v, hends, hb⟩

/-- A text that is run to its end ends with a closing bracket. -/
theorem BlocksRun.getLast?_eq (h : BlocksRun files w last cs w1 r) (hne : cs ≠ []) :
    cs.getLast? = some ')' := by
  induction h with
  | nil => exact absurd rfl hne
  | @cons w w1 w2 last v r cs rest c hread _ _ ih =>
    obtain ⟨text, rfl, hlast, -⟩ := readCall_append hread
    rw [List.getLast?_append]
    cases rest with
    | nil => rw [hlast]; rfl
    | cons d rest => rw [ih (List.cons_ne_nil d rest)]; rfl

/-- Where there is a block, it does not matter what had been computed before. -/
theorem runBlocks_last (hne : cs ≠ []) (last last' : Value) (n : Nat) :
    runBlocks files n w last cs = runBlocks files n w last' cs := by
  obtain ⟨d, cs, rfl⟩ := List.exists_cons_of_ne_nil hne
  cases n with
  | zero => rw [runBlocks_zero, runBlocks_zero]
  | succ n => rw [runBlocks, runBlocks]

theorem blocksEnd_last_iff (hne : cs ≠ []) (last' : Value) {o : Outcome} :
    BlocksEnd files w last cs o ↔ BlocksEnd files w last' cs o := by
  unfold BlocksEnd
  simp only [runBlocks_last hne last last']

end Blocks

/-! ## Program texts -/

section Texts

variable {files : Files} {w w1 : World} {a b : List Char} {r : Value}

theorem textEnds_iff {text : List Char} {o : Outcome} :
    TextEnds files w text o ↔ BlocksEnd files w .none (normalise text) o := Iff.rfl

/-- A text that has been run to its end, in normal form, can be followed by a normal form that does
not begin with a space. -/
theorem BlocksRun.normalise_append {last : Value} (hrun : BlocksRun files w last a w1 r)
    (ha : IsNormal a) (hb : IsNormal b) (hspace : b.head? ≠ some ' ') :
    normalise (a ++ b) = a ++ b := by
  refine (ha.append hb fun c hc d hd => ?_).normalise_eq_self
  have hne : a ≠ [] := by
    rintro rfl
    cases hc
  rw [hrun.getLast?_eq hne] at hc
  cases hc
  refine ⟨(by cases ·), fun h => ?_⟩
  rw [h] at hd
  exact absurd hd hspace

/-- Going on from a world is going on from the world without its history, with the history put
before what is written. -/
theorem blocksEnd_fresh_iff {last : Value} {o : Outcome} :
    BlocksEnd files w last b o ↔
      ∃ o', BlocksEnd files w.fresh last b o' ∧ o = o'.after w.output w.executes := by
  rw [← blocksEnd_after_iff, World.fresh_after]

/-- Behind a program that is run to its end, another one goes on in the world that it leaves. -/
theorem textEnds_append_iff (ha : IsNormal a) (hb : IsNormal b) (hspace : b.head? ≠ some ' ')
    (hrun : TextEnds files w a ⟨w1, .value r⟩) {o : Outcome} :
    TextEnds files w (a ++ b) o ↔ BlocksEnd files w1 r b o := by
  rw [textEnds_iff, ha.normalise_eq_self, blocksEnd_value_iff] at hrun
  rw [textEnds_iff, hrun.normalise_append ha hb hspace]
  exact hrun.blocksEnd_append_iff b o

/-- What the second program does is what it does on its own, with the history of the first. -/
theorem textEnds_append_fresh_iff (ha : IsNormal a) (hb : IsNormal b) (hspace : b.head? ≠ some ' ')
    (hne : b ≠ []) (hrun : TextEnds files w a ⟨w1, .value r⟩) {o : Outcome} :
    TextEnds files w (a ++ b) o ↔
      ∃ o', TextEnds files w1.fresh b o' ∧ o = o'.after w1.output w1.executes := by
  rw [textEnds_append_iff ha hb hspace hrun, blocksEnd_last_iff hne .none, blocksEnd_fresh_iff]
  simp only [textEnds_iff, hb.normalise_eq_self]

/-- **Programs compose block by block.** Let the texts `a` and `b` be in normal form, `b` not
beginning with a space, and let `a`, run in the world `w`, lead to the world `w1` and the value `r`.
Then `a` followed by `b` ends as `b` does on its own with the functions of `w1`: with the same value
or error and the same global scope, and with the text written by `a` before the text written by `b`.
Without a block in `b` it has the value `r`. If `b` does not begin with a call that can be read,
only `a` has an effect. -/
theorem runText_append (ha : normalise a = a) (hb : normalise b = b) (hspace : b.head? ≠ some ' ')
    (hrun : TextEnds files w a ⟨w1, .value r⟩) :
    (b = [] → ∀ o, TextEnds files w (a ++ b) o ↔ o = ⟨w1, .value r⟩) ∧
      (b ≠ [] → ∀ o, TextEnds files w (a ++ b) o ↔
        ∃ o', TextEnds files w1.fresh b o' ∧ o = o'.after w1.output w1.executes) ∧
      (∀ e, b ≠ [] → readCall w1.globals b = .error e →
        ∀ o, TextEnds files w (a ++ b) o ↔ o = ⟨w1, .failed e⟩) := by
  rw [normalise_eq_self_iff] at ha hb
  refine ⟨?_, fun hne o => textEnds_append_fresh_iff ha hb hspace hne hrun,
    fun e hne hread o => ?_⟩
  · rintro rfl o
    exact (textEnds_append_iff ha hb hspace hrun).trans blocksEnd_nil_iff
  · exact (textEnds_append_iff ha hb hspace hrun).trans (blocksEnd_error_iff hne hread)

/-- A function is defined and a number printed; then the function is called twice. -/
theorem runText_append_print :
    let files : Files := .ofList []
    let a : List Char := "(defun 'f 'x(+ x 1))(print 1)".toList
    let b : List Char := "(print(f 2))(f 3)".toList
    ∃ w1 r o, TextEnds files (World.start false) a ⟨w1, .value r⟩ ∧ w1.output = "1\n" ∧
      TextEnds files w1.fresh b o ∧ o.world.output = "3\n" ∧
        TextEnds files (World.start false) (a ++ b) (o.after w1.output w1.executes) := by
  intro files a b
  have ha : (runText files 30 (World.start false) a).isValue = true := by decide +kernel
  have hb : (runText files 30 (runText files 30 (World.start false) a).world.fresh b).isFinal =
      true := by decide +kernel
  obtain ⟨r, hr⟩ := Outcome.exists_value ha
  have hrun : TextEnds files (World.start false) a _ := ⟨rfl, 30, hr⟩
  have hend : TextEnds files _ b _ := ⟨hb, 30, rfl⟩
  refine ⟨_, r, _, hrun, by decide +kernel, hend, by decide +kernel, ?_⟩
  exact ((runText_append (by decide +kernel) (by decide +kernel) (by decide) hrun).2.1
    (by decide) _).mpr ⟨_, hend, rfl⟩

end Texts

end MiniLisp

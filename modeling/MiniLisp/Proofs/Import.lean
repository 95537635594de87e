import MiniLisp.Proofs.Composition
import MiniLisp.Proofs.Frames

/-!
# Importing a file

A call of `import` runs the text of a file in the global scope. The scope of the call and the calls
around it have no part in it: wherever the machine comes upon the call, it goes on with none as its
value in the world that the text leaves (`ends_loading_iff`, `ends_scan_loading_iff`). At top level
the call can be replaced by the text, so that importing is inclusion (`import_is_inclusion`).
-/

namespace MiniLisp

open Source

/-- The call that runs the file at a path. -/
def Call.loading (script : Bool) (path : String) : Call :=
  .begin (.builtin (.load script)) [.text path]

/-- The text of the call that runs the file at a path. -/
def importText (path : String) : List Char :=
  "(import \"".toList ++ (path.toList ++ "\")".toList)

/-- A path that can be written between quotes and stays as it is when the text around it is brought
to its normal form. -/
def IsPathText (path : String) : Prop :=
  ∀ c ∈ path.toList, c ≠ '"' ∧ c ≠ '#' ∧ isBracket c = false ∧ isBlank c = false

/-! ## The text of the call -/

/-- A text without blanks and comments is in normal form. -/
theorem isNormal_of_forall {cs : List Char} (h : ∀ c ∈ cs, c ≠ '#' ∧ isBlank c = false) :
    IsNormal cs := by
  have hspace : ∀ c ∈ cs, c ≠ ' ' := by
    rintro c hc rfl
    cases (h ' ' hc).2
  refine ⟨fun hmem => (h '#' hmem).1 rfl, fun c hc hblank => ?_, ?_⟩
  · rw [(h c hc).2] at hblank
    cases hblank
  · rw [List.isChain_iff_forall_rel_of_append_cons_cons]
    rintro c d front back rfl
    exact ⟨fun hc => absurd hc (hspace c (by simp)), fun hd => absurd hd (hspace d (by simp))⟩

theorem isNormal_importText {path : String} (hpath : IsPathText path) :
    IsNormal (importText path) := by
  have hfront : IsNormal "(import \"".toList := normalise_eq_self_iff.mp (by decide)
  have hback : IsNormal "\")".toList := normalise_eq_self_iff.mp (by decide)
  have hmiddle : IsNormal path.toList :=
    isNormal_of_forall fun c hc => ⟨(hpath c hc).2.1, (hpath c hc).2.2.2⟩
  refine hfront.append (hmiddle.append hback ?_) ?_
  · -- a quote stands at both seams, and every character may stand next to it
    intro c _ d hd
    cases hd
    exact ⟨fun _ => ⟨by decide, rfl⟩, (by cases ·)⟩
  · intro c hc d _
    cases hc
    exact ⟨(by cases ·), fun _ => rfl⟩

/-- The text is a symbol and a text between brackets. -/
theorem importText_eq (path : String) : importText path =
    '(' :: ("import".toList ++ ' ' :: '"' :: (path.toList ++ '"' :: []) ++ [')']) := by
  have hfront : "(import \"".toList = '(' :: ("import".toList ++ [' ', '"']) := by decide
  have hback : "\")".toList = ['"', ')'] := by decide
  unfold importText
  rw [hfront, hback]
  generalize "import".toList = name
  simp

/-- The text is read to the call, where `import` is what it is at the start. -/
theorem readCall_importText {globals : Scope} {script : Bool} {path : String}
    (hpath : IsPathText path)
    (himport : globals.find? (.symbol "import") =
      .ok (some (.function (.builtin (.load script))))) :
    readCall globals (importText path) = .ok (.loading script path, []) := by
  have hquote : '"' ∉ path.toList := fun h => (hpath '"' h).1 rfl
  have htext : Written [.text path] ('"' :: (path.toList ++ '"' :: [])) := by
    have h := @Written.text [] path.toList [] hquote .nil
    rw [String.ofList_toList] at h
    exact h
  have hwritten : Written [.symbol "import", .text path]
      ("import".toList ++ ' ' :: '"' :: (path.toList ++ '"' :: [])) := by
    have h := @Written.symbol _ "import".toList _ rfl (fun _ => rfl)
      (.separator (c := ' ') rfl htext)
    rw [String.ofList_toList] at h
    exact h
  refine readCall_eq_ok_iff.mpr ⟨[.symbol "import", .text path], importText path,
    (List.append_nil _).symm, ⟨by simp, _, importText_eq path, hwritten⟩, ?_⟩
  · rw [Item.close_cons rfl, Item.close_cons rfl, Item.close_nil]
    show closeCall globals [.symbol "import", .text path] = _
    rw [closeCall, makeCall, himport]
    rfl

/-! ## Running the call -/

section Running

variable {files : Files} {w w1 : World} {script : Bool} {path : String} {text : List Char}
  {scope : Scope} {stack : List Frame} {r : Value} {o : Outcome}

/-- The call asks for its file to be run. -/
theorem step_loading (hfile : files.read? path = some text) (args : List Value) :
    step files w (.enter (.enter (.loading script path) args scope) stack) =
      .load w text (.scan ⟨(Call.loading script path).mark true true, [], 0, scope⟩ stack) := by
  rw [step_start_ready rfl rfl rfl rfl]
  rcases Frame.prepare_cases files w
    ⟨(Call.loading script path).mark true false, [.text path], 0, scope⟩ stack with
    ⟨e, hp, -⟩ | ⟨p, hp, hcases⟩
  · cases hp
  · cases hp
    rcases hcases with
      ⟨hload, -⟩ | ⟨path', hload, hmissing, -⟩ | ⟨path', text', hload, hread, hstep⟩
    · cases hload
    · cases hload
      rw [hfile] at hmissing
      cases hmissing
    · cases hload
      rw [hfile] at hread
      cases hread
      exact hstep

theorem BlocksEnd.unique {last : Value} {cs : List Char} {o o' : Outcome}
    (h : BlocksEnd files w last cs o) (h' : BlocksEnd files w last cs o') : o = o' :=
  EndsWith.unique (runBlocks_steady files w last cs) h h'

/-- When the file has been run, nothing is left to do but to yield none. -/
theorem ends_loading_iff (hfile : files.read? path = some text)
    (hrun : TextEnds files w text ⟨w1, .value r⟩) (args : List Value) :
    Ends files w (.enter (.enter (.loading script path) args scope) stack) o ↔
      Ends files w1 (.scan ⟨(Call.loading script path).mark true true, [], 0, scope⟩ stack) o := by
  rw [ends_load_iff (step_loading hfile args)]
  constructor
  · rintro (⟨w2, e, rfl, hfail⟩ | ⟨w2, v, hval, hrest⟩)
    · cases hfail.unique hrun
    · cases hval.unique hrun
      exact hrest
  · exact fun h => Or.inr ⟨w1, r, hrun, h⟩

/-- On its own the call yields none in the world that the file leaves. -/
theorem ends_start_loading_iff (hfile : files.read? path = some text)
    (hrun : TextEnds files w text ⟨w1, .value r⟩) :
    Ends files w (.start (.loading script path) scope) o ↔ o = ⟨w1, .value .none⟩ := by
  have hstep : step files w1
      (.scan ⟨(Call.loading script path).mark true true, [], 0, scope⟩ []) =
        .halt w1 (.ok .none) := rfl
  rw [State.start, ends_loading_iff hfile hrun]
  exact ends_halt_iff hstep

/-- As an argument of another call it yields none to that call, whose own scope and the calls around
it are as before. -/
theorem ends_scan_loading_iff {f : Frame} (hfile : files.read? path = some text)
    (hrun : TextEnds files w text ⟨w1, .value r⟩)
    (harg : f.args[f.index]? = some (.call (.loading script path))) :
    Ends files w (.scan f stack) o ↔
      Ends files w1
        (.enter (f.resume ((Call.loading script path).mark true true) .none) stack) o := by
  rw [ends_next_iff (step_scan_call harg), ends_loading_iff hfile hrun]
  exact ends_next_iff rfl

end Running

/-! ## Inclusion -/

section Inclusion

variable {files : Files} {w w1 : World} {script : Bool} {path : String} {text : List Char}
  {r : Value}

/-- A program that consists of the call alone. -/
theorem textEnds_importText (hpath : IsPathText path)
    (himport : w.globals.find? (.symbol "import") =
      .ok (some (.function (.builtin (.load script)))))
    (hfile : files.read? path = some text) (hrun : TextEnds files w text ⟨w1, .value r⟩) :
    TextEnds files w (importText path) ⟨w1.after "" 1, .value .none⟩ := by
  have hread := readCall_importText hpath himport
  rw [textEnds_iff, (isNormal_importText hpath).normalise_eq_self, blocksEnd_value_iff]
  refine .cons hread ?_ .nil
  rw [World.startBlock_eq_after, ends_after_iff]
  exact ⟨⟨w1, .value .none⟩, (ends_start_loading_iff hfile hrun).mpr rfl, rfl⟩

/-- A program that consists of the call alone has run the text of the file. -/
theorem textEnds_of_importText (hpath : IsPathText path)
    (himport : w.globals.find? (.symbol "import") =
      .ok (some (.function (.builtin (.load script)))))
    (hfile : files.read? path = some text)
    (hrun : TextEnds files w (importText path) ⟨w1, .value r⟩) :
    ∃ v, TextEnds files w.startBlock text ⟨w1, .value v⟩ := by
  have hread := readCall_importText hpath himport
  rw [textEnds_iff, (isNormal_importText hpath).normalise_eq_self,
    blocksEnd_cons_iff (ne_nil_of_readCall hread) hread] at hrun
  obtain ⟨_, _, h, -⟩ | ⟨w2, v, hends, hnil⟩ := hrun
  · cases h
  · cases blocksEnd_nil_iff.mp hnil
    rw [State.start, ends_load_iff (step_loading hfile _)] at hends
    obtain ⟨_, _, h, -⟩ | ⟨w3, u, htext, hscan⟩ := hends
    · cases h
    · have hstep : step files w3
          (.scan ⟨(Call.loading script path).mark true true, [], 0, []⟩ []) =
            .halt w3 (.ok .none) := rfl
      cases (ends_halt_iff hstep).mp hscan
      exact ⟨u, htext⟩

/-- **Importing is inclusion.** Let the file at `path` hold `text`, which, run in a world where
`import` is what it is at the start, leads to the world `w1`. Then a call of `import` with this
path, in whatever scope and wherever among other calls it stands, leads to `w1` and has the value
none. And in front of any program `b` in normal form, not beginning with a space, the call can be
replaced by the normal form of the text: both programs end with the same value or error, global
scope and output. The call itself counts as one more block. -/
theorem import_is_inclusion (hpath : IsPathText path)
    (himport : w.globals.find? (.symbol "import") =
      .ok (some (.function (.builtin (.load script)))))
    (hfile : files.read? path = some text) (hrun : TextEnds files w text ⟨w1, .value r⟩) :
    ∃ c done, readCall w.globals (importText path) = .ok (c, []) ∧
      (∀ scope o, Ends files w (.start c scope) o ↔ o = ⟨w1, .value .none⟩) ∧
      (∀ f stack o, f.args[f.index]? = some (.call c) →
        (Ends files w (.scan f stack) o ↔
          Ends files w1 (.enter (f.resume done .none) stack) o)) ∧
      ∀ b, b ≠ [] → normalise b = b → b.head? ≠ some ' ' → ∀ o,
        TextEnds files w (importText path ++ b) o ↔
          ∃ o', TextEnds files w (normalise text ++ b) o' ∧ o = o'.after "" 1 := by
  refine ⟨.loading script path, (Call.loading script path).mark true true,
    readCall_importText hpath himport, fun _ _ => ends_start_loading_iff hfile hrun,
    fun _ _ _ => ends_scan_loading_iff hfile hrun, fun b hne hb hspace o => ?_⟩
  rw [normalise_eq_self_iff] at hb
  have htext : TextEnds files w (normalise text) ⟨w1, .value r⟩ := by
    rw [textEnds_iff, normalise_normalise]
    exact hrun
  -- both go on with `b` in the same world, but for the block that the call was
  have hhistory : ∀ o : Outcome, o.after (w1.after "" 1).output (w1.after "" 1).executes =
      (o.after w1.output w1.executes).after "" 1 :=
    fun o => (Outcome.after_after "" 1).symm
  rw [textEnds_append_fresh_iff (isNormal_importText hpath) hb hspace hne
    (textEnds_importText hpath himport hfile hrun)]
  simp only [textEnds_append_fresh_iff (isNormal_normalise text) hb hspace hne htext, hhistory]
  constructor
  · rintro ⟨o', ho', rfl⟩
    exact ⟨_, ⟨o', ho', rfl⟩, rfl⟩
  · rintro ⟨_, ⟨o', ho', rfl⟩, rfl⟩
    exact ⟨o', ho', rfl⟩

/-- A file that defines a function and imports another file, which prints. -/
theorem import_is_inclusion_chain :
    let files : Files := .ofList
      [("a.ls", "(defun 'f 'x\n  (+ x 1)) # one more\n(import \"b.ls\")"),
      ("b.ls", "( print \"b\" )")]
    let w : World := World.start false
    let b : List Char := "(print(f 2))".toList
    ∃ text w1 r c o, files.read? "a.ls" = some text ∧ TextEnds files w text ⟨w1, .value r⟩ ∧
      w1.output = "b\n" ∧ readCall w.globals (importText "a.ls") = .ok (c, []) ∧
        (∀ scope, Ends files w (.start c scope) ⟨w1, .value .none⟩) ∧
          TextEnds files w (normalise text ++ b) o ∧ o.world.output = "b\n3\n" ∧
            TextEnds files w (importText "a.ls" ++ b) (o.after "" 1) := by
  intro files w b
  let text : List Char := "(defun 'f 'x\n  (+ x 1)) # one more\n(import \"b.ls\")".toList
  have hpath : IsPathText "a.ls" := by
    have hall : "a.ls".toList.all fun c => c != '"' && c != '#' && !isBracket c && !isBlank c := by
      decide
    intro c hc
    simpa [and_assoc] using List.all_eq_true.mp hall c hc
  have hfile : files.read? "a.ls" = some text := by decide +kernel
  have hvalue : (runText files 40 w text).isValue = true := by decide +kernel
  obtain ⟨r, hr⟩ := Outcome.exists_value hvalue
  have hrun : TextEnds files w text _ := ⟨rfl, 40, hr⟩
  have hfinal : (runText files 60 w (normalise text ++ b)).isFinal = true := by decide +kernel
  have hend : TextEnds files w (normalise text ++ b) _ := ⟨hfinal, 60, rfl⟩
  have himport : w.globals.find? (.symbol "import") =
      .ok (some (.function (.builtin (.load false)))) := rfl
  obtain ⟨c, -, hread, hstart, -, hprogram⟩ := import_is_inclusion hpath himport hfile hrun
  refine ⟨text, _, r, c, _, hfile, hrun, by decide +kernel, hread, fun scope => ?_, hend,
    by decide +kernel, ?_⟩
  · exact (hstart scope _).mpr rfl
  · exact (hprogram b (by decide) (by decide +kernel) (by decide) _).mpr ⟨_, hend, rfl⟩

end Inclusion

end MiniLisp

import MiniLisp.Library
import MiniLisp.Proofs.Import
import MiniLisp.Proofs.Similarity.Deferral
import MiniLisp.Proofs.Similarity.Definitions

/-!
# Importing the library again

The functions of the library are made anew when it is imported a second time. They differ from those
of the first time in their numbers, and in the calls of names that had no meaning when the library
was read first: those of functions that come later in its text, and those of the helpers that a
function of the library defines when it is called. Such calls are deferred in the first functions
and bound in the second.

If the names that the library needs still mean what they did, and nothing but its names holds its
functions, the second import leaves a world that is similar to the one before, where the new
functions have taken the place of the old ones (`Library.revision`,
`Library.textEnds_importText_again`). What a program does then is what it does without the second
import, as long as its deferred calls do what bound ones do (`import_library_again`).
-/

namespace MiniLisp

open Source

namespace Library

/-! ## The text and its names -/

set_option maxRecDepth 20000 in
/-- The characters of the library. -/
def characters : { cs : List Char // source = String.ofList cs } :=
  ⟨_, rfl⟩

/-- The functions that the library defines, in the order of its text. -/
def functions : List String :=
  ["last", "head", "tail", "init", "neq", ">=", "false", "empty", "body", "list", "map", "filter",
    "apply", "accumulate", "reverse", "findif", "find"]

/-- The functions that functions of the library define when they are called. -/
def helpers : List String :=
  ["__map_inner", "__filter_inner", "__accumulate_inner", "__reverse_inner", "__findif_inner"]

/-- The parameters and variables that are called in the library. -/
def locals : List String :=
  ["f", "fn", "pred"]

/-- The builtins that are called in the library or to import it. -/
def builtins : List String :=
  ["defun", "nth", "let", "+", "not", "eq", "<", "true", "if", "len", "none", "cond", "flatten",
    "-", "lambda", "import"]

/-- Whether a name is called in the library. -/
def isHead (h : String) : Bool :=
  functions.contains h || helpers.contains h || locals.contains h || builtins.contains h

theorem toList_source : source.toList = characters.1 := by
  have h := congrArg String.toList characters.2
  rwa [String.toList_ofList] at h

/-- The library is a text of definitions. -/
theorem definitionTexts :
    DefinitionTexts isHead functions (normalise (unifyLineEnds source.toList)) := by
  have hnames : definedNames? isHead 17 (normalise (unifyLineEnds characters.1)) =
      some functions := by
    decide +kernel
  rw [toList_source]
  exact definitionTexts_of_definedNames? hnames

/-! ## What the library needs -/

/-- Whether a scope binds a name to a copy of the function that another scope binds it to. -/
def hasCopy (s t : Scope) (h : String) : Bool :=
  match s.find? (.symbol h), t.find? (.symbol h) with
  | .ok (some (.function f)), .ok (some (.function g)) => g.isCopy f
  | _, _ => false

/-- Whether a scope does not bind a name. -/
def lacks (s : Scope) (h : String) : Bool :=
  match s.find? (.symbol h) with
  | .ok none => true
  | _ => false

/-- The numbers of the functions of the library. -/
def numbers (globals : Scope) : List Nat :=
  functions.filterMap fun n => (globals.definition? n).map Definition.id

/-- Whether a number belongs to a function that has been made and is not one of the library. -/
def isOther (w : World) (i : Nat) : Bool :=
  decide (i < w.made) && !(numbers w.globals).contains i

/-- Whether a binding holds no functions of the library, but for the one that it gives its name to.
-/
def isClear (w : World) : Value × Value → Bool
  | (.symbol n, .function f) =>
    (functions.contains n || f.number?.all (isOther w)) && f.partsNumbered (isOther w)
  | (k, v) => k.isNumbered (isOther w) && v.isNumbered (isOther w)

/-- Whether a world has all that the library needs as the scope `first`, which is there right after
the library is imported: copies of its functions and the builtins that it calls. The names of the
variables that it calls are not bound, the names of its helpers are not bound or belong to functions
that have been defined under them, and no function has captured one of the library. -/
def isIntact (first : Scope) (w : World) : Bool :=
  (functions ++ builtins).all (hasCopy first w.globals) && locals.all (lacks w.globals) &&
    helpers.all (fun h => lacks w.globals h ||
      (w.globals.definition? h).any fun d => d.name.isCopy (.symbol h)) &&
    w.globals.all (isClear w)

/-- The functions that calls in the library may be bound to when it is imported again. -/
def targets (globals : Scope) (h : String) : Option Definition :=
  if (functions ++ helpers).contains h then globals.definition? h else none

section Intact

variable {s t first : Scope} {w : World} {h : String}

theorem exists_of_hasCopy (hcopy : hasCopy s t h = true) :
    ∃ f g, s.find? (.symbol h) = .ok (some (.function f)) ∧
      t.find? (.symbol h) = .ok (some (.function g)) ∧ g.isCopy f = true := by
  unfold hasCopy at hcopy
  split at hcopy
  · rename_i f g hf hg
    exact ⟨f, g, hf, hg, hcopy⟩
  · cases hcopy

/-- What an intact world has. -/
structure Intact (first : Scope) (w : World) : Prop where
  copies : ∀ h ∈ functions ++ builtins, hasCopy first w.globals h = true
  locals : ∀ h ∈ locals, lacks w.globals h = true
  helpers : ∀ h ∈ helpers, lacks w.globals h = true ∨
    ∃ d, w.globals.definition? h = some d ∧ d.name.isCopy (.symbol h) = true
  clear : ∀ e ∈ w.globals, isClear w e = true

theorem intact_of_isIntact (hintact : isIntact first w = true) : Intact first w := by
  simp only [isIntact, Bool.and_eq_true, List.all_eq_true, Bool.or_eq_true,
    Option.any_eq_true] at hintact
  exact ⟨hintact.1.1.1, hintact.1.1.2, hintact.1.2, hintact.2⟩

theorem Intact.exists_copy (hintact : Intact first w) (hh : h ∈ functions ++ builtins) :
    ∃ f g, first.find? (.symbol h) = .ok (some (.function f)) ∧
      w.globals.find? (.symbol h) = .ok (some (.function g)) ∧ g.isCopy f = true :=
  exists_of_hasCopy (hintact.copies h hh)

theorem find?_of_lacks (hlacks : lacks s h = true) : s.find? (.symbol h) = .ok none := by
  unfold lacks at hlacks
  split at hlacks
  · assumption
  · cases hlacks

theorem targets_of_definition? {d : Definition} (hh : h ∈ functions ++ helpers)
    (hd : s.definition? h = some d) : targets s h = some d := by
  rw [targets, if_pos (List.contains_iff_mem.mpr hh), hd]

theorem symbol_of_isCopy {v : Value} (hcopy : v.isCopy (.symbol h) = true) : v = .symbol h := by
  cases v with
  | symbol m => rw [eq_of_beq hcopy]
  | _ => cases hcopy

end Intact

/-! ## What becomes of the functions -/

/-- Where the functions come from after a second import. Those with numbers below `w.made` stay what
they are, except for the functions of the library. In their place come the next functions that are
made, and all later numbers are shifted. -/
def origin (w : World) (i : Nat) : Option Nat :=
  if i < w.made then
    if (numbers w.globals).contains i then none else some i
  else
    match functions[i - w.made]? with
    | some n => (w.globals.definition? n).map Definition.id
    | none => some (i - functions.length)

section Revision

variable {w : World}

/-- A function comes from one that is not of the library, from one of the library, or from one that
is made later. -/
theorem origin_cases {i m : Nat} (h : origin w i = some m) :
    (i = m ∧ i < w.made ∧ m ∉ numbers w.globals) ∨
      (∃ n d, functions[i - w.made]? = some n ∧ w.globals.definition? n = some d ∧ d.id = m ∧
        w.made ≤ i) ∨
      w.made ≤ m ∧ i = m + functions.length := by
  unfold origin at h
  split at h
  · rename_i hlt
    split at h
    · cases h
    · rename_i hother
      cases h
      exact Or.inl ⟨rfl, hlt, fun hmem => hother (List.contains_iff_mem.mpr hmem)⟩
  · rename_i hge
    split at h
    · rename_i n hn
      obtain ⟨d, hd, hid⟩ := Option.map_eq_some_iff.mp h
      exact Or.inr (Or.inl ⟨n, d, hn, hd, hid, Nat.le_of_not_lt hge⟩)
    · rename_i hnone
      have hlen := List.getElem?_eq_none_iff.mp hnone
      cases h
      exact Or.inr (Or.inr ⟨by omega, by omega⟩)

theorem mem_numbers {n : String} {d : Definition} (hn : n ∈ functions)
    (hd : w.globals.definition? n = some d) : d.id ∈ numbers w.globals := by
  refine List.mem_filterMap.mpr ⟨n, hn, ?_⟩
  rw [hd]
  rfl

/-- In a tidy world no two functions come from the same one. -/
theorem origin_inj (hw : w.IsTidy) {i j m : Nat} (hi : origin w i = some m)
    (hj : origin w j = some m) : i = j := by
  have hnodup : functions.Nodup := by decide
  have hlt : ∀ {n d}, w.globals.definition? n = some d → d.id < w.made :=
    fun hd => hw.lt_made (Scope.find?_of_definition? hd)
  rcases origin_cases hi with ⟨rfl, hi, hother⟩ | ⟨n, d, hn, hd, rfl, hi⟩ | ⟨hi, rfl⟩
  · rcases origin_cases hj with ⟨rfl, -, -⟩ | ⟨n, d, hn, hd, rfl, -⟩ | ⟨hj, rfl⟩
    · rfl
    · exact absurd (mem_numbers (List.mem_of_getElem? hn) hd) hother
    · omega
  · have hd' := hlt hd
    rcases origin_cases hj with ⟨rfl, -, hother⟩ | ⟨n', d', hn', hd', hid, hj⟩ | ⟨hj, rfl⟩
    · exact absurd (mem_numbers (List.mem_of_getElem? hn) hd) hother
    · obtain rfl : n' = n := hw.name_eq (Scope.find?_of_definition? hd')
        (Scope.find?_of_definition? hd) hid
      have hsame : i - w.made = j - w.made :=
        (List.getElem?_inj (List.getElem?_eq_some_iff.mp hn).1 hnodup).mp (hn.trans hn'.symm)
      omega
    · omega
  · rcases origin_cases hj with ⟨rfl, hj, -⟩ | ⟨n, d, hn, hd, rfl, -⟩ | ⟨hj, hij⟩
    · omega
    · have hd := hlt hd
      omega
    · exact hij.symm

/-- What a second import makes of the functions of a world. -/
def revision (w : World) (hw : w.IsTidy) : Revision :=
  ⟨targets w.globals, origin w, origin_inj hw⟩

/-- Functions that are not of the library stay what they are. -/
theorem revision_keeps (hw : w.IsTidy) : (revision w hw).Keeps (isOther w) := by
  intro i hi
  simp only [isOther, Bool.and_eq_true, decide_eq_true_eq, Bool.not_eq_true'] at hi
  show origin w i = some i
  rw [origin, if_pos hi.1, hi.2]
  rfl

/-- Functions that are made later correspond to each other. -/
theorem origin_later (w : World) (i : Nat) :
    origin w (w.made + functions.length + i) = some (w.made + i) := by
  have hnone : functions[w.made + functions.length + i - w.made]? = none :=
    List.getElem?_eq_none (by omega)
  rw [origin, if_neg (by omega), hnone]
  exact congrArg some (by omega)

theorem origin_made (w : World) {i : Nat} {n : String} (hn : functions[i]? = some n) :
    origin w (w.made + i) = (w.globals.definition? n).map Definition.id := by
  rw [origin, if_neg (by omega), Nat.add_sub_cancel_left, hn]

variable {first : Scope} (hintact : Intact first w) (hw : w.IsTidy)
include hintact

/-- An intact world is similar to itself but for the functions of the library. -/
theorem Intact.similarBut :
    Scope.SimilarBut (revision w hw) functions w.globals w.globals := by
  refine List.forall₂_same.mpr fun e he => ?_
  have hclear := hintact.clear e he
  unfold isClear at hclear
  split at hclear
  · rename_i n f
    simp only [Bool.and_eq_true, Bool.or_eq_true, List.contains_iff_mem] at hclear
    refine ⟨.atom rfl, hclear.1.symm.imp (fun hnumber => ?_) fun hn => ⟨n, hn, rfl⟩⟩
    exact .refl (revision_keeps hw) _ (Bool.and_eq_true_iff.mpr ⟨hnumber, hclear.2⟩)
  · rw [Bool.and_eq_true] at hclear
    exact ⟨.refl (revision_keeps hw) _ hclear.1, Or.inl (.refl (revision_keeps hw) _ hclear.2)⟩

/-- The functions that calls may be bound to do what they did. -/
theorem Intact.target_similar {h : String} {d : Definition}
    (hd : (revision w hw).target h = some d) :
    Function.Similar (revision w hw) (.user d) (.user d) := by
  have htarget : targets w.globals h = some d := hd
  rw [targets] at htarget
  split at htarget
  · have hclear := hintact.clear _ (Scope.mem_of_find? (Scope.find?_of_definition? htarget))
    exact .refl (revision_keeps hw) _ (Bool.and_eq_true_iff.mp hclear).2
  · cases htarget

end Revision

/-! ## Importing again -/

theorem isPathText_path : IsPathText path := by
  have hall : path.toList.all fun c => c != '"' && c != '#' && !isBracket c && !isBlank c := by
    decide
  intro c hc
  simpa [and_assoc] using List.all_eq_true.mp hall c hc

theorem read?_path {files : Files} (hfile : files.contents? path = some source) :
    files.read? path = some (unifyLineEnds source.toList) := by
  rw [Files.read?, hfile]
  rfl

/-- At the start the names of the library are not bound. -/
theorem start_lacks (script : Bool) :
    (functions ++ helpers ++ locals).all (lacks (World.start script).globals) = true := by
  cases script <;> decide +kernel

theorem find?_import_start (script : Bool) : (World.start script).globals.find? (.symbol "import") =
    .ok (some (.function (.builtin (.load script)))) := by
  cases script <;> rfl

theorem exists_builtin_of_find?_start {script : Bool} {h : String} {v : Value}
    (hv : (World.start script).globals.find? (.symbol h) = .ok (some v)) :
    ∃ b, v = .function (.builtin b) := by
  have hall : (World.start script).globals.All fun v => ∃ b, v = .function (.builtin b) := by
    intro e he
    obtain ⟨b, -, rfl⟩ := List.mem_map.mp he
    exact ⟨b, rfl⟩
  exact hall.find? hv

section Again

variable {files : Files} {script : Bool} {w u : World} {r : Value}
  (hrun : BlocksRun files (World.start script).startBlock .none
    (normalise (unifyLineEnds source.toList)) u r)
  (hintact : Intact u.globals w)
include hrun hintact

omit hrun hintact in
theorem find?_defun_start : (World.start script).startBlock.globals.find? (.symbol "defun") =
    .ok (some (.function (.builtin .define))) := by
  cases script <;> rfl

/-- A name of the library that is intact is bound to a function of this name. -/
theorem exists_target {h : String} (hh : h ∈ functions) :
    ∃ d, w.globals.find? (.symbol h) = .ok (some (.function (.user d))) ∧ d.name = .symbol h := by
  obtain ⟨f, g, hf, hg, hcopy⟩ := hintact.exists_copy (List.mem_append_left _ hh)
  obtain ⟨d, hd, hname⟩ :=
    definitionTexts.exists_definition (by decide) hrun find?_defun_start hh
  rw [hd] at hf
  cases hf
  obtain ⟨e, rfl, he⟩ := Function.exists_user_of_isCopy hcopy
  exact ⟨e, hg, he.trans hname⟩

/-- A builtin of the library that is intact is what it was at the start. -/
theorem find?_builtin {h : String} (hh : h ∈ builtins) :
    ∃ b, (World.start script).globals.find? (.symbol h) = .ok (some (.function (.builtin b))) ∧
      w.globals.find? (.symbol h) = .ok (some (.function (.builtin b))) := by
  obtain ⟨f, g, hf, hg, hcopy⟩ := hintact.exists_copy (List.mem_append_right _ hh)
  have hother : h ∉ functions := by
    have hdisjoint : builtins.all (fun h => !functions.contains h) = true := by decide
    simpa using List.all_eq_true.mp hdisjoint h hh
  rw [definitionTexts.find?_eq (by decide) hrun find?_defun_start hother] at hf
  obtain ⟨b, hb⟩ := exists_builtin_of_find?_start hf
  cases hb
  rw [Function.eq_of_isCopy_builtin hcopy] at hg
  exact ⟨b, hf, hg⟩

/-- The heads of the library are similar at the start and in a world that is intact. -/
theorem headsSimilar (hw : w.IsTidy) :
    HeadsSimilar (revision w hw) isHead (World.start script).globals w.globals := by
  have hunbound := List.all_eq_true.mp (start_lacks script)
  intro h hh
  simp only [isHead, Bool.or_eq_true, List.contains_iff_mem] at hh
  rcases hh with ((hh | hh) | hh) | hh
  -- functions of the library
  · have hstart := find?_of_lacks (hunbound h (by simp [hh]))
    obtain ⟨d, hd, hname⟩ := exists_target hrun hintact hh
    exact ⟨_, _, hstart, hd, .bound (targets_of_definition? (List.mem_append_left _ hh)
      (Scope.definition?_of_find? hd)) hname⟩
  -- their helpers, which are bound once they have been needed
  · have hstart := find?_of_lacks (hunbound h (by simp [hh]))
    rcases hintact.helpers h hh with hlacks | ⟨d, hd, hname⟩
    · exact ⟨_, _, hstart, find?_of_lacks hlacks, .unbound⟩
    · refine ⟨_, _, hstart, Scope.find?_of_definition? hd,
        .bound (targets_of_definition? (List.mem_append_right _ hh) hd) ?_⟩
      exact symbol_of_isCopy hname
  -- parameters and variables
  · exact ⟨_, _, find?_of_lacks (hunbound h (by simp [hh])),
      find?_of_lacks (hintact.locals h hh), .unbound⟩
  -- builtins
  · obtain ⟨b, hb, hb'⟩ := find?_builtin hrun hintact hh
    exact ⟨_, _, hb, hb', .both (.builtin b)⟩

/-- **The library can be imported again.** In a world that is intact this writes nothing and leaves
a similar world. -/
theorem textEnds_importText_again (hw : w.IsTidy) (hfile : files.contents? path = some source) :
    ∃ w', TextEnds files w (importText path) ⟨w', .value .none⟩ ∧
      w.Similar (revision w hw) w' := by
  obtain ⟨b, hb, hb'⟩ := find?_builtin hrun hintact (h := "import") (by decide)
  obtain ⟨d, hd, hd'⟩ := find?_builtin hrun hintact (h := "defun") (by decide)
  have hdefun : w.globals.find? (.symbol "defun") = .ok (some (.function (.builtin .define))) := by
    rw [hd'.trans hd.symm]
    exact find?_defun_start
  have himport : w.globals.find? (.symbol "import") =
      .ok (some (.function (.builtin (.load script)))) := by
    rw [hb'.trans hb.symm]
    exact find?_import_start script
  have hcopies : ∀ n ∈ functions, ∃ f g, w.globals.find? (.symbol n) = .ok (some (.function f)) ∧
      u.globals.find? (.symbol n) = .ok (some (.function g)) ∧ f.isCopy g = true := by
    intro n hn
    obtain ⟨f, g, hf, hg, hcopy⟩ := hintact.exists_copy (List.mem_append_left _ hn)
    exact ⟨g, f, hg, hf, hcopy⟩
  -- the functions of the library are made in the order of its text
  have hnumbers : ∀ i n f, functions[i]? = some n →
      w.globals.find? (.symbol n) = .ok (some (.function f)) →
        f.number? = (revision w hw).origin (w.made + i) := by
    intro i n f hn hf
    obtain ⟨d, hd, -⟩ := exists_target hrun hintact (List.mem_of_getElem? hn)
    rw [hd] at hf
    cases hf
    show _ = origin w (w.made + i)
    rw [origin_made w hn, Scope.definition?_of_find? hd]
    rfl
  obtain ⟨w1, r', hrun', hw1, hout, hmade⟩ : ∃ w1 r', BlocksRun files w .none
      (normalise (unifyLineEnds source.toList)) w1 r' ∧
        Scope.Similar (revision w hw) w.globals w1.globals ∧ w1.output = w.output ∧
          w1.made = w.made + functions.length :=
    definitionTexts.rerun (by decide) (by decide) hrun find?_defun_start hdefun
      (headsSimilar hrun hintact hw) (hintact.similarBut hw) hw.apart hcopies hnumbers
  refine ⟨w1.after "" 1, ?_, hw1, ?_, fun i => ?_⟩
  · exact textEnds_importText isPathText_path himport (read?_path hfile)
      (blocksEnd_value_iff.mpr hrun')
  · simp [World.after, hout]
  · show origin w (w1.made + i) = _
    rw [hmade]
    exact origin_later w i

end Again

end Library

/-! ## Programs with one more import -/

section Programs

variable {files : Files} {script : Bool} {a b : List Char} {u w w' : World} {r r' : Value}

/-- What a program leaves is proper. -/
theorem TextEnds.proper {o : Outcome} (h : TextEnds files (World.start script) a o) :
    o.IsProper := by
  obtain ⟨-, n, hn⟩ := h
  have hstart : (World.start script).globals.All fun v => v.isProper false = true := by
    cases script <;> exact Scope.isProper_iff.mp rfl
  obtain ⟨h1, h2⟩ := (drive_runBlocks_keeps isProper_callKind files n).2 (World.start script) .none
    (normalise a) hstart rfl
  rw [← hn]
  exact ⟨Scope.isProper_iff.mpr h1, h2⟩

/-- What a program leaves is tidy. -/
theorem TextEnds.tidy {o : Outcome} (h : TextEnds files (World.start script) a o) :
    o.world.IsTidy := by
  obtain ⟨-, n, rfl⟩ := h
  exact (World.tidy_start script).runBlocks n .none (normalise a)

/-- A program goes on in the world that a call of `import` in its midst leaves. -/
theorem textEnds_append_importText_iff {path : String} (hpath : IsPathText path)
    (ha : IsNormal a) (hb : IsNormal b) (hspace : b.head? ≠ some ' ') (hne : b ≠ [])
    (hrun : TextEnds files (World.start script) a ⟨w, .value r⟩)
    (himport : TextEnds files w (importText path) ⟨w', .value r'⟩) {o : Outcome} :
    TextEnds files (World.start script) (a ++ (importText path ++ b)) o ↔
      BlocksEnd files w' r b o := by
  rw [textEnds_iff, (isNormal_importText hpath).normalise_eq_self, blocksEnd_value_iff] at himport
  have hnormal : IsNormal (importText path ++ b) :=
    normalise_eq_self_iff.mp (himport.normalise_append (isNormal_importText hpath) hb hspace)
  have hhead : (importText path ++ b).head? = some '(' := rfl
  have hcons : importText path ++ b ≠ [] := by
    intro hnil
    rw [hnil] at hhead
    cases hhead
  rw [textEnds_append_iff ha hnormal (by rw [hhead]; decide) hrun, blocksEnd_last_iff hcons .none,
    himport.blocksEnd_append_iff, blocksEnd_last_iff hne r]

/-- **Importing the library again is harmless** to a program whose deferred calls do what bound ones
do. Let `u` be the world right after the library has been imported at the start, and let the program
`a` lead to a world `w` in which the names that the library needs mean what they do in `u`. Let `b`
be run in `w` to its end through indifferent states only. Then the program `a` followed by `b` and
the program with one more import between them write the same text, and they fail with the same error
or have similar values, which are equal if they hold no defined functions. -/
theorem import_library_again {n : Nat}
    (hfile : files.contents? Library.path = some Library.source)
    (hfirst : TextEnds files (World.start script) (importText Library.path) ⟨u, .value r'⟩)
    (ha : normalise a = a) (hb : normalise b = b) (hspace : b.head? ≠ some ' ') (hne : b ≠ [])
    (hrun : TextEnds files (World.start script) a ⟨w, .value r⟩)
    (hintact : Library.isIntact u.globals w = true)
    (hfinal : (runBlocks files n w r b).isFinal = true)
    (hgood : ∀ t ∈ visitsBlocks files n w b,
      t.2.indifferent (Library.targets w.globals) t.1 = true) :
    ∃ o o', TextEnds files (World.start script) (a ++ b) o ∧
      TextEnds files (World.start script) (a ++ (importText Library.path ++ b)) o' ∧
      o'.world.output = o.world.output ∧
      (∀ e, o.result = .failed e → o'.result = .failed e) ∧
      ∀ v, o.result = .value v → ∃ v', o'.result = .value v' ∧
        (∃ hw : w.IsTidy, v.Similar (Library.revision w hw) v') ∧ (v.isData = true → v' = v) := by
  rw [normalise_eq_self_iff] at ha hb
  rw [runBlocks_last hne r .none] at hfinal
  -- what the import at the start runs is the text of the library
  obtain ⟨v, htext⟩ := textEnds_of_importText Library.isPathText_path
    (Library.find?_import_start script) (Library.read?_path hfile) hfirst
  have hw : w.IsTidy := hrun.tidy
  have hintact := Library.intact_of_isIntact hintact
  obtain ⟨w', hagain, hsimilar⟩ :=
    Library.textEnds_importText_again (blocksEnd_value_iff.mp htext) hintact hw hfile
  obtain ⟨o', ho', hoo'⟩ := runBlocks_similar (hintact.target_similar hw) hsimilar
    hrun.proper.1 rfl (.atom rfl) hfinal hgood
  refine ⟨runBlocks files n w .none b, o', ?_, ?_, hoo'.world.output.symm, ?_, ?_⟩
  · exact (textEnds_append_iff ha hb hspace hrun).mpr
      ((blocksEnd_last_iff hne r).mp ⟨hfinal, n, rfl⟩)
  · exact (textEnds_append_importText_iff Library.isPathText_path ha hb hspace hne hrun
      hagain).mpr ((blocksEnd_last_iff hne r).mp ho')
  · intro e he
    exact (he ▸ hoo'.result).eq_failed
  · intro v hv
    obtain ⟨v', hv', hvv'⟩ := (hv ▸ hoo'.result).exists_value
    exact ⟨v', hv', ⟨hw, hvv'⟩, hvv'.eq_of_isData⟩

/-- The library, run in a world. -/
def Library.load (files : Files) (w : World) : Outcome :=
  runBlocks files 30 w .none (normalise (unifyLineEnds Library.characters.1))

/-- A call that imports the library runs it. -/
theorem Library.textEnds_importText_of_load (script : Bool)
    (hfile : files.contents? Library.path = some Library.source)
    (himport : Library.hasCopy (World.start script).globals w.globals "import" = true)
    (hload : (Library.load files w).isValue = true) :
    TextEnds files w (importText Library.path)
      ⟨(Library.load files w).world.after "" 1, .value .none⟩ := by
  obtain ⟨f, g, hf, hg, hcopy⟩ := Library.exists_of_hasCopy himport
  rw [Library.find?_import_start] at hf
  cases hf
  rw [Function.eq_of_isCopy_builtin hcopy] at hg
  obtain ⟨v, hv⟩ := Outcome.exists_value hload
  have hread : files.read? Library.path = some (unifyLineEnds Library.characters.1) := by
    rw [Library.read?_path hfile, Library.toList_source]
  exact textEnds_importText Library.isPathText_path hg hread ⟨rfl, 30, hv⟩

/-- A function of the library is called before and after the second import. Its helper is deferred
in the first version of the function and bound in the second. Functions are compared, too. -/
theorem import_library_again_map :
    let files : Files := .ofList [(Library.path, Library.source)]
    let a : List Char := importText Library.path ++ "(defun 'k 'x(+ x))(map k(list 1))".toList
    let b : List Char := "(print(eq map k)(eq k k)(map -(list 1 2)))".toList
    ∃ o o', TextEnds files (World.start false) (a ++ b) o ∧
      TextEnds files (World.start false) (a ++ (importText Library.path ++ b)) o' ∧
        o.world.output = "False True (-1, -2)\n" ∧ o'.world.output = "False True (-1, -2)\n" := by
  intro files a b
  have hrun :
      let u : World := (Library.load files (World.start false)).world.after "" 1
      let first : Outcome := runBlocks files 300 u .none "(defun 'k 'x(+ x))(map k(list 1))".toList
      let second : Outcome := runBlocks files 400 first.world .none b
      ((Library.load files (World.start false)).isValue && first.isValue &&
        Library.isIntact u.globals first.world && second.isFinal &&
          second.world.output == "False True (-1, -2)\n" &&
            (visitsBlocks files 400 first.world b).all fun t =>
              t.2.indifferent (Library.targets first.world.globals) t.1) = true := by
    decide +kernel
  extract_lets u first second at hrun
  simp only [Bool.and_eq_true, beq_iff_eq, List.all_eq_true] at hrun
  obtain ⟨⟨⟨⟨⟨hload, hfirst⟩, hintact⟩, hfinal⟩, houtput⟩, hgood⟩ := hrun
  have himport : TextEnds files (World.start false) (importText Library.path) ⟨u, .value .none⟩ :=
    Library.textEnds_importText_of_load false rfl (by decide +kernel) hload
  obtain ⟨r, hr⟩ := Outcome.exists_value hfirst
  have hnormal : IsNormal "(defun 'k 'x(+ x))(map k(list 1))".toList :=
    normalise_eq_self_iff.mp (by decide)
  have ha : TextEnds files (World.start false) a ⟨first.world, .value r⟩ :=
    (textEnds_append_iff (isNormal_importText Library.isPathText_path) hnormal (by decide)
      himport).mpr ⟨rfl, 300, hr⟩
  have hlast : runBlocks files 400 first.world r b = second := runBlocks_last (by decide) _ _ _
  have hnormala : normalise a = a := by decide
  have hab : TextEnds files (World.start false) (a ++ b) second :=
    (textEnds_append_iff (normalise_eq_self_iff.mp hnormala) (normalise_eq_self_iff.mp (by decide))
      (by decide) ha).mpr ⟨hfinal, 400, hlast⟩
  obtain ⟨o, o', ho, ho', hsame, -⟩ := import_library_again rfl himport hnormala (by decide)
    (by decide) (by decide) ha hintact (hlast ▸ hfinal) hgood
  cases BlocksEnd.unique ho hab
  exact ⟨second, o', hab, ho', houtput, hsame.trans houtput⟩

end Programs

end MiniLisp

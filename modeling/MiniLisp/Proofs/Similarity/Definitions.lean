import MiniLisp.Proofs.Composition
import MiniLisp.Proofs.Numbering
import MiniLisp.Proofs.Similarity.Application
import MiniLisp.Proofs.Similarity.Copies
import MiniLisp.Proofs.Similarity.Reading

/-!
# Definitions that are run again

A text of definitions makes the same functions again when it is run a second time, up to similarity:
calls in their bodies that were deferred at the first time may now be bound (`HeadSimilar`). So if
the functions of the first time are still there, the second run leaves a global scope that is
similar to the one it found (`DefinitionTexts.rerun`). While it runs, the scopes are similar but for
the names that it has not come to (`Scope.SimilarBut`).
-/

namespace MiniLisp

/-! ## Heads under two global scopes -/

/-- What a head stands for under two global scopes, so that its calls are similar: nothing, similar
functions, or its target under the second only. -/
inductive HeadSimilar (M : Revision) (h : String) :
    Option Value → Option Value → Prop where
  | unbound : HeadSimilar M h none none
  | both {f g : Function} (hf : f.Similar M g) :
      HeadSimilar M h (some (.function f)) (some (.function g))
  | bound {d : Definition} (hM : M.target h = some d) (hname : d.name = .symbol h) :
      HeadSimilar M h none (some (.function (.user d)))

/-- All heads with a property stand for something similar under two global scopes. -/
def HeadsSimilar (M : Revision) (p : String → Bool) (s t : Scope) : Prop :=
  ∀ h, p h = true → ∃ x y, s.find? (.symbol h) = .ok x ∧ t.find? (.symbol h) = .ok y ∧
    HeadSimilar M h x y

section Heads

variable {M : Revision} {p : String → Bool} {s t s' t' : Scope} {f g : Function}
  {n : String}

theorem HeadsSimilar.agrees (h : HeadsSimilar M p s t) {head : String} (hp : p head = true) :
    HeadAgrees M s t head := by
  obtain ⟨x, y, hx, hy, hxy⟩ := h head hp
  intro vs us hargs
  unfold makeCall
  rw [hx, hy]
  cases hxy with
  | unbound => exact .ok (Call.Alike.defer (.atom rfl) hargs).similar
  | both hf => exact (hf.begin hargs).mono fun _ _ hc => hc.similar
  | bound hM hname => exact .ok (.bound hM hname hargs)

/-- Heads stay similar when a name is bound to similar functions under both scopes. -/
theorem HeadsSimilar.put (h : HeadsSimilar M p s t) (hfg : f.Similar M g)
    (hs : s.put (.symbol n) (.function f) = .ok s')
    (ht : t.put (.symbol n) (.function g) = .ok t') : HeadsSimilar M p s' t' := by
  intro head hp
  rw [Scope.find?_put hs, Scope.find?_put ht]
  by_cases hn : head = n
  · rw [if_pos hn, if_pos hn]
    exact ⟨_, _, rfl, rfl, .both hfg⟩
  · rw [if_neg hn, if_neg hn]
    exact h head hp

end Heads

/-! ## Running a definition -/

/-- The function that a definition makes in a world. -/
def World.madeBy (w : World) (n : String) (params : List String) (body : Call) : Function :=
  .user ⟨w.made, .symbol n, params.map Value.symbol, hasRest (Call.defining n params body).args,
    .call body, []⟩

section Running

variable {files : Files} {scope : Scope} {w w' u : World} {n : String} {params : List String}
  {b : Call} {o : Outcome}

theorem resolveArgs_defining (scope globals : Scope) :
    (Call.defining n params b).resolveArgs scope globals =
      .ok ((n :: params).map Value.symbol ++ [.call b]) := by
  have hlookup : (Call.defining n params b).lookupArgs scope globals =
      .ok ((n :: params).map Value.symbol ++ [.call b]) := by
    unfold Call.lookupArgs
    exact lookupAll_quoted
  have hcount : (Call.defining n params b).validate
      ((n :: params).map Value.symbol ++ [.call b]) = .ok () := by
    unfold Call.validate Call.checkCount
    refine if_pos (decide_eq_true ?_)
    simp only [List.length_append, List.length_map, List.length_cons, List.length_nil]
    omega
  have hsort : (Call.defining n params b).sortArgs ((n :: params).map Value.symbol ++ [.call b]) =
      (n :: params).map Value.symbol ++ [.call b] := rfl
  unfold Call.resolveArgs
  rw [hlookup]
  have hearly : (Call.defining n params b).fn.checksEarly = true := rfl
  dsimp only
  rw [if_pos hearly, hsort, hcount]
  rfl

/-- A definition makes its function at once. -/
theorem ends_defining_value_iff {x : Value} :
    Ends files w (.start (.defining n params b) scope) ⟨w', .value x⟩ ↔
      w.define (.symbol n) (params.map Value.symbol) (hasRest (Call.defining n params b).args)
        (.call b) [] = (w', .ok x) := by
  have hsymbols : ∀ v ∈ (n :: params).map Value.symbol, v.isCall = false := by
    intro v hv
    obtain ⟨m, -, rfl⟩ := List.mem_map.mp hv
    rfl
  have hconclude : ∀ {q}, w.define (.symbol n) (params.map Value.symbol)
      (hasRest (Call.defining n params b).args) (.call b) [] = q →
        ((Call.defining n params b).withBody (.call b)).conclude w scope
          ((n :: params).map Value.symbol) = Outcome.ofExcept q.1 q.2 := by
    rintro _ rfl
    rfl
  rw [ends_defining_iff rfl ⟨rfl, rfl⟩ (resolveArgs_defining scope w.globals)
    (eachYields_values hsymbols hsymbols), afterArgs_values hsymbols]
  generalize hq : w.define (.symbol n) (params.map Value.symbol)
    (hasRest (Call.defining n params b).args) (.call b) [] = q
  rw [hconclude hq]
  obtain ⟨w1, r⟩ := q
  cases r with
  | error e => simp [Outcome.ofExcept]
  | ok y => simp [Outcome.ofExcept, eq_comm]

/-- If a function can be made under a name in one world, it can in every world in which the name can
be bound. -/
theorem World.define_of_put {name : Value} {params params' : List Value} {variadic variadic' : Bool}
    {body body' x : Value} {s : Scope}
    (h : w.define name params variadic body [] = (w', .ok x))
    (hput : u.globals.put name (.function (.user ⟨u.made, name, params', variadic', body', []⟩)) =
      .ok s) :
    u.define name params' variadic' body' [] =
      ({ u with globals := s, made := u.made + 1 },
        .ok (.function (.user ⟨u.made, name, params', variadic', body', []⟩))) := by
  unfold World.define at h ⊢
  cases hdisplay : name.display with
  | error e =>
    rw [hdisplay] at h
    cases h
  | ok text =>
    rw [hdisplay] at h
    dsimp only at h ⊢
    split at h
    · cases h
    · rename_i hzero
      rw [if_neg hzero]
      unfold Scope.insert at h ⊢
      split at h
      · cases h
      · rename_i hhash
        split at hhash
        · rename_i hhashable
          rw [if_pos hhashable, hput]
        · cases hhash

end Running

/-! ## Running definitions again -/

/-- The world after a block that has bound a function. -/
def World.afterDefining (w : World) (globals : Scope) : World :=
  { w with globals := globals, executes := w.executes + 1, made := w.made + 1 }

section Blocks

variable {files : Files} {w w1 : World} {n : String} {params names : List String}
  {body : List Item} {text cs : List Char} {last r : Value} {p : String → Bool}
  (htext : CallText (Item.definition n params body) text)
  (hdefun : w.globals.find? (.symbol "defun") = .ok (some (.function (.builtin .define))))
include htext hdefun

/-- A text that begins with a definition is run on in the world in which the function is bound. -/
theorem blocksRun_definition_iff :
    BlocksRun files w last (text ++ cs) w1 r ↔
      ∃ b s, Item.close w.globals [] body = .ok b ∧
        Function.begin (.builtin .define) (Call.defining n params b).args =
          .ok (.defining n params b) ∧
        w.startBlock.define (.symbol n) (params.map Value.symbol)
          (hasRest (Call.defining n params b).args) (.call b) [] =
            (w.afterDefining s, .ok (.function (w.madeBy n params b))) ∧
        BlocksRun files (w.afterDefining s) (.function (w.madeBy n params b)) cs w1 r := by
  have hread := htext.readCall_append w.globals cs
  rw [Item.close_definition hdefun] at hread
  constructor
  · intro hrun
    generalize hcs : text ++ cs = block at hrun hread
    cases hrun with
    | nil =>
      have hpos := htext.length_pos
      rw [(List.append_eq_nil_iff.mp hcs).1] at hpos
      cases hpos
    | cons hread' hends hrest =>
      rw [hread'] at hread
      obtain ⟨c, hc, hpair⟩ := map_eq_ok_iff.mp hread.symm
      obtain ⟨b, hb, hbegin⟩ := bind_eq_ok_iff.mp hc
      obtain rfl : c = .defining n params b := Function.eq_of_begin hbegin
      obtain ⟨rfl, rfl⟩ := Prod.mk.inj hpair
      have hdefine := ends_defining_value_iff.mp hends
      rcases World.define_cases hdefine with ⟨-, e, he⟩ | ⟨s, -, rfl, hv⟩
      · cases he
      · cases hv
        exact ⟨b, s, hb, hbegin, hdefine, hrest⟩
  · rintro ⟨b, s, hb, hbegin, hdefine, hrest⟩
    refine .cons ?_ (ends_defining_value_iff.mpr hdefine) hrest
    rw [hread, hb, Except.bind, hbegin]
    rfl

end Blocks

/-- What a definition in a world has bound. -/
theorem put_of_define {w : World} {n : String} {params : List String} {b : Call} {s : Scope}
    (h : w.startBlock.define (.symbol n) (params.map Value.symbol)
      (hasRest (Call.defining n params b).args) (.call b) [] =
        (w.afterDefining s, .ok (.function (w.madeBy n params b)))) :
    w.globals.put (.symbol n) (.function (w.madeBy n params b)) = .ok s := by
  rcases World.define_cases h with ⟨-, e, he⟩ | ⟨globals, hinsert, hw, -⟩
  · cases he
  · obtain rfl : s = globals := congrArg World.globals hw
    exact Scope.put_of_insert hinsert

section Again

variable {M : Revision} {p : String → Bool} {files : Files} {u u1 v : World}
  {s t : Scope} {last last' r : Value} {names : List String} {cs : List Char}

/-- A text of definitions binds no other names. -/
theorem DefinitionTexts.find?_eq (h : DefinitionTexts p names cs) (hnames : "defun" ∉ names)
    (hrun : BlocksRun files u last cs u1 r)
    (hdefun : u.globals.find? (.symbol "defun") = .ok (some (.function (.builtin .define))))
    {m : String} (hm : m ∉ names) : u1.globals.find? (.symbol m) = u.globals.find? (.symbol m) := by
  induction h generalizing u last with
  | nil =>
    cases hrun with
    | nil => rfl
    | cons hread _ _ => cases hread
  | @cons n names params body text cs htext _ _ ih =>
    rw [List.mem_cons, not_or] at hnames hm
    obtain ⟨b, su, -, -, hdefine, hrest⟩ := (blocksRun_definition_iff htext hdefun).mp hrun
    have hput := put_of_define hdefine
    rw [ih hnames.2 hrest ((Scope.find?_put hput).trans ((if_neg hnames.1).trans hdefun)) hm.2]
    exact (Scope.find?_put hput).trans (if_neg hm.1)

/-- A text of definitions binds its names to functions of these names. -/
theorem DefinitionTexts.exists_definition (h : DefinitionTexts p names cs)
    (hnames : "defun" ∉ names) (hrun : BlocksRun files u last cs u1 r)
    (hdefun : u.globals.find? (.symbol "defun") = .ok (some (.function (.builtin .define))))
    {m : String} (hm : m ∈ names) :
    ∃ d, u1.globals.find? (.symbol m) = .ok (some (.function (.user d))) ∧ d.name = .symbol m := by
  induction h generalizing u last with
  | nil => cases hm
  | @cons n names params body text cs htext _ hdefs ih =>
    rw [List.mem_cons, not_or] at hnames
    obtain ⟨b, su, -, -, hdefine, hrest⟩ := (blocksRun_definition_iff htext hdefun).mp hrun
    have hput := put_of_define hdefine
    have hdefun1 : (u.afterDefining su).globals.find? (.symbol "defun") = _ :=
      (Scope.find?_put hput).trans ((if_neg hnames.1).trans hdefun)
    by_cases hlater : m ∈ names
    · exact ih hnames.2 hrest hdefun1 hlater
    · obtain rfl : m = n := (List.mem_cons.mp hm).resolve_right hlater
      rw [hdefs.find?_eq hnames.2 hrest hdefun1 hlater]
      exact ⟨_, (Scope.find?_put hput).trans (if_pos rfl), rfl⟩

/-- The scopes bind similar keys, and to similar values unless the key is one of some names. -/
def Scope.SimilarBut (M : Revision) (names : List String) (s t : Scope) : Prop :=
  List.Forall₂ (fun e e' => e.1.Similar M e'.1 ∧
    (e.2.Similar M e'.2 ∨ ∃ n ∈ names, e.1 = .symbol n)) s t

theorem Scope.SimilarBut.similar (h : Scope.SimilarBut M [] s t) : Scope.Similar M s t := by
  induction h with
  | nil => exact .nil
  | cons he _ ih => exact .cons he.1 (he.2.resolve_right (by simp)) ih

/-- A binding of another key is no exception, or one for another name. -/
theorem similar_or_of_ne {n : String} {k x y : Value} (hk : k ≠ .symbol n)
    (h : x.Similar M y ∨ ∃ m ∈ n :: names, k = .symbol m) :
    x.Similar M y ∨ ∃ m ∈ names, k = .symbol m := by
  rcases h with h | ⟨m, hm, rfl⟩
  · exact Or.inl h
  · refine Or.inr ⟨m, (List.mem_cons.mp hm).resolve_left ?_, rfl⟩
    rintro rfl
    exact hk rfl

theorem Scope.SimilarBut.of_ne {n : String} (h : Scope.SimilarBut M (n :: names) s t)
    (hs : ∀ e ∈ s, e.1 ≠ .symbol n) : Scope.SimilarBut M names s t := by
  induction h with
  | nil => exact .nil
  | cons he _ ih =>
    rw [List.forall_mem_cons] at hs
    exact .cons ⟨he.1, similar_or_of_ne hs.1 he.2⟩ (ih hs.2)

/-- A name that is bound to a value similar to the one it has in the other scope is no exception any
more. -/
theorem Scope.SimilarBut.exists_put {n : String} (h : Scope.SimilarBut M (n :: names) s t)
    (hs : s.Pairwise Scope.Apart) {x y : Value} (hx : s.find? (.symbol n) = .ok (some x))
    (hxy : x.Similar M y) :
    ∃ t', t.put (.symbol n) y = .ok t' ∧ Scope.SimilarBut M names s t' := by
  induction h with
  | nil => cases hx
  | @cons e e' s t he h ih =>
    obtain ⟨k, v⟩ := e
    obtain ⟨k', v'⟩ := e'
    obtain ⟨hfirst, hs⟩ := List.pairwise_cons.mp hs
    have hkey : Value.isKey k (.symbol n) = Value.isKey k' (.symbol n) := he.1.isKey_eq (.atom rfl)
    rcases find?_cons hx with ⟨hfound, hv⟩ | ⟨hmissed, hx⟩
    · cases hv
      refine ⟨(k', y) :: t, by rw [Scope.put, ← hkey, hfound], .cons ⟨he.1, Or.inl hxy⟩ ?_⟩
      -- the name is not bound again behind its binding
      exact Scope.SimilarBut.of_ne h fun e hmem =>
        (hfirst e hmem).1 n (eq_of_isKey_symbol hfound)
    · have hne : k ≠ .symbol n := by
        rintro rfl
        rw [isKey_symbol, beq_self_eq_true] at hmissed
        cases hmissed
      obtain ⟨t', ht', h'⟩ := ih hs hx
      exact ⟨(k', v') :: t', by rw [Scope.put, ← hkey, hmissed, ht']; rfl,
        .cons ⟨he.1, similar_or_of_ne hne he.2⟩ h'⟩

/-- A definition is read to a similar one, which makes a similar function, if its heads are similar.
-/
theorem exists_similar_defining (hheads : HeadsSimilar M p u.globals v.globals) {n : String}
    {params : List String} {body : List Item} {b : Call} (hbody : Item.headedCall p body = true)
    (hb : Item.close u.globals [] body = .ok b)
    (hbegin : Function.begin (.builtin .define) (Call.defining n params b).args =
      .ok (.defining n params b)) :
    ∃ b', Item.close v.globals [] body = .ok b' ∧
      Function.begin (.builtin .define) (Call.defining n params b').args =
        .ok (.defining n params b') ∧
      Function.Similar M (u.madeBy n params b) (v.madeBy n params b') := by
  have hclose := Item.close_similar (fun _ hp => hheads.agrees hp) body hbody
  rw [hb] at hclose
  rcases hclose.cases with ⟨e, h1, -⟩ | ⟨_, b', h1, hb', hbb'⟩
  · cases h1
  · cases h1
    have hatoms : ∀ {f : String → Value} {names : List String}, (∀ m, (f m).isAtom = true) →
        List.Forall₂ (Value.Similar M) (names.map f) (names.map f) := by
      refine fun hf => similar_atoms fun v hv => ?_
      obtain ⟨m, -, rfl⟩ := List.mem_map.mp hv
      exact hf m
    have hargs : List.Forall₂ (Value.Similar M) (Call.defining n params b).args
        (Call.defining n params b').args :=
      List.rel_append (hatoms fun _ => rfl) (.cons (.call hbb') .nil)
    have hagree := Function.Similar.begin (.builtin .define) hargs
    rw [hbegin] at hagree
    rcases hagree.cases with ⟨e, h1, -⟩ | ⟨_, c, -, hc, -⟩
    · cases h1
    · rw [Function.eq_of_begin hc] at hc
      exact ⟨b', hb', hc, .user rfl (hatoms fun _ => rfl) (hasRest_similar hargs)
        (.call hbb') .nil⟩

/-- **A text of definitions can be run again.** Let it have been run in the world `u`, which led to
`u1`, and let the scope `s` have copies of the functions that it made. In a world whose global scope
is similar to `s` but for their names, and whose heads are similar to those of `u`, the text is run
to its end and writes nothing. It makes functions that come from those of `s`, if the next numbers
do, and leaves a global scope that is similar to `s`. -/
theorem DefinitionTexts.rerun (h : DefinitionTexts p names cs) (hnodup : names.Nodup)
    (hnames : "defun" ∉ names) (hrun : BlocksRun files u last cs u1 r)
    (hdefun : u.globals.find? (.symbol "defun") = .ok (some (.function (.builtin .define))))
    (hdefun' : v.globals.find? (.symbol "defun") = .ok (some (.function (.builtin .define))))
    (hheads : HeadsSimilar M p u.globals v.globals)
    (hsimilar : Scope.SimilarBut M names s v.globals) (hs : s.Pairwise Scope.Apart)
    (hcopies : ∀ n ∈ names, ∃ f g, s.find? (.symbol n) = .ok (some (.function f)) ∧
      u1.globals.find? (.symbol n) = .ok (some (.function g)) ∧ f.isCopy g = true)
    (hnumbers : ∀ i n f, names[i]? = some n → s.find? (.symbol n) = .ok (some (.function f)) →
      f.number? = M.origin (v.made + i)) :
    ∃ v1 r', BlocksRun files v last' cs v1 r' ∧ Scope.Similar M s v1.globals ∧
      v1.output = v.output ∧ v1.made = v.made + names.length := by
  induction h generalizing u v last last' with
  | nil => exact ⟨v, last', .nil, hsimilar.similar, rfl, rfl⟩
  | @cons n names params body text cs htext hbody hdefs ih =>
    rw [List.nodup_cons] at hnodup
    rw [List.mem_cons, not_or] at hnames
    obtain ⟨b, su, hb, hbegin, hdefine, hrest⟩ := (blocksRun_definition_iff htext hdefun).mp hrun
    obtain ⟨b', hb', hbegin', hmade⟩ := exists_similar_defining hheads hbody hb hbegin
    have hput := put_of_define hdefine
    have hdefun1 : (u.afterDefining su).globals.find? (.symbol "defun") = _ :=
      (Scope.find?_put hput).trans ((if_neg hnames.1).trans hdefun)
    -- the scope has a copy of the first function, which the other definitions do not bind anew
    obtain ⟨f, g, hf, hg, hcopy⟩ := hcopies n List.mem_cons_self
    have hfound : (u.afterDefining su).globals.find? (.symbol n) = _ :=
      (Scope.find?_put hput).trans (if_pos rfl)
    rw [hdefs.find?_eq hnames.2 hrest hdefun1 hnodup.1, hfound] at hg
    cases hg
    have hvalue : Value.Similar M (.function f) (.function (v.madeBy n params b')) :=
      .function (.of_isCopy f hcopy hmade) (hnumbers 0 n f rfl hf)
    obtain ⟨sv, hputv, hsv⟩ := hsimilar.exists_put hs hf hvalue
    have hdefun1' : (v.afterDefining sv).globals.find? (.symbol "defun") = _ :=
      (Scope.find?_put hputv).trans ((if_neg hnames.1).trans hdefun')
    have hnumbers1 : ∀ i m f, names[i]? = some m → s.find? (.symbol m) = .ok (some (.function f)) →
        f.number? = M.origin ((v.afterDefining sv).made + i) := by
      intro i m f hm hf
      rw [hnumbers (i + 1) m f hm hf, Nat.add_comm i 1, ← Nat.add_assoc]
      rfl
    obtain ⟨v1, r', hrun', hv1, hout, hmade1⟩ := ih hnodup.2 hnames.2 hrest hdefun1 hdefun1'
      (hheads.put hmade hput hputv) hsv
      (fun m hm => hcopies m (List.mem_cons_of_mem n hm)) hnumbers1
    have hdefine' := World.define_of_put hdefine (u := v.startBlock) hputv
    refine ⟨v1, r', (blocksRun_definition_iff htext hdefun').mpr
      ⟨b', sv, hb', hbegin', hdefine', hrun'⟩, hv1, hout, ?_⟩
    rw [hmade1, List.length_cons, Nat.add_comm names.length 1, ← Nat.add_assoc]
    rfl

end Again

end MiniLisp

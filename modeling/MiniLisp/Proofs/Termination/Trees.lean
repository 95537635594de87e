import Mathlib.Data.List.Flatten
import Mathlib.Data.List.Permutation
import MiniLisp.Proofs.Kinds.Application

/-!
# Trees of builtin calls

A call with the calls among its arguments, the calls among their arguments and so on is a tree,
whose nodes are `Call.nodes`. Each stands at a place of its own (`Call.at?`), and so do some of them
that occur no more often than in the tree (`Call.exists_places`). The trees here have calls of
builtin functions that have not begun, and their other arguments hold no calls (`Call.isTree`). A
text is read to such a tree if every head in it is the name of a builtin other than the one that
runs files (`Call.isTree_of_readCall`).

Running a node takes it apart: looking up its arguments keeps the nodes below it
(`nodesOf_lookupAll`), ordering them does too (`Call.sortArgs_perm`), and the work of a builtin
leaves some of them (`Call.prepare_ordinary`). None of this makes a new one.
-/

namespace MiniLisp

/-! ## Values without calls -/

mutual

/-- Whether a value is no call and holds none in a tuple or a list. What a function is made of does
not count. -/
def Value.isCallFree : Value → Bool
  | .tuple items => Value.allCallFree items
  | .list items => Value.allCallFree items
  | .call _ => false
  | _ => true

/-- Whether none of several values is or holds a call. -/
def Value.allCallFree : List Value → Bool
  | [] => true
  | v :: vs => v.isCallFree && Value.allCallFree vs

end

theorem allCallFree_iff {vs : List Value} :
    Value.allCallFree vs = true ↔ ∀ v ∈ vs, v.isCallFree = true := by
  induction vs with
  | nil => simp [Value.allCallFree]
  | cons v vs ih => simp [Value.allCallFree, ih]

/-- Whether a value can stand as an argument in a tree: whether it is a call or holds none. -/
def Value.isBranch (v : Value) : Bool :=
  v.isCall || v.isCallFree

/-- The values without calls are a kind. -/
theorem isCallFree_kind :
    Kind (fun v => v.isCallFree = true) (fun v => v.isBranch = true) where
  atom {v} h := by
    cases v with
    | tuple _ | list _ | function _ | call _ => cases h
    | _ => rfl
  tuple {items} := by rw [Value.isCallFree, allCallFree_iff]
  list {items} := by rw [Value.isCallFree, allCallFree_iff]
  made _ _ := rfl
  value {v} h := by
    cases v with
    | call c => cases h
    | _ => rfl
  arg {v} h := by rw [Value.isBranch, h, Bool.false_or]

/-! ## Nodes -/

mutual

/-- The calls of a tree, the outermost first. -/
def Call.nodes : Call → List Call
  | ⟨fn, args, resolved, prepared, body⟩ =>
    ⟨fn, args, resolved, prepared, body⟩ :: Value.nodesOf args

/-- The calls of the tree that an argument is. -/
def Value.nodes : Value → List Call
  | .call c => c.nodes
  | _ => []

/-- The calls of the trees among several arguments. -/
def Value.nodesOf : List Value → List Call
  | [] => []
  | v :: vs => v.nodes ++ Value.nodesOf vs

end

section Nodes

variable {c d : Call} {v : Value} {vs us : List Value}

/-- The nodes of a call are the call itself and the nodes among its arguments. -/
theorem Call.nodes_eq (c : Call) : c.nodes = c :: Value.nodesOf c.args := by
  obtain ⟨fn, args, resolved, prepared, body⟩ := c
  rw [Call.nodes]

theorem nodesOf_eq_flatMap (vs : List Value) : Value.nodesOf vs = vs.flatMap Value.nodes := by
  induction vs with
  | nil => rfl
  | cons v vs ih => rw [Value.nodesOf, ih, List.flatMap_cons]

theorem Value.nodes_eq_nil (h : v.isCall = false) : v.nodes = [] := by
  cases v with
  | call c => cases h
  | _ => rfl

theorem nodesOf_append : Value.nodesOf (vs ++ us) = Value.nodesOf vs ++ Value.nodesOf us := by
  rw [nodesOf_eq_flatMap, nodesOf_eq_flatMap, nodesOf_eq_flatMap, List.flatMap_append]

theorem nodesOf_eq_nil (h : ∀ v ∈ vs, v.isCall = false) : Value.nodesOf vs = [] := by
  rw [nodesOf_eq_flatMap, List.flatMap_eq_nil_iff]
  exact fun v hv => Value.nodes_eq_nil (h v hv)

/-- Ordering the arguments orders the nodes. -/
theorem nodesOf_perm (h : vs.Perm us) : (Value.nodesOf vs).Perm (Value.nodesOf us) := by
  rw [nodesOf_eq_flatMap, nodesOf_eq_flatMap]
  exact h.flatMap_right _

/-- Leaving arguments out leaves their nodes out. -/
theorem nodesOf_sublist (h : vs.Sublist us) :
    (Value.nodesOf vs).Sublist (Value.nodesOf us) := by
  rw [nodesOf_eq_flatMap, nodesOf_eq_flatMap]
  exact h.flatMap Value.nodes

/-- It does not matter which value without nodes stands at a position. -/
theorem nodesOf_set (hv : v.isCall = false) {u : Value} (hu : u.isCall = false) (i : Nat) :
    Value.nodesOf (vs.set i v) = Value.nodesOf (vs.set i u) := by
  induction vs generalizing i with
  | nil => rfl
  | cons x vs ih =>
    cases i with
    | zero =>
      rw [List.set_cons_zero, List.set_cons_zero, Value.nodesOf, Value.nodesOf,
        Value.nodes_eq_nil hv, Value.nodes_eq_nil hu]
    | succ i => rw [List.set_cons_succ, List.set_cons_succ, Value.nodesOf, Value.nodesOf, ih]

/-- The argument at a position and the others share out the nodes. -/
theorem nodesOf_perm_set {i : Nat} (hv : vs[i]? = some v) {u : Value} (hu : u.isCall = false) :
    (Value.nodesOf vs).Perm (v.nodes ++ Value.nodesOf (vs.set i u)) := by
  induction vs generalizing i with
  | nil => cases hv
  | cons x vs ih =>
    cases i with
    | zero =>
      cases hv
      rw [List.set_cons_zero, Value.nodesOf, Value.nodesOf, Value.nodes_eq_nil hu, List.nil_append]
    | succ i =>
      rw [List.set_cons_succ, Value.nodesOf, Value.nodesOf]
      refine ((ih hv).append_left x.nodes).trans ?_
      rw [← List.append_assoc, ← List.append_assoc]
      exact List.perm_append_comm.append_right _

end Nodes

/-! ## Places -/

/-- The call at a place in a tree. A place goes from argument to argument, each number is the
position of the next one. -/
def Call.at? : Call → List Nat → Option Call
  | c, [] => some c
  | c, i :: place =>
    match c.args[i]? with
    | some (.call d) => d.at? place
    | _ => none

mutual

/-- The places of the calls of a tree, in the order of `Call.nodes`. -/
def Call.places : Call → List (List Nat)
  | ⟨_, args, _, _, _⟩ => [] :: Value.placesOf args 0

/-- The places of the calls in the tree that an argument is. -/
def Value.places : Value → List (List Nat)
  | .call c => c.places
  | _ => []

/-- The places of the calls in the trees among several arguments, the first of which has the
position `i`. -/
def Value.placesOf : List Value → Nat → List (List Nat)
  | [], _ => []
  | v :: vs, i => v.places.map (i :: ·) ++ Value.placesOf vs (i + 1)

end

mutual

/-- At the places of a tree stand its nodes. -/
theorem Call.map_at?_places (c : Call) : c.places.map c.at? = c.nodes.map some := by
  obtain ⟨fn, args, resolved, prepared, body⟩ := c
  rw [Call.places, Call.nodes, List.map_cons, List.map_cons]
  exact congrArg (_ :: ·) (map_at?_placesOf args [] fn resolved prepared body)

/-- The places below some arguments lead to the nodes among them. -/
theorem map_at?_placesOf (vs front : List Value) (fn : Function) (resolved prepared : Bool)
    (body : Value) :
    (Value.placesOf vs front.length).map (Call.at? ⟨fn, front ++ vs, resolved, prepared, body⟩) =
      (Value.nodesOf vs).map some := by
  cases vs with
  | nil => rfl
  | cons v vs =>
    have hfirst : (v.places.map (front.length :: ·)).map
        (Call.at? ⟨fn, front ++ v :: vs, resolved, prepared, body⟩) = v.nodes.map some := by
      cases v with
      | call d =>
        have hat : (Call.at? ⟨fn, front ++ .call d :: vs, resolved, prepared, body⟩) ∘
            (front.length :: ·) = d.at? := by
          funext place
          show Call.at? _ (front.length :: place) = d.at? place
          rw [Call.at?, List.getElem?_append_right (Nat.le_refl _), Nat.sub_self]
          rfl
        rw [List.map_map, hat]
        exact Call.map_at?_places d
      | _ => rfl
    have hrest := map_at?_placesOf vs (front ++ [v]) fn resolved prepared body
    rw [List.append_assoc, List.singleton_append, List.length_append,
      List.length_singleton] at hrest
    rw [Value.placesOf, Value.nodesOf, List.map_append, List.map_append, hfirst, hrest]

end

/-- The places among several arguments begin with their positions. -/
theorem exists_of_mem_placesOf {vs : List Value} {i : Nat} {place : List Nat}
    (h : place ∈ Value.placesOf vs i) : ∃ j rest, place = j :: rest ∧ i ≤ j := by
  induction vs generalizing i with
  | nil => cases h
  | cons v vs ih =>
    rcases List.mem_append.mp h with h | h
    · obtain ⟨rest, -, rfl⟩ := List.mem_map.mp h
      exact ⟨i, rest, rfl, Nat.le_refl i⟩
    · obtain ⟨j, rest, rfl, hj⟩ := ih h
      exact ⟨j, rest, rfl, Nat.le_of_succ_le hj⟩

mutual

/-- Each place occurs once. -/
theorem Call.nodup_places (c : Call) : c.places.Nodup := by
  obtain ⟨fn, args, resolved, prepared, body⟩ := c
  refine List.nodup_cons.mpr ⟨fun h => ?_, nodup_placesOf args 0⟩
  obtain ⟨j, rest, hnil, -⟩ := exists_of_mem_placesOf h
  cases hnil

/-- Each place below some arguments occurs once. -/
theorem nodup_placesOf (vs : List Value) (i : Nat) : (Value.placesOf vs i).Nodup := by
  cases vs with
  | nil => exact List.nodup_nil
  | cons v vs =>
    have hfirst : (v.places.map (i :: ·)).Nodup := by
      cases v with
      | call d => exact (Call.nodup_places d).map fun _ _ h => (List.cons.inj h).2
      | _ => exact List.nodup_nil
    refine List.nodup_append.mpr ⟨hfirst, nodup_placesOf vs (i + 1), ?_⟩
    -- the positions behind the first argument are greater
    intro place h place' h' heq
    obtain ⟨rest, -, rfl⟩ := List.mem_map.mp h
    obtain ⟨j, rest', rfl, hj⟩ := exists_of_mem_placesOf h'
    cases heq
    exact Nat.lt_irrefl _ hj

end

/-- Nodes of a tree, each of which occurs at most as often as in the tree, have places of their own
there. -/
theorem Call.exists_places {c : Call} {ds : List Call} (h : ds.Subperm c.nodes) :
    ∃ places : List (List Nat), places.Nodup ∧ places.map c.at? = ds.map some := by
  obtain ⟨ds', hperm, hsub⟩ := h
  have hplaces : (ds'.map some).Sublist (c.places.map c.at?) := by
    rw [c.map_at?_places]
    exact hsub.map some
  obtain ⟨places', hsub', hds'⟩ := List.sublist_map_iff.mp hplaces
  have hat : List.Forall₂ (fun d place => c.at? place = d) (places'.map c.at?) places' :=
    List.forall₂_map_left_iff.mpr (List.forall₂_same.mpr fun _ _ => rfl)
  have hperm' : (ds.map some).Perm (places'.map c.at?) := hds' ▸ (hperm.map some).symm
  obtain ⟨places, hall, hsame⟩ := List.perm_comp_forall₂ hperm' hat
  have heq : List.Forall₂ Eq (ds.map some) (places.map c.at?) :=
    List.forall₂_map_right_iff.mpr (hall.imp fun _ _ h => h.symm)
  rw [List.forall₂_eq_eq_eq] at heq
  exact ⟨places, hsame.nodup_iff.mpr (c.nodup_places.sublist hsub'), heq.symm⟩

/-! ## Trees -/

/-- Whether a function is builtin, and neither runs files nor waits for its head to be looked up. -/
def Function.isOrdinary : Function → Bool
  | .builtin .deferred => false
  | .builtin (.load _) => false
  | .builtin _ => true
  | .user _ => false

/-- Whether a call has not begun, is one of an ordinary function, and has arguments that are calls
or hold none. -/
def Call.isOrdinary (c : Call) : Bool :=
  !c.resolved && !c.prepared && c.fn.isOrdinary && c.body.isBranch && c.args.all Value.isBranch

/-- Whether all calls of a tree are ordinary. -/
def Call.isTree (c : Call) : Bool :=
  c.nodes.all Call.isOrdinary

/-- Arguments that are trees or hold no calls. -/
structure AreBranches (vs : List Value) : Prop where
  branch : ∀ v ∈ vs, v.isBranch = true
  nodes : ∀ c ∈ Value.nodesOf vs, c.isOrdinary = true

section Trees

variable {c : Call} {v : Value} {vs us : List Value}

/-- What a tree is made of. -/
theorem Call.isTree_iff :
    c.isTree = true ↔ (c.resolved = false ∧ c.prepared = false ∧ c.fn.isOrdinary = true ∧
      c.body.isBranch = true) ∧ AreBranches c.args := by
  rw [Call.isTree, Call.nodes_eq, List.all_cons, Bool.and_eq_true, List.all_eq_true,
    Call.isOrdinary]
  simp only [Bool.and_eq_true, Bool.not_eq_true', List.all_eq_true]
  constructor
  · rintro ⟨⟨⟨⟨⟨hres, hprep⟩, hfn⟩, hbody⟩, hargs⟩, hnodes⟩
    exact ⟨⟨hres, hprep, hfn, hbody⟩, hargs, hnodes⟩
  · rintro ⟨⟨hres, hprep, hfn, hbody⟩, hargs, hnodes⟩
    exact ⟨⟨⟨⟨⟨hres, hprep⟩, hfn⟩, hbody⟩, hargs⟩, hnodes⟩

/-- A call among branches is a tree. -/
theorem AreBranches.isTree (h : AreBranches vs) (hc : .call c ∈ vs) : c.isTree = true := by
  rw [Call.isTree, List.all_eq_true]
  intro d hd
  refine h.nodes d ?_
  rw [nodesOf_eq_flatMap]
  exact List.mem_flatMap.mpr ⟨.call c, hc, hd⟩

theorem AreBranches.sublist (h : AreBranches us) (hs : vs.Sublist us) : AreBranches vs :=
  ⟨fun v hv => h.branch v (hs.subset hv), fun c hc => h.nodes c ((nodesOf_sublist hs).subset hc)⟩

end Trees

/-! ## Reading trees -/

/-- Arguments as they are read while only builtins are bound: those that are no calls hold none, and
the calls of their trees have not begun and are calls of builtins. -/
structure AreRead (vs : List Value) : Prop where
  branch : ∀ v ∈ vs, v.isBranch = true
  nodes : ∀ c ∈ Value.nodesOf vs,
    ∃ b args, c = .begin (.builtin b) args ∧ ∀ v ∈ args, v.isBranch = true

section Reading

variable {vs : List Value}

theorem AreRead.of_forall (h : ∀ v ∈ vs, AreRead [v]) : AreRead vs := by
  refine ⟨fun v hv => (h v hv).branch v List.mem_cons_self, fun c hc => ?_⟩
  rw [nodesOf_eq_flatMap] at hc
  obtain ⟨v, hv, hc⟩ := List.mem_flatMap.mp hc
  refine (h v hv).nodes c ?_
  rw [Value.nodesOf, Value.nodesOf, List.append_nil]
  exact hc

/-- A call of a builtin is read from items that are. -/
theorem AreRead.begin {b : Builtin} (h : AreRead vs) :
    AreRead [.call (.begin (.builtin b) vs)] := by
  refine ⟨fun v hv => ?_, fun c hc => ?_⟩
  · rw [List.mem_singleton.mp hv]
    rfl
  · rw [Value.nodesOf, Value.nodesOf, List.append_nil, Value.nodes, Call.nodes_eq] at hc
    rcases List.mem_cons.mp hc with rfl | hc
    · exact ⟨b, vs, rfl, h.branch⟩
    · exact h.nodes c hc

/-- What is read while only builtins are bound is a tree of calls of builtins. -/
theorem areRead_of_readCall {script : Bool} {cs rest : List Char} {c : Call}
    (h : readCall (builtinScope script) cs = .ok (c, rest)) : AreRead [.call c] := by
  have hscope : (builtinScope script).All fun v => ∃ b, v = .function (.builtin b) := by
    intro e he
    obtain ⟨b, -, rfl⟩ := List.mem_map.mp he
    exact ⟨b, rfl⟩
  refine prop_of_readCall (C := fun v => AreRead [v]) (fun cs => ?_)
    (fun head args c hitems hc => ?_) h
  · have hatom : (Token.read cs).value.isAtom = true := by
      unfold Token.read
      split <;> rfl
    have hfree := isCallFree_kind.atom hatom
    refine ⟨fun v hv => ?_, fun c hc => ?_⟩
    · rw [List.mem_singleton.mp hv]
      exact isCallFree_kind.ofValue hfree
    · rw [nodesOf_eq_nil fun v hv => ?_] at hc
      · cases hc
      · rw [List.mem_singleton.mp hv]
        exact isCallFree_kind.value hfree
  · unfold makeCall at hc
    split at hc
    · cases hc
    · cases hc
      exact (AreRead.of_forall hitems).begin
    · rename_i fn hfind
      obtain ⟨b, hb⟩ := hscope.find? hfind
      cases hb
      rw [Function.eq_of_begin hc]
      exact (AreRead.of_forall fun v hv => hitems v (List.mem_cons_of_mem head hv)).begin
    · cases hc

/-- **What is read while only builtins are bound is a tree**, if no head is looked up later and no
file is run. -/
theorem Call.isTree_of_readCall {script : Bool} {cs rest : List Char} {c : Call}
    (h : readCall (builtinScope script) cs = .ok (c, rest))
    (hplain : ∀ d ∈ c.nodes, d.fn ≠ .builtin .deferred ∧ ∀ script, d.fn ≠ .builtin (.load script)) :
    c.isTree = true := by
  rw [Call.isTree, List.all_eq_true]
  intro d hd
  have hread := areRead_of_readCall h
  obtain ⟨b, args, rfl, hargs⟩ := hread.nodes d (by simpa [Value.nodesOf, Value.nodes] using hd)
  obtain ⟨hdeferred, hload⟩ := hplain _ hd
  have hfn : (Function.builtin b).isOrdinary = true := by
    cases b with
    | deferred => exact absurd rfl hdeferred
    | load script => exact absurd rfl (hload script)
    | _ => rfl
  have hall : args.all Value.isBranch = true := List.all_eq_true.mpr hargs
  simp [Call.isOrdinary, Call.begin, hfn, hall, Value.isBranch, Value.isCallFree]

end Reading

/-! ## Running a node -/

section Running

variable {scope globals : Scope} {c : Call} {args vs : List Value}

/-- Looking up arguments keeps the calls among them, in their order. -/
theorem nodesOf_lookupAll (hs : scope.All (·.isCallFree = true))
    (hg : globals.All (·.isCallFree = true)) (ha : ∀ a ∈ args, a.isBranch = true)
    (h : lookupAll scope globals c args = .ok vs) : Value.nodesOf vs = Value.nodesOf args := by
  induction args generalizing vs with
  | nil =>
    cases h
    rfl
  | cons arg args ih =>
    obtain ⟨front, rest, rfl, hrest, hfront⟩ := lookupAll_cons_iff.mp h
    have hbranch : arg.isBranch = true := ha arg List.mem_cons_self
    have hnodes : Value.nodesOf front = arg.nodes := by
      cases hcall : arg.isCall with
      | true =>
        -- a call stands for itself
        obtain ⟨d, rfl⟩ := Value.eq_call_of_isCall hcall
        have hlookup : lookup scope globals c (.call d) = .ok (false, .call d) := rfl
        rw [hlookup] at hfront
        rcases hfront with ⟨v, hl, rfl⟩ | ⟨v, hl, -⟩
        · cases hl
          rw [Value.nodesOf, Value.nodesOf, List.append_nil]
        · cases hl
      | false =>
        have hvalue : ∀ {expand v}, lookup scope globals c arg = .ok (expand, v) →
            v.isCallFree = true := by
          intro expand v hl
          rcases isCallFree_kind.lookup hs hg hbranch hl with hv | ⟨-, -, hfalse⟩
          · exact hv
          · rw [hcall] at hfalse
            cases hfalse
        rw [Value.nodes_eq_nil hcall]
        refine nodesOf_eq_nil fun u hu => ?_
        rcases hfront with ⟨v, hl, rfl⟩ | ⟨v, hl, hi⟩
        · rw [List.mem_singleton.mp hu]
          exact isCallFree_kind.value (hvalue hl)
        · exact isCallFree_kind.value (isCallFree_kind.items (hvalue hl) hi u hu)
    rw [nodesOf_append, hnodes, ih (fun a hm => ha a (List.mem_cons_of_mem arg hm)) hrest]
    rfl

/-- A row is made up of its items at even and at odd positions. -/
theorem everyOther_perm {α : Type} (l : List α) :
    (everyOther l ++ everyOther l.tail).Perm l := by
  fun_induction everyOther l with
  | case1 => exact List.Perm.refl _
  | case2 a => exact List.Perm.refl _
  | case3 a b rest ih =>
    have htail : everyOther (a :: b :: rest).tail = b :: everyOther rest.tail := by
      cases rest with
      | nil => rfl
      | cons c rest => rfl
    rw [htail, List.cons_append]
    exact (List.perm_middle.trans (ih.cons b)).cons a

/-- Ordering the arguments leaves none out and adds none. -/
theorem Call.sortArgs_perm : (c.sortArgs args).Perm args := by
  unfold Call.sortArgs
  split
  · exact everyOther_perm args
  · exact List.Perm.refl args

/-- The conditions of `cond` and the chosen action stand in their order. -/
theorem chooseAction_sublist : (Call.chooseAction args).Sublist args := by
  have hargs : args.take (args.length / 2) ++ args.drop (args.length / 2) = args :=
    List.take_append_drop _ args
  unfold Call.chooseAction
  dsimp only
  split
  · rename_i action hfind
    have hmem := (List.of_mem_zip (List.mem_of_find?_eq_some hfind)).2
    conv => rhs; rw [← hargs]
    exact (List.singleton_sublist.mpr hmem).append_left _
  · exact List.take_sublist _ args

/-- Choosing a branch leaves arguments out. -/
theorem chooseBranch_sublist {args' : List Value} (h : Call.chooseBranch args = .ok args') :
    args'.Sublist args := by
  unfold Call.chooseBranch at h
  split at h
  · cases h
  · split at h
    · cases h
    · cases h
      exact List.Sublist.refl _
  · cases h
    split
    · simp
    · simp
  · cases h
    split
    · simp
    · simp

/-- The call before it begins. The body that a definition sets aside is forgotten. -/
def Call.node (c : Call) : Call :=
  ⟨c.fn, c.args, false, false, if c.fn.isDefining then .none else c.body⟩

/-- What the work of an ordinary function leaves: the same node, and some of the arguments. -/
theorem Call.prepare_ordinary {p : Prepared} (hfn : c.fn.isOrdinary = true)
    (h : c.prepare scope globals args = .ok p) :
    p.call.node = c.node ∧ p.args.Sublist args ∧ p.load = none := by
  have hdef : c.fn.isDefining = true → c.prepareDefinition scope args = .ok p →
      p.call.node = c.node ∧ p.args.Sublist args ∧ p.load = none := by
    intro hd h
    unfold Call.prepareDefinition at h
    split at h
    · cases h
    · cases h
      refine ⟨?_, List.dropLast_sublist args, rfl⟩
      simp only [Call.node, hd, if_true]
  unfold Call.prepare at h
  split at h
  · cases h
    exact ⟨rfl, chooseAction_sublist, rfl⟩
  · obtain ⟨args', hb, rfl⟩ := map_eq_ok_iff.mp h
    exact ⟨rfl, chooseBranch_sublist hb, rfl⟩
  · obtain ⟨scope', -, rfl⟩ := map_eq_ok_iff.mp h
    exact ⟨rfl, List.Sublist.refl _, rfl⟩
  · rename_i hc
    exact hdef (by rw [hc]; rfl) h
  · rename_i hc
    exact hdef (by rw [hc]; rfl) h
  · rename_i hc
    rw [hc] at hfn
    cases hfn
  · cases h
  · rename_i hc
    rw [hc] at hfn
    cases hfn
  · cases h
    exact ⟨rfl, List.Sublist.refl _, rfl⟩
  · rename_i hc
    rw [hc] at hfn
    cases hfn

end Running

end MiniLisp

import MiniLisp.Proofs.Application
import MiniLisp.Proofs.Equality
import MiniLisp.Proofs.Reimport

/-!
# The functions of the library

Importing the library makes the same functions in whatever files it is found. They are written out
here as definitions, so that what they do can be proved from their bodies. That these are the ones
which the import makes is found by running it once without any files (`Library.load_provides`): a
run that needs no file is the same with all files (`drive_runBlocks_noFiles`). The functions are
still there when others have been added to the global scope (`Library.Extended.provided`).
-/

namespace MiniLisp

/-! ## Telling values to be the same -/

mutual

/-- A proof that two values are the same, if they are found to be. Floats are not compared. -/
def Value.same? : (v u : Value) → Option (PLift (v = u))
  | .none, .none => some ⟨rfl⟩
  | .bool a, .bool b => if h : a = b then some ⟨congrArg Value.bool h⟩ else none
  | .int m, .int n => if h : m = n then some ⟨congrArg Value.int h⟩ else none
  | .symbol s, .symbol t => if h : s = t then some ⟨congrArg Value.symbol h⟩ else none
  | .text s, .text t => if h : s = t then some ⟨congrArg Value.text h⟩ else none
  | .tuple xs, .tuple ys => (Value.allSame? xs ys).map fun h => ⟨congrArg Value.tuple h.down⟩
  | .list xs, .list ys => (Value.allSame? xs ys).map fun h => ⟨congrArg Value.list h.down⟩
  | .function f, .function g => (f.same? g).map fun h => ⟨congrArg Value.function h.down⟩
  | .call c, .call d => (c.same? d).map fun h => ⟨congrArg Value.call h.down⟩
  | _, _ => none
termination_by structural v => v

/-- The same for all values of two lists. -/
def Value.allSame? : (vs us : List Value) → Option (PLift (vs = us))
  | [], [] => some ⟨rfl⟩
  | v :: vs, u :: us =>
    (v.same? u).bind fun h => (Value.allSame? vs us).map fun hs => ⟨by rw [h.down, hs.down]⟩
  | _, _ => none
termination_by structural vs => vs

/-- The same for functions. -/
def Function.same? : (f g : Function) → Option (PLift (f = g))
  | .builtin a, .builtin b => if h : a = b then some ⟨congrArg Function.builtin h⟩ else none
  | .user d, .user e => (d.same? e).map fun h => ⟨congrArg Function.user h.down⟩
  | _, _ => none
termination_by structural f => f

/-- The same for definitions. -/
def Definition.same? : (d e : Definition) → Option (PLift (d = e))
  | ⟨id, name, params, variadic, body, captures⟩,
      ⟨id', name', params', variadic', body', captures'⟩ =>
    if h : id = id' ∧ variadic = variadic' then
      (name.same? name').bind fun hname => (Value.allSame? params params').bind fun hparams =>
        (body.same? body').bind fun hbody => (Scope.same? captures captures').map fun hcaptures =>
          ⟨by rw [h.1, h.2, hname.down, hparams.down, hbody.down, hcaptures.down]⟩
    else none
termination_by structural d => d

/-- The same for the entries of scopes. -/
def Scope.same? : (s t : List (Value × Value)) → Option (PLift (s = t))
  | [], [] => some ⟨rfl⟩
  | (k, v) :: s, (k', v') :: t =>
    (k.same? k').bind fun hk => (v.same? v').bind fun hv => (Scope.same? s t).map fun hs =>
      ⟨by rw [hk.down, hv.down, hs.down]⟩
  | _, _ => none
termination_by structural s => s

/-- The same for calls. -/
def Call.same? : (c d : Call) → Option (PLift (c = d))
  | ⟨fn, args, resolved, prepared, body⟩, ⟨fn', args', resolved', prepared', body'⟩ =>
    if h : resolved = resolved' ∧ prepared = prepared' then
      (fn.same? fn').bind fun hfn => (Value.allSame? args args').bind fun hargs =>
        (body.same? body').map fun hbody => ⟨by rw [h.1, h.2, hfn.down, hargs.down, hbody.down]⟩
    else none
termination_by structural c => c

end

/-! ## Runs without files -/

/-- No files at all. -/
def Files.none : Files := ⟨fun _ => Option.none⟩

/-- A composed run with a value is another one if its parts are, where they have values. -/
theorem Outcome.andThen_eq_of_isValue {o o' : Outcome} {k k' : World → Value → Outcome}
    (ho : o.isValue = true → o' = o) (hk : ∀ w v, (k w v).isValue = true → k' w v = k w v)
    (h : (o.andThen k).isValue = true) : o'.andThen k' = o.andThen k := by
  obtain ⟨w, r⟩ := o
  cases r with
  | value v =>
    rw [ho rfl]
    exact hk w v h
  | failed e => cases h
  | outOfFuel => cases h

section NoFiles

variable {files : Files} {w : World}

theorem Frame.prepare_noFiles (f : Frame) (stack : List Frame) :
    f.prepare Files.none w stack = f.prepare files w stack ∨
      ∃ e, f.prepare Files.none w stack = .halt w (.error e) := by
  unfold Frame.prepare
  cases f.call.prepare f.scope w.globals f.args with
  | error e => exact Or.inl rfl
  | ok p =>
    dsimp only
    cases p.load with
    | none => exact Or.inl rfl
    | some path => exact Or.inr ⟨.fileNotFound path, rfl⟩

/-- Without files a step fails or does what it does with any files. -/
theorem step_noFiles (s : State) :
    step Files.none w s = step files w s ∨ ∃ e, step Files.none w s = .halt w (.error e) := by
  cases s with
  | enter f stack =>
    cases hf : f.resolve w.globals with
    | error e => exact Or.inr ⟨e, step_enter_error hf⟩
    | ok f' =>
      cases hready : f'.isReady (-1) with
      | true =>
        rw [step_enter_ready hf hready, step_enter_ready hf hready]
        exact f'.prepare_noFiles stack
      | false =>
        rw [step_enter_scan hf hready, step_enter_scan hf hready]
        exact Or.inl rfl
  | scan f stack =>
    cases hv : f.args[f.index]? with
    | none =>
      rw [step_scan_finish hv, step_scan_finish hv]
      exact Or.inl rfl
    | some v =>
      cases hcall : v.isCall with
      | true =>
        obtain ⟨c, rfl⟩ := Value.eq_call_of_isCall hcall
        rw [step_scan_call hv, step_scan_call hv]
        exact Or.inl rfl
      | false =>
        rw [step_scan_value hv hcall, step_scan_value hv hcall]
        cases f.isReady f.index with
        | true => exact f.prepare_noFiles stack
        | false => exact Or.inl rfl

/-- **A run that needs no files** and ends with a value does so with any files. -/
theorem drive_runBlocks_noFiles (n : Nat) :
    (∀ w s, (drive Files.none n w s).isValue = true →
        drive files n w s = drive Files.none n w s) ∧
      ∀ w last cs, (runBlocks Files.none n w last cs).isValue = true →
        runBlocks files n w last cs = runBlocks Files.none n w last cs := by
  -- both loops at once, since each starts the other with less fuel
  induction n with
  | zero =>
    refine ⟨fun w s h => ?_, fun w last cs h => ?_⟩
    · rw [drive_zero] at h
      cases h
    · rw [runBlocks_zero] at h
      cases h
  | succ n ih =>
    obtain ⟨ihd, ihb⟩ := ih
    refine ⟨fun w s h => ?_, fun w last cs h => ?_⟩
    · rcases @step_noFiles files w s with hs | ⟨e, hs⟩
      · cases hstep : step Files.none w s with
        | next w1 s1 =>
          rw [drive_succ_next hstep] at h ⊢
          rw [drive_succ_next (hs.symm.trans hstep)]
          exact ihd w1 s1 h
        | halt w1 r => rw [drive_succ_halt hstep, drive_succ_halt (hs.symm.trans hstep)]
        | load w1 text s1 =>
          rw [drive_succ_load hstep] at h ⊢
          rw [drive_succ_load (hs.symm.trans hstep)]
          exact Outcome.andThen_eq_of_isValue (ihb _ _ _) (fun w _ => ihd w s1) h
      · rw [drive_succ_halt hs] at h
        cases h
    · by_cases hne : cs = []
      · rw [hne, runBlocks_succ_nil, runBlocks_succ_nil]
      · cases hread : readCall w.globals cs with
        | error e => rw [runBlocks_succ_error hne hread, runBlocks_succ_error hne hread]
        | ok r =>
          obtain ⟨c, rest⟩ := r
          rw [runBlocks_succ_ok hne hread] at h ⊢
          rw [runBlocks_succ_ok hne hread]
          exact Outcome.andThen_eq_of_isValue (ihd _ _) (fun w v => ihb w v rest) h

end NoFiles

/-! ## Binding in scopes -/

namespace Scope

variable {s s' : Scope} {n : String} {k v : Value}

/-- No other key is that of a name. -/
theorem eq_of_symbol_isKey (h : Value.isKey (.symbol n) k = .ok true) : k = .symbol n := by
  unfold Value.isKey at h
  split at h
  · cases k with
    | symbol m =>
      have heq : (Value.symbol m).equal (.symbol n) = .ok (m == n) := rfl
      rw [heq] at h
      have hmn : (m == n) = true := Except.ok.inj h
      rw [eq_of_beq hmn]
    | _ => cases h
  · cases h

/-- Binding another key leaves a name as it is. -/
theorem find?_put_of_ne (h : s.put k v = .ok s') (hk : k ≠ .symbol n) (htext : k ≠ .text n) :
    s'.find? (.symbol n) = s.find? (.symbol n) := by
  induction s generalizing s' with
  | nil =>
    cases h
    obtain ⟨b, hb⟩ := exists_isKey_symbol htext
    cases b with
    | true => exact absurd (eq_of_isKey_symbol hb) hk
    | false =>
      rw [find?, find?, hb]
      rfl
  | cons e s ih =>
    obtain ⟨k', u⟩ := e
    rcases put_cons h with ⟨hkey, rfl⟩ | ⟨rest, -, hput, rfl⟩
    · have hne : k' ≠ .symbol n := by
        rintro rfl
        exact hk (eq_of_symbol_isKey hkey)
      rw [find?, find?]
      cases hn : Value.isKey k' (.symbol n) with
      | error e => rfl
      | ok b =>
        cases b with
        | true => exact absurd (eq_of_isKey_symbol hn) hne
        | false => rfl
    · rw [find?, find?, ih hput]

/-- What holds of all keys of a scope and of one more holds when this one is bound. -/
theorem forall_key_put {P : Value → Prop} (hs : ∀ e ∈ s, P e.1) (hk : P k)
    (h : s.put k v = .ok s') : ∀ e ∈ s', P e.1 := by
  induction s generalizing s' with
  | nil =>
    cases h
    exact List.forall_mem_singleton.mpr hk
  | cons e s ih =>
    obtain ⟨k', u⟩ := e
    rw [List.forall_mem_cons] at hs
    rcases put_cons h with ⟨-, rfl⟩ | ⟨rest, -, hput, rfl⟩
    · exact List.forall_mem_cons.mpr hs
    · exact List.forall_mem_cons.mpr ⟨hs.1, ih hs.2 hput⟩

/-- One more entry is bound behind others. -/
theorem insertAll_concat {entries : Scope} (h : s.insertAll entries = .ok s') :
    s.insertAll (entries ++ [(k, v)]) = s'.insert k v := by
  induction entries generalizing s with
  | nil =>
    cases h
    rw [List.nil_append, insertAll]
    cases s'.insert k v <;> rfl
  | cons e entries ih =>
    obtain ⟨k', u⟩ := e
    rw [insertAll] at h
    rw [List.cons_append, insertAll]
    cases hs : s.insert k' u with
    | error e =>
      rw [hs] at h
      cases h
    | ok t =>
      rw [hs] at h
      exact ih h

end Scope

/-! ## The functions -/

namespace Library

/-- `last` gives the last item of a list. -/
def last : Definition :=
  ⟨0, .symbol "last", [.symbol "ls"], false,
    .call (.begin (.builtin .nth) [.symbol "-1", .symbol "ls"]), []⟩

/-- A function that hands the items of a list to an anonymous function with the body `b`, which has
the first of them as `head` and the others as its rest. -/
def splitting (id : Nat) (name : String) (b : Call) : Definition :=
  ⟨id, .symbol name, [.symbol "ls"], false,
    .call (.begin (.builtin .binding) [quoted "f", .call (.defining "" ["head", "*"] b),
      .call (.defer (.symbol "f") [.symbol "*ls"])]), []⟩

/-- `head` gives the first item of a list. -/
def head : Definition :=
  splitting 1 "head" (.begin (.builtin .sum) [.symbol "head"])

/-- `tail` gives the items of a list behind the first. -/
def tail : Definition :=
  splitting 2 "tail" (.begin (.builtin .sum) [.symbol "*"])

/-- What `init` reverses: `(tail (reverse ls))`. -/
def cut : Call :=
  .begin (.user tail) [.call (.defer (.symbol "reverse") [.symbol "ls"])]

/-- `init` gives the items of a list before the last. `reverse` comes later in the text. -/
def init : Definition :=
  ⟨3, .symbol "init", [.symbol "ls"], false, .call (.defer (.symbol "reverse") [.call cut]), []⟩

/-- `neq` tells whether not all of its arguments are equal. -/
def neq : Definition :=
  ⟨4, .symbol "neq", [.symbol "*"], true,
    .call (.begin (.builtin .negation) [.call (.begin (.builtin .equality) [.symbol "**"])]), []⟩

/-- `empty` gives 1 if a list has no items, and none if it has. -/
def empty : Definition :=
  ⟨7, .symbol "empty", [.symbol "ls"], false,
    .call (.begin (.builtin .branch) [
      .call (.begin (.builtin .equality)
        [.call (.begin (.builtin .length) [.symbol "ls"]), .symbol "0"]),
      .call (.begin (.builtin .sum) [.symbol "1"])]), []⟩

/-- `body` gives the last of its arguments. `list` comes later in the text, so that its call is
deferred. -/
def body : Definition :=
  ⟨8, .symbol "body", [.symbol "call", .symbol "*"], true,
    .call (.begin (.builtin .branch) [
      .call (.begin (.user empty) [.symbol "*"]),
      .call (.begin (.builtin .sum) [.symbol "call"]),
      .call (.begin (.user last) [.call (.defer (.symbol "list") [
        .call (.begin (.builtin .sum) [.symbol "call"]),
        .call (.begin (.user last) [.symbol "*"])])])]), []⟩

/-- `list` gives its arguments as a list. -/
def list : Definition :=
  ⟨9, .symbol "list", [.symbol "*"], true, .call (.begin (.builtin .sum) [.symbol "*"]), []⟩

/-- The body of the helper of `map`. -/
def mapInner : Call :=
  .begin (.builtin .branch) [
    .call (.begin (.user empty) [.symbol "*"]),
    .call (.begin (.user list) [.call (.defer (.symbol "fn") [.symbol "first"])]),
    .call (.begin (.user list) [.call (.defer (.symbol "fn") [.symbol "first"]),
      .call (.defer (.symbol "__map_inner") [.symbol "fn", .symbol "**"])])]

/-- The body of the helper of `filter`. -/
def filterInner : Call :=
  .begin (.user list) [
    .call (.begin (.builtin .branch) [
      .call (.defer (.symbol "fn") [.symbol "first"]),
      .call (.begin (.builtin .sum) [.symbol "first"]),
      .call (.begin (.user list) [])]),
    .call (.begin (.builtin .branch) [
      .call (.begin (.builtin .length) [.symbol "*"]),
      .call (.defer (.symbol "__filter_inner") [.symbol "fn", .symbol "**"]),
      .call (.begin (.user list) [])])]

/-- The body of the helper of `accumulate`. -/
def accumulateInner : Call :=
  .begin (.builtin .branch) [
    .call (.begin (.user empty) [.symbol "*"]),
    .call (.defer (.symbol "fn") [.symbol "total", .symbol "first"]),
    .call (.defer (.symbol "__accumulate_inner") [.symbol "fn",
      .call (.defer (.symbol "fn") [.symbol "total", .symbol "first"]), .symbol "**"])]

/-- What `map` and `filter` do once their helper is defined: they flatten what it gives for the
items of the list, if there are any. -/
def gathered (helper : String) : Call :=
  .begin (.builtin .choice) [
    .call (.begin (.user empty) [.symbol "ls"]), .call (.begin (.user list) []),
    .call (.begin (.builtin .truth) []),
    .call (.begin (.builtin .flatten)
      [.call (.defer (.symbol helper) [.symbol "fn", .symbol "*ls"])])]

/-- A function that gathers what a helper gives for the items of a list. -/
def gathering (id : Nat) (name helper : String) (inner : Call) : Definition :=
  ⟨id, .symbol name, [.symbol "fn", .symbol "ls"], false,
    .call (.begin (.user body) [
      .call (.defining helper ["fn", "first", "*"] inner), .call (gathered helper)]), []⟩

/-- `map` gives what a function has for the items of a list. -/
def map : Definition :=
  gathering 10 "map" "__map_inner" mapInner

/-- `filter` gives the items of a list that a function is true of. -/
def filter : Definition :=
  gathering 11 "filter" "__filter_inner" filterInner

/-- `accumulate` takes the items of a list into a value one after the other. -/
def accumulate : Definition :=
  ⟨13, .symbol "accumulate", [.symbol "fn", .symbol "ls", .symbol "initial"], false,
    .call (.begin (.user body) [
      .call (.defining "__accumulate_inner" ["fn", "total", "first", "*"] accumulateInner),
      .call (.defer (.symbol "__accumulate_inner")
        [.symbol "fn", .symbol "initial", .symbol "*ls"])]), []⟩

/-- The test of the helper of `reverse` whether there is one item. -/
def reverseTest : Call :=
  .begin (.builtin .equality) [.call (.begin (.builtin .length) [.symbol "_ls"]), .symbol "1"]

/-- What the helper does with more than one item:
`(list (__reverse_inner (tail _ls)) (+ (head _ls)))`. -/
def reversedPair : Call :=
  .begin (.user list) [
    .call (.defer (.symbol "__reverse_inner") [.call (.begin (.user tail) [.symbol "_ls"])]),
    .call (.begin (.builtin .sum) [.call (.begin (.user head) [.symbol "_ls"])])]

/-- What the helper does with a list. -/
def reverseChoice : Call :=
  .begin (.builtin .branch) [.call reverseTest, .call (.begin (.builtin .sum) [.symbol "_ls"]),
    .call reversedPair]

/-- The body of the helper of `reverse`. -/
def reverseInner : Call :=
  .begin (.user body) [.call reverseChoice]

/-- `reverse` gives the items of a list from the last to the first. -/
def reverse : Definition :=
  ⟨14, .symbol "reverse", [.symbol "ls"], false,
    .call (.begin (.user body) [
      .call (.defining "__reverse_inner" ["_ls"] reverseInner),
      .call (.begin (.builtin .flatten)
        [.call (.defer (.symbol "__reverse_inner") [.symbol "ls"])])]), []⟩

/-- What the helper of `findif` does after a position that is not the one: it looks at the next, if
there is one. -/
def nextPosition : Call :=
  .begin (.builtin .branch) [
    .call (.begin (.user neq) [.symbol "idx", .call (.begin (.builtin .difference)
      [.call (.begin (.builtin .length) [.symbol "ls"]), .symbol "1"])]),
    .call (.defer (.symbol "__findif_inner")
      [.call (.begin (.builtin .sum) [.symbol "idx", .symbol "1"]), .symbol "ls",
        .symbol "pred"])]

/-- The body of the helper of `findif`. -/
def findifInner : Call :=
  .begin (.builtin .branch) [
    .call (.defer (.symbol "pred")
      [.symbol "idx", .call (.begin (.builtin .nth) [.symbol "idx", .symbol "ls"])]),
    .call (.begin (.builtin .sum) [.symbol "idx"]), .call nextPosition]

/-- `findif` gives the position of the first item that a function is true of. -/
def findif : Definition :=
  ⟨15, .symbol "findif", [.symbol "predicate", .symbol "ls"], false,
    .call (.begin (.builtin .branch) [
      .call (.begin (.user empty) [.symbol "ls"]), .call (.begin (.builtin .nothing) []),
      .call (.begin (.user body) [
        .call (.defining "__findif_inner" ["idx", "ls", "pred"] findifInner),
        .call (.defer (.symbol "__findif_inner")
          [.symbol "0", .symbol "ls", .symbol "predicate"])])]), []⟩

/-- The body of the function that `find` gives to `findif`. -/
def isWanted : Call :=
  .begin (.builtin .equality) [.symbol "val", .symbol "v"]

/-- How `find` makes this function. -/
def makeWanted : Call :=
  .begin (.builtin .lambda) [.call (.begin (.user list) [quoted "v"]), quoted "idx", quoted "val",
    .call isWanted]

/-- `find` gives the position of the first item that is equal to a value. -/
def find : Definition :=
  ⟨16, .symbol "find", [.symbol "v", .symbol "ls"], false,
    .call (.begin (.user body)
      [.call (.begin (.user findif) [.call makeWanted, .symbol "ls"])]), []⟩

/-- The functions of the library that are written out here, with their names. -/
def definitions : List (String × Definition) :=
  [("last", last), ("head", head), ("tail", tail), ("init", init), ("neq", neq), ("empty", empty),
    ("body", body), ("list", list), ("map", map), ("filter", filter), ("accumulate", accumulate),
    ("reverse", reverse), ("findif", findif), ("find", find)]

/-! ## What the import makes -/

/-- Whether a scope binds a name to a function that is found to be the same. -/
def binds (s : Scope) (e : String × Definition) : Bool :=
  match s.find? (.symbol e.1) with
  | .ok (some (.function (.user d))) => (d.same? e.2).isSome
  | _ => false

theorem find?_of_binds {s : Scope} {e : String × Definition} (h : binds s e = true) :
    s.find? (.symbol e.1) = .ok (some (.function (.user e.2))) := by
  unfold binds at h
  split at h
  · rename_i d hd
    obtain ⟨hsame, -⟩ := Option.isSome_iff_exists.mp h
    rw [hd, hsame.down]
  · cases h

/-- A world has the functions of the library. No text is a key of its global scope, so that all
names can be bound there. -/
structure Provided (w : World) : Prop where
  functions : ∀ e ∈ definitions, w.globals.find? (.symbol e.1) = .ok (some (.function (.user e.2)))
  keys : ∀ e ∈ w.globals, e.1.isText = false
  numbered : w.IsNumbered

/-- The library, run without files at the start, has a value and provides its functions. -/
theorem load_provides (script : Bool) :
    (load Files.none (World.start script)).isValue = true ∧
      Provided (load Files.none (World.start script)).world := by
  have hrun :
      let o : Outcome := load Files.none (World.start script)
      (o.isValue && definitions.all (binds o.world.globals) && o.world.globals.all fun e =>
        !e.1.isText && e.2.isMadeBefore o.world.made) = true := by
    cases script <;> decide +kernel
  extract_lets o at hrun
  simp only [Bool.and_eq_true, List.all_eq_true, Bool.not_eq_true'] at hrun
  obtain ⟨⟨hvalue, hbinds⟩, hentries⟩ := hrun
  exact ⟨hvalue, fun e he => find?_of_binds (hbinds e he), fun e he => (hentries e he).1,
    fun e he => (hentries e he).2⟩

/-- The world after the library has been imported at the start. -/
def imported (script : Bool) : World :=
  (load Files.none (World.start script)).world.after "" 1

/-- An entry that can be added to the global scope of the world `w` and leaves the library alone: a
function that has been made, under a name that the library does not define. A name is no text. -/
structure IsAddition (w : World) (e : Value × Value) : Prop where
  name : ∀ n ∈ functions, e.1 ≠ .symbol n
  key : e.1.isText = false
  function : ∃ f, e.2 = .function f
  made : e.2.isMadeBefore w.made = true

/-- The global scope of a world comes from importing the library once at the start and adding
functions under names that the library does not define. -/
def Extended (files : Files) (w : World) : Prop :=
  ∃ (script : Bool) (u : World) (r : Value) (added : Scope),
    TextEnds files (World.start script) (importText path) ⟨u, .value r⟩ ∧
      u.globals.insertAll added = .ok w.globals ∧ u.made ≤ w.made ∧ ∀ e ∈ added, IsAddition w e

section Additions

variable {files : Files} {w u : World}

theorem Provided.mono {w' : World} (h : Provided w) (hglobals : w'.globals = w.globals)
    (hmade : w.made ≤ w'.made) : Provided w' := by
  refine ⟨?_, ?_, h.numbered.mono hglobals hmade⟩
  · rw [hglobals]
    exact h.functions
  · rw [hglobals]
    exact h.keys

theorem IsAddition.mono {w' : World} {e : Value × Value} (h : IsAddition w e)
    (hmade : w.made ≤ w'.made) : IsAddition w' e :=
  ⟨h.name, h.key, h.function, Value.isMadeBefore_mono hmade h.made⟩

/-- Binding another key to a function that has been made keeps the library. -/
theorem Provided.insert {s : Scope} {k v : Value} (h : Provided w)
    (hk : ∀ e ∈ definitions, k ≠ .symbol e.1) (htext : k.isText = false)
    (hv : v.isMadeBefore w.made = true) (hs : w.globals.insert k v = .ok s) :
    Provided { w with globals := s } := by
  have hput := Scope.put_of_insert hs
  have hkeys : ∀ e ∈ s, e.1.isText = false :=
    Scope.forall_key_put (P := fun k => k.isText = false) h.keys htext hput
  refine ⟨fun e he => ?_, hkeys, Scope.All.insert h.numbered hv hs⟩
  have hne : k ≠ .text e.1 := by
    rintro rfl
    cases htext
  exact (Scope.find?_put_of_ne hput (hk e he) hne).trans (h.functions e he)

theorem mem_functions_of_mem_definitions {e : String × Definition} (he : e ∈ definitions) :
    e.1 ∈ functions := by
  have hall : definitions.all (fun e => functions.contains e.1) = true := by decide
  simpa using List.all_eq_true.mp hall e he

/-- The library can be imported at the start, whatever other files there are. -/
theorem textEnds_import (script : Bool) (hfile : files.contents? path = some source) :
    TextEnds files (World.start script) (importText path) ⟨imported script, .value .none⟩ := by
  obtain ⟨hvalue, -⟩ := load_provides script
  have hload : load files (World.start script) = load Files.none (World.start script) :=
    (drive_runBlocks_noFiles 30).2 _ _ _ hvalue
  have himport : hasCopy (World.start script).globals (World.start script).globals "import" =
      true := by
    cases script <;> decide +kernel
  unfold imported
  rw [← hload] at hvalue ⊢
  exact textEnds_importText_of_load script hfile himport hvalue

theorem Provided.after {text : String} {n : Nat} (h : Provided w) : Provided (w.after text n) :=
  h.mono rfl (Nat.le_refl _)

/-- What importing the library at the start leaves. -/
theorem provided_of_textEnds {script : Bool} {r : Value}
    (hfile : files.contents? path = some source)
    (hrun : TextEnds files (World.start script) (importText path) ⟨u, .value r⟩) : Provided u := by
  have hworld : u = imported script :=
    congrArg Outcome.world (BlocksEnd.unique hrun (textEnds_import script hfile))
  rw [hworld]
  exact (load_provides script).2.after

/-- **The library is there** after functions have been added. -/
theorem Extended.provided (hfile : files.contents? path = some source)
    (h : Extended files w) : Provided w := by
  obtain ⟨script, u, r, added, hrun, hinsert, hmade, hadded⟩ := h
  have hstart : Provided { w with globals := u.globals } :=
    (provided_of_textEnds hfile hrun).mono rfl hmade
  -- one addition after the other
  generalize u.globals = s at hinsert hstart
  induction added generalizing s with
  | nil =>
    cases hinsert
    exact hstart
  | cons e added ih =>
    obtain ⟨k, v⟩ := e
    rw [List.forall_mem_cons] at hadded
    rw [Scope.insertAll] at hinsert
    cases hs : s.insert k v with
    | error e =>
      rw [hs] at hinsert
      cases hinsert
    | ok s₁ =>
      rw [hs] at hinsert
      have hother : ∀ e ∈ definitions, k ≠ .symbol e.1 :=
        fun e he => hadded.1.name e.1 (mem_functions_of_mem_definitions he)
      exact ih hadded.2 s₁ hinsert
        (hstart.insert hother hadded.1.key hadded.1.made hs)

end Additions

end Library

end MiniLisp

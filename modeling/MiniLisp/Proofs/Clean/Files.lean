import MiniLisp.Proofs.Clean.Evaluator
import MiniLisp.Proofs.Reading.Position

/-!
# Texts without a call behind a star

That files are orderly can be seen from their texts: each call in them that has a call behind a star
must have a head that is bound (`Files.orderly_of_settled`). A head that is bound stays so, whatever
is evaluated before the file is imported and while its blocks are (`Evaluates.extends`), and a call
of such a head is not deferred.
-/

namespace MiniLisp

/-! ## Evaluation unbinds nothing -/

/-- What is evaluated after an outcome extends the world further. -/
theorem Outcome.extends_andThen {w : World} {o : Outcome} {k : World → Value → Outcome}
    (ho : w.Extends o.world) (hk : ∀ w' v, World.Extends w' (k w' v).world) :
    w.Extends (o.andThen k).world := by
  obtain ⟨w', r⟩ := o
  cases r with
  | value v => exact ho.trans (hk w' v)
  | failed e => exact ho
  | outOfFuel => exact ho

/-- Concluding a call extends the world at most by what the function defines. -/
theorem Call.conclude_extends (c : Call) (w : World) (scope : Scope) (args : List Value) :
    w.Extends (c.conclude w scope args).world := by
  unfold Call.conclude
  split
  · exact .refl w
  · have happly : w.Extends (c.apply w scope args).1 := Call.apply_extends rfl
    cases hr : (c.apply w scope args).2 <;> exact happly

/-- Whatever the evaluator comes to with the fuel `n`, it has only extended the world. -/
structure KeepsBindings (files : Files) (n : Nat) : Prop where
  call : ∀ w scope c, World.Extends w (evalCall files n w scope c).world
  pending : ∀ w scope c done todo, World.Extends w (evalUntil files n w scope c done todo).world
  prepared : ∀ w scope c args, World.Extends w (evalPrepared files n w scope c args).world
  settling : ∀ w scope c done todo, World.Extends w (evalRest files n w scope c done todo).world
  blocks : ∀ w last cs, World.Extends w (evalBlocks files n w last cs).world

theorem KeepsBindings.zero (files : Files) : KeepsBindings files 0 := by
  refine ⟨?_, ?_, ?_, ?_, ?_⟩
  · intro w scope c; rw [evalCall_zero]; exact .refl w
  · intro w scope c done todo; rw [evalUntil_zero]; exact .refl w
  · intro w scope c args; rw [evalPrepared_zero]; exact .refl w
  · intro w scope c done todo; rw [evalRest_zero]; exact .refl w
  · intro w last cs; rw [evalBlocks_zero]; exact .refl w

namespace KeepsBindings

variable {files : Files} {n : Nat} (ih : KeepsBindings files n)
include ih

theorem arg (w : World) (scope : Scope) (v : Value) :
    World.Extends w (evalArg (fun d => evalCall files n w scope d) w v).world := by
  cases v with
  | call d => exact ih.call w scope d
  | _ => exact .refl w

theorem call_succ (w : World) (scope : Scope) (c : Call) :
    World.Extends w (evalCall files (n + 1) w scope c).world := by
  rw [evalCall]
  split
  · exact .refl w
  · split
    · exact ih.prepared w scope c _
    · exact ih.pending w scope c [] _

theorem pending_succ (w : World) (scope : Scope) (c : Call) (done todo : List Value) :
    World.Extends w (evalUntil files (n + 1) w scope c done todo).world := by
  cases todo with
  | nil =>
    rw [evalUntil_succ_nil]
    exact c.conclude_extends w scope done
  | cons arg todo =>
    rw [evalUntil_succ_cons]
    refine Outcome.extends_andThen (ih.arg w scope arg) fun w' v => ?_
    split
    · exact ih.prepared w' scope c _
    · exact ih.pending w' scope c _ todo

theorem prepared_succ (w : World) (scope : Scope) (c : Call) (args : List Value) :
    World.Extends w (evalPrepared files (n + 1) w scope c args).world := by
  rw [evalPrepared]
  split
  · exact .refl w
  · split
    · exact ih.settling w _ _ [] _
    · split
      · exact .refl w
      · exact Outcome.extends_andThen (ih.blocks w .none _) fun w' _ => ih.settling w' _ _ [] _

theorem settling_succ (w : World) (scope : Scope) (c : Call) (done todo : List Value) :
    World.Extends w (evalRest files (n + 1) w scope c done todo).world := by
  cases todo with
  | nil =>
    rw [evalRest_succ_nil]
    exact c.conclude_extends w scope done
  | cons arg todo =>
    rw [evalRest_succ_cons]
    exact Outcome.extends_andThen (ih.arg w scope arg) fun w' v => ih.settling w' scope c _ todo

theorem blocks_succ (w : World) (last : Value) (cs : List Char) :
    World.Extends w (evalBlocks files (n + 1) w last cs).world := by
  cases cs with
  | nil =>
    rw [evalBlocks_succ_nil]
    exact .refl w
  | cons d cs =>
    rw [evalBlocks]
    split
    · exact .refl w
    · -- a block is counted before it is evaluated, which binds nothing
      have hstart : w.Extends w.startBlock := .of_eq rfl
      exact hstart.trans (Outcome.extends_andThen (ih.call _ [] _) fun w' v => ih.blocks w' v _)

theorem succ : KeepsBindings files (n + 1) :=
  ⟨ih.call_succ, ih.pending_succ, ih.prepared_succ, ih.settling_succ, ih.blocks_succ⟩

end KeepsBindings

/-- No evaluation takes a key away or binds one to anything but a defined function. -/
theorem keepsBindings (files : Files) (n : Nat) : KeepsBindings files n := by
  induction n with
  | zero => exact .zero files
  | succ n ih => exact ih.succ

/-- **Evaluation only extends the world.** -/
theorem Evaluates.extends {files : Files} {w : World} {scope : Scope} {c : Call} {o : Outcome}
    (h : Evaluates files w scope c o) : w.Extends o.world := by
  obtain ⟨-, n, rfl⟩ := h
  exact (keepsBindings files n).call w scope c

/-! ## Bound heads -/

/-- A key that has a value has one in every scope that begins with the same keys. -/
theorem Scope.exists_find?_of_keys {s s' : Scope} {k v : Value} (hkeys : s.keys <+: s'.keys)
    (h : s.find? k = .ok (some v)) : ∃ v', s'.find? k = .ok (some v') := by
  induction s generalizing s' with
  | nil => cases h
  | cons e s ih =>
    obtain ⟨k', u⟩ := e
    cases s' with
    | nil => cases List.prefix_nil.mp hkeys
    | cons e' s' =>
      obtain ⟨k'', u'⟩ := e'
      obtain ⟨rfl, hrest⟩ : k' = k'' ∧ Scope.keys s <+: Scope.keys s' :=
        List.cons_prefix_cons.mp hkeys
      rw [Scope.find?]
      rcases Scope.find?_cons h with ⟨hk, -⟩ | ⟨hk, h⟩
      · rw [hk]
        exact ⟨u', rfl⟩
      · rw [hk]
        exact ih hrest h

/-- Whether a name is bound in the global scope. -/
def World.binds (w : World) (name : String) : Bool :=
  match w.globals.find? (.symbol name) with
  | .ok (some _) => true
  | _ => false

theorem World.binds_iff {w : World} {name : String} :
    w.binds name = true ↔ ∃ v, w.globals.find? (.symbol name) = .ok (some v) := by
  unfold World.binds
  split <;> simp_all

/-- What is bound stays bound. -/
theorem World.Extends.binds {w w' : World} {name : String} (h : w.Extends w')
    (hb : w.binds name = true) : w'.binds name = true := by
  obtain ⟨v, hv⟩ := World.binds_iff.mp hb
  exact World.binds_iff.mpr (Scope.exists_find?_of_keys h.keys hv)

/-- Whether a value is the function of deferred calls. -/
def Value.isDeferring : Value → Bool
  | .function (.builtin .deferred) => true
  | _ => false

/-- What is bound later are defined functions. -/
theorem World.Extends.all_direct {w w' : World} (h : w.Extends w')
    (hw : w.globals.All fun v => v.isDeferring = false) :
    w'.globals.All fun v => v.isDeferring = false := by
  intro e he
  rcases h.bindings e he with hold | ⟨d, hd⟩
  · exact hw e hold
  · rw [hd]
    rfl

/-! ## Settled texts -/

/-- Whether the first of some items is a symbol with a property. -/
def Item.knownHead (p : String → Bool) : List Item → Bool
  | .symbol h :: _ => p h
  | _ => false

mutual

/-- Whether every call of an item has a head with a property, or no call behind a star. -/
def Item.isSettled (p : String → Bool) : Item → Bool
  | .call items =>
    (Item.knownHead p items || starsLast (Item.toValues items)) && Item.areSettled p items
  | _ => true

/-- Whether every call of some items has a head with a property, or no call behind a star. -/
def Item.areSettled (p : String → Bool) : List Item → Bool
  | [] => true
  | item :: items => item.isSettled p && Item.areSettled p items

end

/-- Whether all calls that can be read one behind the other from a text are settled. -/
def settledBlocks (p : String → Bool) : (fuel : Nat) → List Char → Bool
  | 0, _ => false
  | fuel + 1, cs =>
    match readCall [] cs with
    | .ok (c, rest) => (Item.call c.toItems).isSettled p && settledBlocks p fuel rest
    | .error _ => true

section Settled

variable {p : String → Bool} {globals : Scope}

theorem Item.exists_of_knownHead {items : List Item} (h : Item.knownHead p items = true) :
    ∃ name rest, items = .symbol name :: rest ∧ p name = true := by
  unfold Item.knownHead at h
  split at h
  · exact ⟨_, _, rfl, h⟩
  · cases h

/-- Whether an item is read to a star or to a call does not depend on what is bound. -/
theorem Item.build_shape {item : Item} {v : Value} (h : item.build globals = .ok v) :
    v.isStar = item.toValue.isStar ∧ v.isCall = item.toValue.isCall := by
  cases item with
  | symbol name =>
    cases h
    exact ⟨rfl, rfl⟩
  | text content =>
    cases h
    exact ⟨rfl, rfl⟩
  | call items =>
    rw [Item.build_call] at h
    obtain ⟨c, -, rfl⟩ := map_eq_ok_iff.mp h
    exact ⟨rfl, rfl⟩

/-- The items of a call show whether a call stands behind a star. -/
theorem Item.buildAll_shape {items : List Item} {vs : List Value}
    (h : Item.buildAll globals items = .ok vs) :
    starsLast vs = starsLast (Item.toValues items) ∧
      vs.all (!·.isCall) = (Item.toValues items).all (!·.isCall) := by
  induction items generalizing vs with
  | nil =>
    cases h
    exact ⟨rfl, rfl⟩
  | cons item items ih =>
    obtain ⟨v, hv, h⟩ := bind_eq_ok_iff.mp h
    obtain ⟨vs', hvs, rfl⟩ := map_eq_ok_iff.mp h
    obtain ⟨hstars, hcalls⟩ := ih hvs
    obtain ⟨hstar, hcall⟩ := Item.build_shape hv
    constructor
    · rw [Item.toValues, starsLast, starsLast, hstar, hstars, hcalls]
    · rw [Item.toValues, List.all_cons, List.all_cons, hcall, hcalls]

/-- A call is orderly if its items are, and if its head is bound or no call stands behind a star. -/
theorem closeCall_orderly (hp : ∀ h, p h = true → ∃ v, globals.find? (.symbol h) = .ok (some v))
    (hd : globals.All fun v => v.isDeferring = false) {items : List Item} {vs : List Value}
    {c : Call} (hbuild : Item.buildAll globals items = .ok vs)
    (hhead : (Item.knownHead p items || starsLast (Item.toValues items)) = true)
    (hvs : ∀ v ∈ vs, v.isOrderly = true) (h : closeCall globals vs = .ok c) :
    c.isOrderly = true := by
  cases vs with
  | nil => cases h
  | cons head args =>
    rw [closeCall, makeCall] at h
    split at h
    · cases h
    · -- the head is not bound, so the call is deferred
      rename_i hfind
      cases h
      refine (Call.isOrderly_iff _).mpr ⟨fun _ => ?_, hvs⟩
      rcases Bool.or_eq_true_iff.mp hhead with hknown | hstars
      · obtain ⟨name, items', rfl, hname⟩ := Item.exists_of_knownHead hknown
        obtain ⟨v, hv, hrest⟩ := bind_eq_ok_iff.mp hbuild
        obtain ⟨vs, -, hcons⟩ := map_eq_ok_iff.mp hrest
        cases hv
        cases hcons
        obtain ⟨u, hu⟩ := hp name hname
        cases hfind.symm.trans hu
      · show starsLast (head :: args) = true
        rw [(Item.buildAll_shape hbuild).1, hstars]
    · rename_i fn hfind
      rw [Function.eq_of_begin h]
      refine (Call.isOrderly_iff _).mpr
        ⟨fun hdeferred => ?_, fun v hv => hvs v (List.mem_cons_of_mem head hv)⟩
      have hdirect := hd.find? hfind
      unfold Call.isDeferred at hdeferred
      split at hdeferred
      · rename_i hfn
        rw [show fn = .builtin .deferred from hfn] at hdirect
        cases hdirect
      · cases hdeferred
    · cases h

mutual

/-- A settled item is read to an orderly expression. -/
theorem Item.isOrderly_of_isSettled
    (hp : ∀ h, p h = true → ∃ v, globals.find? (.symbol h) = .ok (some v))
    (hd : globals.All fun v => v.isDeferring = false) (item : Item) {v : Value}
    (hs : item.isSettled p = true) (h : item.build globals = .ok v) : v.isOrderly = true := by
  cases item with
  | symbol name =>
    cases h
    rfl
  | text content =>
    cases h
    rfl
  | call items =>
    rw [Item.isSettled, Bool.and_eq_true] at hs
    obtain ⟨vs, hvs, h⟩ := bind_eq_ok_iff.mp h
    obtain ⟨c, hc, rfl⟩ := map_eq_ok_iff.mp h
    exact closeCall_orderly hp hd hvs hs.1 (Item.areOrderly_of_areSettled hp hd items hs.2 hvs) hc

/-- Settled items are read to orderly expressions. -/
theorem Item.areOrderly_of_areSettled
    (hp : ∀ h, p h = true → ∃ v, globals.find? (.symbol h) = .ok (some v))
    (hd : globals.All fun v => v.isDeferring = false) (items : List Item) {vs : List Value}
    (hs : Item.areSettled p items = true) (h : Item.buildAll globals items = .ok vs) :
    ∀ v ∈ vs, v.isOrderly = true := by
  cases items with
  | nil =>
    cases h
    simp
  | cons item items =>
    rw [Item.areSettled, Bool.and_eq_true] at hs
    obtain ⟨v, hv, h⟩ := bind_eq_ok_iff.mp h
    obtain ⟨vs', hvs, rfl⟩ := map_eq_ok_iff.mp h
    intro u hu
    rcases List.mem_cons.mp hu with rfl | hu
    · exact Item.isOrderly_of_isSettled hp hd item hs.1 hv
    · exact Item.areOrderly_of_areSettled hp hd items hs.2 hvs u hu

end

/-- A call that is read from a settled text is one that is read while nothing is bound, with settled
items, and the text behind it is settled. -/
theorem settledBlocks_of_readCall {fuel : Nat} {cs rest : List Char} {c : Call}
    (hs : settledBlocks p fuel cs = true) (h : readCall globals cs = .ok (c, rest)) :
    ∃ items fuel', Item.close globals [] items = .ok c ∧ (Item.call items).isSettled p = true ∧
      settledBlocks p fuel' rest = true := by
  obtain ⟨items, text, rfl, htext, hclose⟩ := readCall_eq_ok_iff.mp h
  have hread : readCall [] (text ++ rest) = .ok (Item.toCall items, rest) :=
    readCall_eq_ok_iff.mpr ⟨items, text, rfl, htext, htext.close_nothing⟩
  cases fuel with
  | zero => cases hs
  | succ fuel =>
    rw [settledBlocks, hread] at hs
    obtain ⟨hitems, hrest⟩ := Bool.and_eq_true_iff.mp hs
    rw [Item.toItems_toCall] at hitems
    exact ⟨items, fuel, hclose, hitems, hrest⟩

end Settled

/-- The blocks of a text that is settled under the names bound in a world are orderly, in whatever
world its evaluation starts from there on. -/
theorem Block.isOrderly_of_settled {files : Files} {w w' : World} {cs : List Char} {c : Call}
    {fuel : Nat} (hw : w.globals.All fun v => v.isDeferring = false) (hext : w.Extends w')
    (hs : settledBlocks w.binds fuel cs = true) (hb : Block files w' cs c) :
    c.isOrderly = true := by
  induction hb generalizing fuel with
  | @first w' cs rest c h =>
    obtain ⟨items, -, hclose, hitems, -⟩ := settledBlocks_of_readCall hs h
    have hbuild : (Item.call items).build w'.globals = .ok (.call c) := by
      rw [Item.build_call, hclose]
      rfl
    exact Item.isOrderly_of_isSettled (fun h hh => World.binds_iff.mp (hext.binds hh))
      (hext.all_direct hw) (.call items) hitems hbuild
  | @later w' w'' cs rest c d v h hd hb ih =>
    obtain ⟨-, fuel', -, -, hrest⟩ := settledBlocks_of_readCall hs h
    have hstart : w'.Extends w'.startBlock := .of_eq rfl
    exact ih (hext.trans (hstart.trans hd.extends)) hrest

/-- **Settled files are orderly.** Where nothing is bound to the function of deferred calls, it is
enough that in the texts of the files each call with a call behind a star has a head that is
bound. -/
theorem Files.orderly_of_settled {entries : List (String × String)} {w : World}
    (hw : w.globals.All fun v => v.isDeferring = false)
    (hs : ∀ e ∈ entries,
      ∃ fuel, settledBlocks w.binds fuel (Source.normalise (unifyLineEnds e.2.toList)) = true) :
    (Files.ofList entries).Orderly w := by
  intro path text ht w' hgrow c hc
  obtain ⟨content, hlookup, rfl⟩ := Option.map_eq_some_iff.mp ht
  obtain ⟨front, back, rfl, -⟩ := List.lookup_eq_some_iff.mp hlookup
  obtain ⟨fuel, hfuel⟩ := hs (path, content) (by simp)
  exact Block.isOrderly_of_settled hw hgrow.toExtends hfuel hc

end MiniLisp

import Mathlib.Data.List.Pairwise
import MiniLisp.Proofs.Invariants
import MiniLisp.Proofs.ParameterScope

/-!
# The numbers of functions

Every function that is made gets the next number, by which it is told from the others. So a function
that is made changes the global scope (`World.IsNumbered.ne_of_define`). And since functions come
into the global scope only when they are made, no two names ever stand for the same one
(`World.IsTidy.name_eq`). This holds in every world that a program leads to
(`World.IsTidy.runBlocks`).
-/

namespace MiniLisp

/-! ## Functions that have been made -/

/-- Whether a value is no function with a number from `n` on. -/
def Value.isMadeBefore (n : Nat) : Value → Bool
  | .function (.user d) => d.id < n
  | _ => true

theorem Value.isMadeBefore_mono {n m : Nat} {v : Value} (hnm : n ≤ m)
    (h : v.isMadeBefore n = true) : v.isMadeBefore m = true := by
  cases v with
  | function f =>
    cases f with
    | builtin b => rfl
    | user d => exact decide_eq_true (Nat.lt_of_lt_of_le (of_decide_eq_true h) hnm)
  | _ => rfl

/-- The functions in the global scope of a world have been made. -/
def World.IsNumbered (w : World) : Prop :=
  w.globals.All fun v => v.isMadeBefore w.made = true

section Making

variable {files : Files} {w w' : World} {s s' : Scope} {st : State} {k v : Value} {o : Outcome}

theorem World.IsNumbered.mono (h : w.IsNumbered) (hglobals : w'.globals = w.globals)
    (hmade : w.made ≤ w'.made) : w'.IsNumbered := by
  unfold World.IsNumbered
  rw [hglobals]
  exact fun e he => Value.isMadeBefore_mono hmade (h e he)

/-- Functions are made and never lost. -/
theorem Ends.made_le (h : Ends files w st o) : w.made ≤ o.world.made := by
  obtain ⟨-, n, rfl⟩ := h
  have hstep : ∀ w₁ st, w.made ≤ w₁.made → True → True →
      (step files w₁ st).Satisfies (fun w' => w.made ≤ w'.made) fun _ => True := by
    intro w₁ st hw₁ _ _
    refine step_satisfies hw₁ fun c scope args w' r happly => ?_
    rcases Call.apply_cases happly with rfl | ⟨text, rfl⟩ | ⟨k, d, globals, -, -, rfl⟩
    · exact hw₁
    · exact hw₁
    · exact Nat.le_succ_of_le hw₁
  exact (invariant_of_visits (Q := fun _ => True) (fun w₁ _ _ _ hw₁ _ => ⟨hw₁, trivial⟩) hstep n).1
    w st (Nat.le_refl _) trivial fun _ _ => trivial

theorem Scope.exists_mem_of_put (h : s.put k v = .ok s') : ∃ e ∈ s', e.2 = v := by
  induction s generalizing s' with
  | nil =>
    cases h
    exact ⟨(k, v), List.mem_singleton_self _, rfl⟩
  | cons e s ih =>
    obtain ⟨k', u⟩ := e
    rcases put_cons h with ⟨-, rfl⟩ | ⟨rest, -, hput, rfl⟩
    · exact ⟨(k', v), List.mem_cons_self, rfl⟩
    · obtain ⟨e, he, hv⟩ := ih hput
      exact ⟨e, List.mem_cons_of_mem _ he, hv⟩

/-- A function that is made changes the global scope, since its number is new. -/
theorem World.IsNumbered.ne_of_define {name body : Value} {params : List Value} {variadic : Bool}
    {captures : Scope} (h : w.IsNumbered)
    (hdefine : w.define name params variadic body captures = (w', .ok v)) :
    w'.globals ≠ w.globals := by
  intro hglobals
  rcases World.define_cases hdefine with ⟨-, e, he⟩ | ⟨globals, hinsert, rfl, -⟩
  · cases he
  · obtain ⟨e, he, hv⟩ := Scope.exists_mem_of_put (Scope.put_of_insert hinsert)
    have hsame : globals = w.globals := hglobals
    rw [hsame] at he
    have hbefore := h e he
    rw [hv] at hbefore
    exact Nat.lt_irrefl _ (of_decide_eq_true hbefore)

end Making

/-! ## Names and functions -/

/-- Bindings of two names, and of two functions. -/
def Scope.Apart (e e' : Value × Value) : Prop :=
  (∀ n, e.1 = .symbol n → e'.1 ≠ .symbol n) ∧
    ∀ d d', e.2 = .function (.user d) → e'.2 = .function (.user d') → d.id ≠ d'.id

/-- Every name is bound once in the global scope, and to a function of its own. -/
structure World.IsTidy (w : World) : Prop where
  numbered : w.IsNumbered
  apart : w.globals.Pairwise Scope.Apart

instance : Std.Symm Scope.Apart where
  symm _ _ h := ⟨fun n he he' => h.1 n he' he, fun d d' hd hd' => (h.2 d' d hd' hd).symm⟩

section Tidy

variable {files : Files} {script : Bool} {w w' : World} {s s' : Scope} {k v : Value}

theorem Scope.mem_of_find? {n : String} (h : s.find? (.symbol n) = .ok (some v)) :
    (.symbol n, v) ∈ s := by
  induction s with
  | nil => cases h
  | cons e s ih =>
    obtain ⟨k, u⟩ := e
    rcases find?_cons h with ⟨hk, hv⟩ | ⟨-, hrest⟩
    · cases hv
      rw [eq_of_isKey_symbol hk]
      exact List.mem_cons_self
    · exact List.mem_cons_of_mem _ (ih hrest)

/-- Bindings stay apart when a key is bound to a function that is made. -/
theorem Scope.apart_put {d : Definition} (hs : s.Pairwise Scope.Apart)
    (hmade : s.All fun v => v.isMadeBefore d.id = true)
    (h : s.put k (.function (.user d)) = .ok s') : s'.Pairwise Scope.Apart := by
  have hnew : ∀ e ∈ s, ∀ d', e.2 = .function (.user d') → d'.id ≠ d.id := by
    intro e he d' hd'
    have hbefore := hmade e he
    rw [hd'] at hbefore
    exact Nat.ne_of_lt (of_decide_eq_true hbefore)
  induction s generalizing s' with
  | nil =>
    cases h
    exact List.pairwise_singleton _ _
  | cons e s ih =>
    obtain ⟨k', u⟩ := e
    obtain ⟨hfirst, hrest⟩ := List.pairwise_cons.mp hs
    rcases put_cons h with ⟨-, rfl⟩ | ⟨rest, hk, hput, rfl⟩
    · refine List.pairwise_cons.mpr ⟨fun e he => ⟨(hfirst e he).1, ?_⟩, hrest⟩
      rintro _ d' ⟨⟩ hd'
      exact (hnew e (List.mem_cons_of_mem _ he) d' hd').symm
    · refine List.pairwise_cons.mpr ⟨fun e he => ?_, ih hrest
        (fun e he => hmade e (List.mem_cons_of_mem _ he)) hput
        fun e he => hnew e (List.mem_cons_of_mem _ he)⟩
      rcases Scope.mem_put hput he with hold | ⟨hv, hkey⟩
      · exact hfirst e hold
      · refine ⟨fun n hn => ?_, fun d₁ d₂ hd₁ hd₂ => ?_⟩
        · rcases hkey with hkey | ⟨u', hu'⟩
          -- the key that is bound is another one
          · rintro heq
            have hn' : k' = .symbol n := hn
            rw [← hkey, heq, hn', isKey_symbol, beq_self_eq_true] at hk
            cases hk
          · exact (hfirst _ hu').1 n hn
        · rw [hv] at hd₂
          cases hd₂
          exact hnew _ List.mem_cons_self d₁ hd₁

/-- **No two names stand for the same function.** -/
theorem World.IsTidy.name_eq (h : w.IsTidy) {a b : String} {d e : Definition}
    (ha : w.globals.find? (.symbol a) = .ok (some (.function (.user d))))
    (hb : w.globals.find? (.symbol b) = .ok (some (.function (.user e)))) (hid : d.id = e.id) :
    a = b := by
  by_contra hne
  have hentries : ((.symbol a, .function (.user d)) : Value × Value) ≠
      (.symbol b, .function (.user e)) := by
    rintro ⟨⟩
    exact hne rfl
  exact (h.apart.forall (Scope.mem_of_find? ha) (Scope.mem_of_find? hb) hentries).2 d e rfl rfl hid

theorem World.IsTidy.lt_made (h : w.IsTidy) {n : String} {d : Definition}
    (hd : w.globals.find? (.symbol n) = .ok (some (.function (.user d)))) : d.id < w.made :=
  of_decide_eq_true (h.numbered.find? hd)

/-- Applying a function leaves a tidy world. -/
theorem World.IsTidy.apply (h : w.IsTidy) {c : Call} {scope : Scope} {args : List Value}
    {r : Except Error Value} (happly : c.apply w scope args = (w', r)) : w'.IsTidy := by
  rcases Call.apply_cases happly with rfl | ⟨text, rfl⟩ | ⟨k, d, globals, hid, hinsert, rfl⟩
  · exact h
  · exact ⟨h.numbered, h.apart⟩
  · have hnumbered : globals.All fun v => v.isMadeBefore (w.made + 1) = true := by
      refine Scope.All.insert (fun e he => ?_) ?_ hinsert
      · exact Value.isMadeBefore_mono (Nat.le_succ _) (h.numbered e he)
      · exact decide_eq_true (hid ▸ Nat.lt_succ_self _)
    exact ⟨hnumbered, Scope.apart_put h.apart (hid ▸ h.numbered) (Scope.put_of_insert hinsert)⟩

/-- A world in which a program starts has builtins only. -/
theorem World.tidy_start (script : Bool) : (World.start script).IsTidy := by
  have hnames : ((Builtin.named script).map Builtin.name).Nodup := by
    cases script <;> decide
  constructor
  · intro e he
    obtain ⟨b, -, rfl⟩ := List.mem_map.mp he
    rfl
  · rw [World.start, builtinScope, List.pairwise_map]
    refine (List.pairwise_map.mp hnames).imp fun hne => ⟨?_, ?_⟩
    · intro n hn hn'
      exact hne (Value.symbol.inj (hn.trans hn'.symm))
    · rintro d d' ⟨⟩

/-- **A program that is run in a tidy world leaves one.** -/
theorem World.IsTidy.runBlocks (h : w.IsTidy) (n : Nat) (last : Value) (cs : List Char) :
    (runBlocks files n w last cs).world.IsTidy := by
  have hstep : ∀ w st, w.IsTidy → True → True →
      (step files w st).Satisfies World.IsTidy fun _ => True :=
    fun w st hw _ _ => step_satisfies hw fun c scope args w' r => hw.apply
  exact (invariant_of_visits (Q := fun _ => True)
    (fun w _ _ _ hw _ => ⟨⟨hw.numbered, hw.apart⟩, trivial⟩) hstep n).2 w last cs h
      fun _ _ => trivial

end Tidy

end MiniLisp

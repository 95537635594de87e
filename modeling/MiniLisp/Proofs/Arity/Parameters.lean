import MiniLisp.Proofs.Closures

/-!
# Parameters as they are written

A function that takes any number of further arguments has the rest parameter as its last one, and
its arity counts the others (`Definition.ArityFits`). Whether it does is decided when the definition
begins, by looking for the rest parameter among the written arguments, the name of the function
included; the parameters are what the arguments turn out to be when the definition runs. The two
agree for a definition that is written plainly, with quoted parameters between a name and a body
that are neither starred nor the rest parameter itself (`Call.arityFits_of_isPlain`).
-/

namespace MiniLisp

/-! ## Parameters and their number -/

/-- Whether a parameter is the rest parameter. -/
def Value.isRest : Value → Bool
  | .symbol s => s == "*"
  | _ => false

/-- The arity data of a function fits its parameters: it takes further arguments exactly if the last
parameter is the rest parameter, which is no other one, and it counts the parameters but for this.
-/
structure Definition.ArityFits (d : Definition) : Prop where
  variadic_iff : d.variadic = true ↔ d.params.getLast? = some Call.restName
  rest_last : ∀ p ∈ d.params.dropLast, p ≠ Call.restName
  exact_eq : d.arity.exact = !d.variadic
  count_eq : d.arity.count = (d.params.countP fun p => !p.isRest : Nat)

/-- Parameters among which the rest parameter is at most the last one. -/
theorem Definition.arityFits_of_names {d : Definition} {names : List String}
    (hparams : d.params = names.map Value.symbol) (hrest : d.variadic = true ↔ "*" ∈ names)
    (hlast : ∀ j, names[j]? = some "*" → names.length ≤ j + 1) : d.ArityFits := by
  have hcount : ∀ front : List String, "*" ∉ front →
      (front.map Value.symbol).countP (fun p => !p.isRest) = front.length := by
    intro front hfront
    rw [List.countP_eq_length.mpr, List.length_map]
    intro p hp
    obtain ⟨n, hn, rfl⟩ := List.mem_map.mp hp
    have hne : n ≠ "*" := fun h => hfront (h ▸ hn)
    simpa [Value.isRest] using hne
  rcases List.eq_nil_or_concat names with rfl | ⟨front, last, rfl⟩
  · have hfixed : d.variadic = false := by simpa using hrest
    exact ⟨by simp [hfixed, hparams], by simp [hparams], rfl,
      by simp [Definition.arity, hfixed, hparams]⟩
  · rw [List.concat_eq_append] at hparams hrest hlast
    have hfront : "*" ∉ front := by
      intro hmem
      obtain ⟨j, hj⟩ := List.getElem?_of_mem hmem
      have hlt : j < front.length := (List.getElem?_eq_some_iff.mp hj).1
      have := hlast j (by rw [List.getElem?_append_left hlt]; exact hj)
      rw [List.length_append, List.length_singleton] at this
      omega
    have hiff : d.variadic = true ↔ last = "*" := by
      rw [hrest, List.mem_append, List.mem_singleton, eq_comm]
      exact or_iff_right hfront
    rw [List.map_append, List.map_singleton] at hparams
    refine ⟨?_, ?_, rfl, ?_⟩
    · rw [hparams, List.getLast?_concat, hiff]
      simp [Call.restName]
    · rw [hparams, List.dropLast_concat]
      intro p hp
      obtain ⟨n, hn, rfl⟩ := List.mem_map.mp hp
      intro h
      exact hfront (Value.symbol.inj h ▸ hn)
    · rw [hparams, List.countP_append, hcount front hfront, Definition.arity, hparams]
      by_cases hl : last = "*"
      · simp [hiff.mpr hl, hl, Value.isRest]
      · have hfixed : d.variadic = false := Bool.eq_false_iff.mpr fun h => hl (hiff.mp h)
        simp [hfixed, hl, Value.isRest]

/-! ## Definitions as they are written -/

/-- The rest parameter stands in one of the last two places only, and no text before it. -/
def RestFits (args : List Value) : Prop :=
  ∀ j, args[j]? = some (quoted "*") →
    args.length ≤ j + 2 ∧ ∀ i < j, ∀ s, args[i]? ≠ some (.text s)

section Rest

variable {args : List Value} {p : Option Nat}

/-- The position that is found is the first one of the rest parameter, and no text stands before. -/
theorem restPosition?_spec (h : restPosition? args = .ok p) :
    (∀ j, args[j]? = some (quoted "*") → ∃ i, p = some i ∧ i ≤ j) ∧
      ∀ i, p = some i → args[i]? = some (quoted "*") ∧ ∀ k < i, ∀ s, args[k]? ≠ some (.text s) := by
  induction args generalizing p with
  | nil =>
    cases h
    simp
  | cons a args ih =>
    by_cases ha : a = quoted "*"
    · rw [ha] at h ⊢
      cases h
      refine ⟨fun j _ => ⟨0, rfl, Nat.zero_le j⟩, ?_⟩
      rintro i ⟨⟩
      exact ⟨rfl, fun k hk => absurd hk (Nat.not_lt_zero k)⟩
    · obtain ⟨q, hq, rfl⟩ := restPosition?_cons ha h
      obtain ⟨hall, hfound⟩ := ih hq
      refine ⟨fun j hj => ?_, fun i hi => ?_⟩
      · cases j with
        | zero => exact absurd (Option.some.inj hj) ha
        | succ j =>
          obtain ⟨i, rfl, hle⟩ := hall j hj
          exact ⟨i + 1, rfl, Nat.succ_le_succ hle⟩
      · obtain ⟨i', hi', rfl⟩ := Option.map_eq_some_iff.mp hi
        obtain ⟨hrest, htext⟩ := hfound i' hi'
        refine ⟨hrest, fun k hk s => ?_⟩
        cases k with
        | zero =>
          intro hs
          rw [Option.some.inj hs] at h
          cases h
        | succ k => exact htext k (Nat.lt_of_succ_lt_succ hk) s

/-- The rest parameter is found if no text stands before it. -/
theorem restPosition?_of_getElem? {j : Nat} (hj : args[j]? = some (quoted "*"))
    (htext : ∀ i < j, ∀ s, args[i]? ≠ some (.text s)) :
    ∃ i, restPosition? args = .ok (some i) := by
  induction args generalizing j with
  | nil => simp at hj
  | cons a args ih =>
    by_cases ha : a = quoted "*"
    · exact ⟨0, by rw [ha]; rfl⟩
    · cases j with
      | zero => exact absurd (Option.some.inj hj) ha
      | succ j =>
        obtain ⟨i, hi⟩ := ih hj fun k hk => htext (k + 1) (Nat.succ_lt_succ hk)
        refine ⟨i + 1, ?_⟩
        cases a with
        | text s => exact absurd rfl (htext 0 (Nat.succ_pos j) s)
        | symbol s =>
          have hs : (s == "'*") = false := beq_false_of_ne fun hs => ha (by rw [hs]; rfl)
          rw [restPosition?, hs, if_neg Bool.false_ne_true, hi]
          rfl
        | _ =>
          rw [restPosition?, hi]
          · rfl
          all_goals simp

theorem RestFits.hasRest_iff (h : RestFits args) : hasRest args = true ↔ quoted "*" ∈ args := by
  constructor
  · intro hrest
    unfold hasRest at hrest
    split at hrest
    · rename_i i hi
      exact List.mem_of_getElem? ((restPosition?_spec hi).2 i rfl).1
    · cases hrest
  · intro hmem
    obtain ⟨j, hj⟩ := List.getElem?_of_mem hmem
    obtain ⟨i, hi⟩ := restPosition?_of_getElem? hj (h j hj).2
    rw [hasRest, hi]

/-- A definition that can begin has its rest parameter where it belongs. -/
theorem restFits_of_begin {fn : Function} {c : Call} (hfn : fn.isDefining = true)
    (h : fn.begin args = .ok c) : RestFits args := by
  obtain ⟨p, hp, hlen⟩ := restPosition?_of_begin hfn h
  obtain ⟨hall, hfound⟩ := restPosition?_spec hp
  intro j hj
  obtain ⟨i, rfl, hle⟩ := hall j hj
  obtain ⟨hrest, htext⟩ := hfound i rfl
  have hi := hlen i rfl
  have hlt : j < args.length := (List.getElem?_eq_some_iff.mp hj).1
  refine ⟨by omega, fun k hk s => ?_⟩
  by_cases hki : k < i
  · exact htext k hki s
  · -- only the rest parameter itself stands between `i` and `j`
    obtain rfl : k = i := by omega
    rw [hrest]
    exact fun h => Value.noConfusion (Option.some.inj h)

/-- A call in the place of an argument is neither the rest parameter nor a text. -/
theorem RestFits.set (h : RestFits args) (i : Nat) (d : Call) :
    RestFits (args.set i (.call d)) := by
  have hkeep : ∀ {k : Nat} {v : Value}, v.isCall = false → (args.set i (.call d))[k]? = some v →
      args[k]? = some v := by
    intro k v hv hk
    rw [List.getElem?_set] at hk
    split at hk
    · split at hk
      · cases hk
        cases hv
      · cases hk
    · exact hk
  intro j hj
  obtain ⟨hlen, htext⟩ := h j (hkeep rfl hj)
  rw [List.length_set]
  exact ⟨hlen, fun k hk s hs => htext k hk s (hkeep rfl hs)⟩

end Rest

/-- Whether an argument is a quoted name. -/
def Value.isQuoted : Value → Bool
  | .symbol s => s.toList.head? == some '\''
  | _ => false

/-- Whether an argument stands for one value and is not the rest parameter. -/
def Value.isSingle : Value → Bool
  | .symbol s => !(variableOf s).1 && s != "'*"
  | _ => true

/-- Whether a definition is written plainly: quoted parameters between a first argument and a body
that are neither starred nor the rest parameter. -/
def Call.isPlainDefinition (c : Call) : Bool :=
  match c.args with
  | [] => false
  | first :: rest =>
    first.isSingle && rest.dropLast.all Value.isQuoted && rest.getLast?.any Value.isSingle

section Plain

variable {v : Value} {vs : List Value} {c : Call}

theorem exists_quoted_of_isQuoted (h : v.isQuoted = true) : ∃ n, v = quoted n := by
  cases v with
  | symbol s =>
    have hs : s.toList.head? = some '\'' := eq_of_beq h
    obtain ⟨cs, hcs⟩ := List.head?_eq_some_iff.mp hs
    refine ⟨String.ofList cs, congrArg Value.symbol (String.toList_injective ?_)⟩
    rw [toList_quoted, String.toList_ofList, hcs]
  | _ => cases h

theorem exists_map_quoted (h : vs.all Value.isQuoted = true) :
    ∃ names : List String, vs = names.map quoted := by
  induction vs with
  | nil => exact ⟨[], rfl⟩
  | cons v vs ih =>
    rw [List.all_cons, Bool.and_eq_true] at h
    obtain ⟨n, rfl⟩ := exists_quoted_of_isQuoted h.1
    obtain ⟨names, rfl⟩ := ih h.2
    exact ⟨n :: names, rfl⟩

theorem isStar_of_isSingle (h : v.isSingle = true) : v.isStar = false := by
  cases v with
  | symbol s => simpa [Value.isStar] using (Bool.and_eq_true_iff.mp h).1
  | _ => rfl

theorem ne_rest_of_isSingle (h : v.isSingle = true) : v ≠ quoted "*" := by
  rintro rfl
  cases h

theorem Call.exists_of_isPlainDefinition (h : c.isPlainDefinition = true) :
    ∃ (first : Value) (names : List String) (body : Value),
      c.args = first :: (names.map quoted ++ [body]) ∧ first.isSingle = true ∧
      body.isSingle = true := by
  unfold Call.isPlainDefinition at h
  split at h
  · cases h
  · rename_i first rest hargs
    rw [Bool.and_eq_true, Bool.and_eq_true] at h
    obtain ⟨⟨hfirst, hparams⟩, hbody⟩ := h
    rcases List.eq_nil_or_concat rest with rfl | ⟨front, body, rfl⟩
    · cases hbody
    · rw [List.concat_eq_append] at hargs hparams hbody
      rw [List.dropLast_concat] at hparams
      rw [List.getLast?_concat] at hbody
      obtain ⟨names, rfl⟩ := exists_map_quoted hparams
      exact ⟨first, names, body, hargs, hfirst, hbody⟩

/-- In a plain definition the rest parameter is at most the last one. -/
theorem Call.arityFits_of_isPlain {d : Definition} {first body : Value} {names : List String}
    (hargs : c.args = first :: (names.map quoted ++ [body])) (hfirst : first.isSingle = true)
    (hbody : body.isSingle = true) (hfits : RestFits c.args)
    (hparams : d.params = names.map Value.symbol) (hvariadic : d.variadic = hasRest c.args) :
    d.ArityFits := by
  have hinj : ∀ {n : String}, quoted n = quoted "*" → n = "*" := by
    intro n h
    have hlist : '\'' :: n.toList = '\'' :: "*".toList := by
      rw [← toList_quoted, Value.symbol.inj h]
      rfl
    exact String.toList_injective (List.cons.inj hlist).2
  refine Definition.arityFits_of_names hparams ?_ fun j hj => ?_
  · rw [hvariadic, hfits.hasRest_iff, hargs, List.mem_cons, List.mem_append, List.mem_singleton,
      List.mem_map]
    constructor
    · rintro (h | ⟨n, hn, h⟩ | h)
      · exact absurd h.symm (ne_rest_of_isSingle hfirst)
      · rw [← hinj h]
        exact hn
      · exact absurd h.symm (ne_rest_of_isSingle hbody)
    · exact fun h => Or.inr (Or.inl ⟨"*", h, rfl⟩)
  · have hlt : j < names.length := (List.getElem?_eq_some_iff.mp hj).1
    have hwritten : c.args[j + 1]? = some (quoted "*") := by
      rw [hargs, List.getElem?_cons_succ, List.getElem?_append_left (by simpa using hlt),
        List.getElem?_map, hj]
      rfl
    have := (hfits _ hwritten).1
    rw [hargs] at this
    simp only [List.length_cons, List.length_append, List.length_map, List.length_nil] at this
    omega

end Plain

end MiniLisp

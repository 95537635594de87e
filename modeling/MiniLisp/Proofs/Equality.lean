import MiniLisp.Proofs.Flattening
import MiniLisp.Proofs.KnownValues

/-!
# Comparing values

`eq` collects the different ones among its values and looks whether there is one only. Two values
are compared by content if they hash alike, and a text cannot be compared with anything else. So
there are values that `eq` cannot tell apart nor take for the same: a text and the symbol of the
same characters, the empty text and a number that hashes to zero, and tuples that differ first in
such items (`Value.Clash`). Where no two values clash, `eq` says whether all are equal, and the
order of the values never matters (`eq_decides_unless_clash`).
-/

namespace MiniLisp

/-! ## Equal values -/

/-- A function that was made by the program is known by its number. -/
def Function.core : Function → Function
  | builtin b => builtin b
  | user d => user ⟨d.id, .none, [], false, .none, []⟩

/-- Functions are the same if they have the same core. -/
theorem Function.same_iff {f g : Function} : f.same g = true ↔ f.core = g.core := by
  cases f <;> cases g <;> simp [Function.same, Function.core]

/-- Integers are equal as numbers if they are the same. -/
theorem Number.equal_int_iff {m n : Int} : (Number.int m).equal (.int n) = true ↔ m = n := by
  simp [Number.equal, Number.compare?]

/-- The hash of an integer. -/
def Number.hashOfInt (n : Int) : Int :=
  signedHash (n < 0) (n.natAbs % hashModulus)

theorem Number.hash?_int (n : Int) : (Number.int n).hash? = some (hashOfInt n) :=
  rfl

namespace Value

mutual

/-- Whether a value is none, a truth value, an integer, a symbol, a text, a function, or a tuple of
such values. -/
def isComparable : Value → Bool
  | tuple items => allComparable items
  | float _ => false
  | list _ => false
  | call _ => false
  | _ => true
termination_by structural v => v

/-- Whether all values of a list are comparable. -/
def allComparable : List Value → Bool
  | [] => true
  | v :: vs => v.isComparable && allComparable vs
termination_by structural vs => vs

end

mutual

/-- What a value is compared by. Truth values count as numbers. Values are equal if they have the
same core. -/
def core : Value → Value
  | bool b => int (if b then 1 else 0)
  | function f => function f.core
  | tuple items => tuple (coreAll items)
  | v => v
termination_by structural v => v

/-- The cores of the values of a list. -/
def coreAll : List Value → List Value
  | [] => []
  | v :: vs => v.core :: coreAll vs
termination_by structural vs => vs

end

/-- The hash of characters, which is zero if there are none. -/
def hashOfText (s : String) : Value :=
  if s = "" then int 0 else symbol s

mutual

/-- What the hash of a value depends on. A text hashes like the symbol of the same characters. -/
def hashed : Value → Value
  | bool b => int (Number.hashOfInt (if b then 1 else 0))
  | int n => int (Number.hashOfInt n)
  | symbol s => hashOfText s
  | text s => hashOfText s
  | function f => function f.core
  | tuple items => tuple (hashedAll items)
  | v => v
termination_by structural v => v

/-- What the hashes of the values of a list depend on. -/
def hashedAll : List Value → List Value
  | [] => []
  | v :: vs => v.hashed :: hashedAll vs
termination_by structural vs => vs

end

/-- Whether a value is a text. -/
def isText : Value → Bool
  | text _ => true
  | _ => false

/-- Whether a value is a tuple. -/
def isTuple : Value → Bool
  | tuple _ => true
  | _ => false

mutual

/-- Two values that hash alike and cannot be compared: one of them is a text and the other is not,
or they are tuples that differ first in two such items. -/
def Clash : Value → Value → Prop
  | tuple xs, b =>
    match b with
    | tuple ys => ClashItems xs ys
    | _ => False
  | a, b => a.hashed = b.hashed ∧ a.isText ≠ b.isText
termination_by structural v => v

/-- Two items clash, the ones in front of them are equal, and those behind hash alike. -/
def ClashItems : List Value → List Value → Prop
  | [], _ => False
  | x :: xs, ys =>
    match ys with
    | [] => False
    | y :: ys => x.Clash y ∧ hashedAll xs = hashedAll ys ∨ x.core = y.core ∧ ClashItems xs ys
termination_by structural vs => vs

end

section Basic

variable {a b : Value} {xs ys : List Value}

theorem allComparable_iff : allComparable xs = true ↔ ∀ v ∈ xs, v.isComparable = true := by
  induction xs with
  | nil => simp [allComparable]
  | cons v xs ih => simp [allComparable, ih]

theorem coreAll_eq_map (xs : List Value) : coreAll xs = xs.map core := by
  induction xs with
  | nil => rfl
  | cons x xs ih => rw [coreAll, ih, List.map_cons]

theorem hashedAll_eq_map (xs : List Value) : hashedAll xs = xs.map hashed := by
  induction xs with
  | nil => rfl
  | cons x xs ih => rw [hashedAll, ih, List.map_cons]

theorem isComparable_tuple :
    (tuple xs).isComparable = true ↔ ∀ v ∈ xs, v.isComparable = true := by
  rw [isComparable, allComparable_iff]

/-- What holds of all values that are no tuples, and of a tuple if it holds of its items, holds of
all values. -/
theorem tuple_induction {P : Value → Prop} (hatom : ∀ v, v.isTuple = false → P v)
    (htuple : ∀ items, (∀ v ∈ items, P v) → P (tuple items)) (v : Value) : P v := by
  induction v using tree_induction with
  | hleaf v hv =>
    refine hatom v ?_
    cases v with
    | tuple items => cases hv
    | _ => rfl
  | hbranch v items hv ih =>
    rcases eq_of_branches? hv with rfl | rfl
    · exact htuple items ih
    · exact hatom _ rfl

/-- Atoms clash if their hashes are equal and only one of them is a text. -/
theorem clash_of_not_tuple (ha : a.isTuple = false) :
    a.Clash b ↔ a.hashed = b.hashed ∧ a.isText ≠ b.isText := by
  cases a with
  | tuple xs => cases ha
  | _ => rw [Clash]; simp

@[simp] theorem clash_tuple : (tuple xs).Clash (tuple ys) ↔ ClashItems xs ys := by
  rw [Clash]

@[simp] theorem not_clash_tuple (hb : b.isTuple = false) : ¬ (tuple xs).Clash b := by
  cases b with
  | tuple ys => cases hb
  | _ => simp [Clash]

/-- Items clash in front, where those behind hash alike, or behind equal ones. -/
theorem clashItems_cons {x y : Value} :
    ClashItems (x :: xs) (y :: ys) ↔
      x.Clash y ∧ hashedAll xs = hashedAll ys ∨ x.core = y.core ∧ ClashItems xs ys := by
  rw [ClashItems]

end Basic

/-! ## Equal values are alike -/

section Cores

variable {a a' b b' : Value} {xs ys : List Value}

/-- A core is its own core. -/
theorem core_core (a : Value) : a.core.core = a.core := by
  induction a using tuple_induction with
  | hatom a ha =>
    cases a with
    | tuple xs => cases ha
    | function f => cases f <;> rfl
    | _ => rfl
  | htuple xs ih =>
    rw [core, core, coreAll_eq_map, coreAll_eq_map, List.map_map]
    exact congrArg tuple (List.map_congr_left ih)

/-- A core hashes as the value does. -/
theorem hashed_core (a : Value) : a.core.hashed = a.hashed := by
  induction a using tuple_induction with
  | hatom a ha =>
    cases a with
    | tuple xs => cases ha
    | function f => cases f <;> rfl
    | _ => rfl
  | htuple xs ih =>
    rw [core, hashed, hashed, coreAll_eq_map, hashedAll_eq_map, hashedAll_eq_map, List.map_map]
    exact congrArg tuple (List.map_congr_left ih)

theorem isText_core (a : Value) : a.core.isText = a.isText := by
  cases a <;> rfl

theorem isTuple_core (a : Value) : a.core.isTuple = a.isTuple := by
  cases a <;> rfl

/-- Equal values hash alike. -/
theorem hashed_eq_of_core_eq (h : a.core = b.core) : a.hashed = b.hashed := by
  rw [← hashed_core a, h, hashed_core]

theorem clashItems_core (hxs : ∀ x ∈ xs, ∀ y : Value, x.core.Clash y.core ↔ x.Clash y) :
    ClashItems (xs.map core) (ys.map core) ↔ ClashItems xs ys := by
  induction xs generalizing ys with
  | nil => simp [ClashItems]
  | cons x xs ih =>
    cases ys with
    | nil => simp [ClashItems]
    | cons y ys =>
      rw [List.forall_mem_cons] at hxs
      have hback : ∀ zs : List Value, hashedAll (zs.map core) = hashedAll zs := by
        intro zs
        rw [hashedAll_eq_map, hashedAll_eq_map, List.map_map]
        exact List.map_congr_left fun z _ => hashed_core z
      rw [List.map_cons, List.map_cons, clashItems_cons, clashItems_cons, hxs.1 y, ih hxs.2,
        hback, hback, core_core, core_core]

/-- Whether values clash depends on their cores only. -/
theorem clash_core (a b : Value) : a.core.Clash b.core ↔ a.Clash b := by
  induction a using tuple_induction generalizing b with
  | hatom a ha =>
    rw [clash_of_not_tuple ha, clash_of_not_tuple (by rw [isTuple_core, ha]), hashed_core,
      hashed_core, isText_core, isText_core]
  | htuple xs ih =>
    cases hb : b.isTuple with
    | false =>
      have hb' : b.core.isTuple = false := by rw [isTuple_core, hb]
      simp [core, not_clash_tuple, hb, hb']
    | true =>
      cases b with
      | tuple ys =>
        rw [core, core, clash_tuple, clash_tuple, coreAll_eq_map, coreAll_eq_map,
          clashItems_core ih]
      | _ => cases hb

/-- Whether values clash depends on their cores only. -/
theorem clash_congr (ha : a.core = a'.core) (hb : b.core = b'.core) :
    a.Clash b ↔ a'.Clash b' := by
  rw [← clash_core, ha, hb, clash_core]

theorem not_clash_self (a : Value) : ¬ a.Clash a := by
  induction a using tuple_induction with
  | hatom a ha =>
    rw [clash_of_not_tuple ha]
    exact fun h => h.2 rfl
  | htuple xs ih =>
    rw [clash_tuple]
    induction xs with
    | nil => exact id
    | cons x xs ihxs =>
      rw [List.forall_mem_cons] at ih
      rw [clashItems_cons]
      rintro (⟨h, -⟩ | ⟨-, h⟩)
      · exact ih.1 h
      · exact ihxs ih.2 h

/-- Equal values do not clash. -/
theorem not_clash_of_core_eq (h : a.core = b.core) : ¬ a.Clash b := by
  rw [clash_congr h rfl]
  exact not_clash_self b

/-- Values that clash hash alike. -/
theorem Clash.hashed_eq (h : a.Clash b) : a.hashed = b.hashed := by
  induction a using tuple_induction generalizing b with
  | hatom a ha => exact ((clash_of_not_tuple ha).mp h).1
  | htuple xs ih =>
    cases hb : b.isTuple with
    | false => exact absurd h (not_clash_tuple hb)
    | true =>
      cases b with
      | tuple ys =>
        rw [clash_tuple] at h
        have hall : hashedAll xs = hashedAll ys := by
          induction xs generalizing ys with
          | nil => cases h
          | cons x xs ihxs =>
            rw [List.forall_mem_cons] at ih
            cases ys with
            | nil => cases h
            | cons y ys =>
              rw [hashedAll, hashedAll]
              rcases clashItems_cons.mp h with ⟨hxy, hback⟩ | ⟨hxy, hback⟩
              · rw [ih.1 hxy, hback]
              · rw [hashed_eq_of_core_eq hxy, ihxs ih.2 ys hback rfl]
        rw [hashed, hashed, hall]
      | _ => cases hb

theorem isTuple_hashed (a : Value) : a.hashed.isTuple = a.isTuple := by
  cases a with
  | symbol s | text s =>
    rw [hashed, hashOfText]
    split <;> rfl
  | _ => rfl

/-- Clashing does not depend on which value comes first. -/
theorem Clash.symm (h : a.Clash b) : b.Clash a := by
  have htuple : b.isTuple = a.isTuple := by
    rw [← isTuple_hashed, ← h.hashed_eq, isTuple_hashed]
  induction a using tuple_induction generalizing b with
  | hatom a ha =>
    obtain ⟨hhash, htext⟩ := (clash_of_not_tuple ha).mp h
    exact (clash_of_not_tuple (htuple.trans ha)).mpr ⟨hhash.symm, htext.symm⟩
  | htuple xs ih =>
    cases b with
    | tuple ys =>
      rw [clash_tuple] at h ⊢
      induction xs generalizing ys with
      | nil => cases h
      | cons x xs ihxs =>
        rw [List.forall_mem_cons] at ih
        cases ys with
        | nil => cases h
        | cons y ys =>
          rw [clashItems_cons]
          rcases clashItems_cons.mp h with ⟨hxy, hback⟩ | ⟨hxy, hback⟩
          · refine Or.inl ⟨ih.1 hxy ?_, hback.symm⟩
            rw [← isTuple_hashed, ← hxy.hashed_eq, isTuple_hashed]
          · exact Or.inr ⟨hxy.symm, ihxs ih.2 ys hback rfl⟩
    | _ => cases htuple

end Cores

/-! ## Comparing two values -/

/-- The answer `r` to whether a value is the key `b` is right for the value `a`. -/
inductive IsVerdict (a b : Value) : Except Error Bool → Prop where
  | equal (h : a.core = b.core) : IsVerdict a b (.ok true)
  | clash (h : a.Clash b) : IsVerdict a b (.error .notText)
  | different (hcore : a.core ≠ b.core) (hclash : ¬ a.Clash b) : IsVerdict a b (.ok false)

section Comparing

variable {a b : Value} {xs ys : List Value}

/-- Hashes are compared by what they depend on. -/
theorem sameHash_atom_iff (hatom : a.isTuple = false) (ha : a.isComparable = true)
    (hb : b.isComparable = true) : a.sameHash b = true ↔ a.hashed = b.hashed := by
  cases a <;> cases b <;>
    simp_all [sameHash, sameAtomHash, characters?, number?, Number.hash?_int, hashed,
      Function.same_iff, isTuple, isComparable] <;> grind [hashOfText]

/-- Atoms that are both texts, or both none, are equal if their cores are. -/
theorem equal_atom_iff (hatom : a.isTuple = false) (ha : a.isComparable = true)
    (hb : b.isComparable = true) (htext : a.isText = b.isText) :
    ∃ r, a.equal b = .ok r ∧ (r = true ↔ a.core = b.core) := by
  cases a <;> cases b <;>
    simp_all [equal, equalAtoms, number?, Number.equal_int_iff, Function.same_iff, core, isTuple,
      isText, isComparable]

/-- Comparing an atom with a value, where only one of them is a text, is an error. -/
theorem equal_of_isText_ne (hatom : a.isTuple = false) (ha : a.isComparable = true)
    (htext : a.isText ≠ b.isText) :
    a.equal b = .error .notText := by
  cases a <;> cases b <;> simp_all [equal, isTuple, isText, isComparable]

/-- Sequences have the same hash if their items do, one by one. -/
theorem sameHashes_iff (h : ∀ x ∈ xs, ∀ y ∈ ys, x.sameHash y = true ↔ x.hashed = y.hashed) :
    sameHashes xs ys = true ↔ hashedAll xs = hashedAll ys := by
  induction xs generalizing ys with
  | nil => cases ys <;> simp [sameHashes, hashedAll]
  | cons x xs ih =>
    cases ys with
    | nil => simp [sameHashes, hashedAll]
    | cons y ys =>
      have hfirst : x.sameHash y = true ↔ x.hashed = y.hashed := h x (by simp) y (by simp)
      have hrest : sameHashes xs ys = true ↔ hashedAll xs = hashedAll ys :=
        ih fun u hu v hv => h u (by simp [hu]) v (by simp [hv])
      rw [sameHashes, Bool.and_eq_true, hfirst, hrest, hashedAll, hashedAll, List.cons.injEq]

/-- Comparable values are found to hash alike if what their hashes depend on is the same. -/
theorem sameHash_iff (ha : a.isComparable = true) (hb : b.isComparable = true) :
    a.sameHash b = true ↔ a.hashed = b.hashed := by
  induction a using tuple_induction generalizing b with
  | hatom a hatom => exact sameHash_atom_iff hatom ha hb
  | htuple xs ih =>
    rw [isComparable_tuple] at ha
    cases hb' : b.isTuple with
    | true =>
      cases b with
      | tuple ys =>
        rw [isComparable_tuple] at hb
        rw [sameHash, sameHashes_iff fun x hx y hy => ih x hx (ha x hx) (hb y hy), hashed, hashed,
          tuple.injEq]
      | _ => cases hb'
    | false =>
      have hne : (tuple xs).hashed ≠ b.hashed := by
        intro h
        have htuple := congrArg isTuple h
        rw [isTuple_hashed, isTuple_hashed, hb'] at htuple
        cases htuple
      cases b with
      | tuple ys => cases hb'
      | _ => simp [sameHash, hne]

theorem isVerdict_equal_atom (hatom : a.isTuple = false) (ha : a.isComparable = true)
    (hb : b.isComparable = true) (hhash : a.hashed = b.hashed) : IsVerdict a b (a.equal b) := by
  by_cases htext : a.isText = b.isText
  · obtain ⟨r, hr, hiff⟩ := equal_atom_iff hatom ha hb htext
    rw [hr]
    cases r with
    | true => exact .equal (hiff.mp rfl)
    | false =>
      refine .different (fun h => Bool.false_ne_true (hiff.mpr h)) ?_
      rw [clash_of_not_tuple hatom]
      exact fun h => h.2 htext
  · rw [equal_of_isText_ne hatom ha htext]
    exact .clash ((clash_of_not_tuple hatom).mpr ⟨hhash, htext⟩)

/-- What is right for the rest of two tuples is right for the whole, if the first items are equal.
-/
theorem IsVerdict.cons {x y : Value} {r : Except Error Bool} (hxy : x.core = y.core)
    (h : IsVerdict (tuple xs) (tuple ys) r) : IsVerdict (tuple (x :: xs)) (tuple (y :: ys)) r := by
  have hcore : (tuple (x :: xs)).core = (tuple (y :: ys)).core ↔
      (tuple xs).core = (tuple ys).core := by
    simp [core, coreAll, hxy]
  have hclash : (tuple (x :: xs)).Clash (tuple (y :: ys)) ↔ (tuple xs).Clash (tuple ys) := by
    rw [clash_tuple, clash_tuple, clashItems_cons]
    simp [hxy, not_clash_of_core_eq hxy]
  cases h with
  | equal h => exact .equal (hcore.mpr h)
  | clash h => exact .clash (hclash.mpr h)
  | different hne hnot => exact .different (mt hcore.mp hne) (mt hclash.mp hnot)

/-- Items are compared one by one, and the first difference decides. -/
theorem isVerdict_equalItems
    (h : ∀ x ∈ xs, ∀ y ∈ ys, x.hashed = y.hashed → IsVerdict x y (x.equal y))
    (hhash : hashedAll xs = hashedAll ys) :
    IsVerdict (tuple xs) (tuple ys) (equalItems xs ys) := by
  induction xs generalizing ys with
  | nil =>
    cases ys with
    | nil => exact .equal rfl
    | cons y ys => cases hhash
  | cons x xs ih =>
    cases ys with
    | nil => cases hhash
    | cons y ys =>
      obtain ⟨hfirst, hrest⟩ := List.cons.inj hhash
      have hverdict : IsVerdict x y (x.equal y) := h x (by simp) y (by simp) hfirst
      rw [equalItems]
      generalize x.equal y = r at hverdict
      cases hverdict with
      | equal hxy =>
        exact .cons hxy (ih (fun u hu v hv => h u (by simp [hu]) v (by simp [hv])) hrest)
      | clash hxy => exact .clash (clash_tuple.mpr (clashItems_cons.mpr (.inl ⟨hxy, hrest⟩)))
      | different hne hnot =>
        refine .different (fun hcore => hne ?_) fun hclash => ?_
        · simp only [core, coreAll, tuple.injEq, List.cons.injEq] at hcore
          exact hcore.1
        · rcases clashItems_cons.mp (clash_tuple.mp hclash) with ⟨hxy, -⟩ | ⟨hxy, -⟩
          · exact hnot hxy
          · exact hne hxy

/-- Of values with equal hashes, the comparison finds a clash or tells their cores apart. -/
theorem isVerdict_equal (ha : a.isComparable = true) (hb : b.isComparable = true)
    (hhash : a.hashed = b.hashed) : IsVerdict a b (a.equal b) := by
  induction a using tuple_induction generalizing b with
  | hatom a hatom => exact isVerdict_equal_atom hatom ha hb hhash
  | htuple xs ih =>
    have htuple : b.isTuple = true := by
      rw [← isTuple_hashed, ← hhash, isTuple_hashed]
      rfl
    cases b with
    | tuple ys =>
      rw [isComparable_tuple] at ha hb
      rw [equal]
      exact isVerdict_equalItems (fun x hx y hy => ih x hx (ha x hx) (hb y hy))
        (tuple.inj hhash)
    | _ => cases htuple

/-- **Two comparable values** are found to be equal if they are, and cannot be compared if they
clash. -/
theorem isVerdict_isKey (ha : a.isComparable = true) (hb : b.isComparable = true) :
    IsVerdict a b (isKey b a) := by
  unfold isKey
  by_cases hhash : a.hashed = b.hashed
  · rw [if_pos ((sameHash_iff ha hb).mpr hhash)]
    exact isVerdict_equal ha hb hhash
  · rw [if_neg (by rw [sameHash_iff ha hb]; exact hhash)]
    exact .different (fun h => hhash (hashed_eq_of_core_eq h)) fun h => hhash h.hashed_eq

end Comparing

/-! ## Comparing many values -/

/-- Some two values of a list clash. -/
def HasClash (vs : List Value) : Prop :=
  ∃ a ∈ vs, ∃ b ∈ vs, a.Clash b

/-- All values of a list are equal to each other. -/
def AllEqual (vs : List Value) : Prop :=
  ∀ a ∈ vs, ∀ b ∈ vs, a.core = b.core

/-- What looking for a value among the keys `ks` tells of the value `v`. -/
inductive IsSearched (v : Value) (ks : List Value) : Except Error Bool → Prop where
  | found {k : Value} (hk : k ∈ ks) (h : v.core = k.core) : IsSearched v ks (.ok true)
  | clash {k : Value} (hk : k ∈ ks) (h : v.Clash k) : IsSearched v ks (.error .notText)
  | missing (hcore : ∀ k ∈ ks, v.core ≠ k.core) (hclash : ∀ k ∈ ks, ¬ v.Clash k) :
      IsSearched v ks (.ok false)

section Many

variable {v k : Value} {ks vs us : List Value}

/-- Looking for a value among keys ends at the first that is equal or clashes. -/
theorem isSearched_isAmong (hv : v.isComparable = true) (hks : ∀ k ∈ ks, k.isComparable = true) :
    IsSearched v ks (v.isAmong ks) := by
  induction ks with
  | nil => exact .missing (by simp) (by simp)
  | cons k ks ih =>
    rw [List.forall_mem_cons] at hks
    have hverdict : IsVerdict v k (isKey k v) := isVerdict_isKey hv hks.1
    rw [isAmong]
    generalize isKey k v = r at hverdict
    cases hverdict with
    | equal h => exact .found List.mem_cons_self h
    | clash h => exact .clash List.mem_cons_self h
    | different hcore hclash =>
      have hrest : IsSearched v ks (v.isAmong ks) := ih hks.2
      dsimp only
      generalize v.isAmong ks = r at hrest
      cases hrest with
      | found hk h => exact .found (List.mem_cons_of_mem k hk) h
      | clash hk h => exact .clash (List.mem_cons_of_mem k hk) h
      | missing hcores hclashes =>
        exact .missing (List.forall_mem_cons.mpr ⟨hcore, hcores⟩)
          (List.forall_mem_cons.mpr ⟨hclash, hclashes⟩)

/-- A value that is equal to a key adds no clash. -/
theorem hasClash_drop (hk : k ∈ ks) (h : v.core = k.core) :
    HasClash (ks ++ v :: vs) ↔ HasClash (ks ++ vs) := by
  have hstand : ∀ a ∈ ks ++ v :: vs, ∃ a' ∈ ks ++ vs, a.core = a'.core := by
    intro a ha
    simp only [List.mem_append, List.mem_cons] at ha
    rcases ha with ha | rfl | ha
    · exact ⟨a, List.mem_append_left _ ha, rfl⟩
    · exact ⟨k, List.mem_append_left _ hk, h⟩
    · exact ⟨a, List.mem_append_right _ ha, rfl⟩
  constructor
  · rintro ⟨a, ha, b, hb, hab⟩
    obtain ⟨a', ha', hcore⟩ := hstand a ha
    obtain ⟨b', hb', hcore'⟩ := hstand b hb
    exact ⟨a', ha', b', hb', (clash_congr hcore hcore').mp hab⟩
  · rintro ⟨a, ha, b, hb, hab⟩
    have hsub : ∀ x ∈ ks ++ vs, x ∈ ks ++ v :: vs := by
      intro x hx
      rcases List.mem_append.mp hx with hx | hx
      · exact List.mem_append_left _ hx
      · exact List.mem_append_right _ (List.mem_cons_of_mem v hx)
    exact ⟨a, hsub a ha, b, hsub b hb, hab⟩

theorem hashable_of_isComparable (h : v.isComparable = true) : v.hashable = true := by
  induction v using tuple_induction with
  | hatom v hv =>
    cases v with
    | tuple items => cases hv
    | list items => cases h
    | _ => rfl
  | htuple items ih =>
    rw [isComparable_tuple] at h
    rw [hashable]
    induction items with
    | nil => rfl
    | cons x items ihitems =>
      rw [List.forall_mem_cons] at h ih
      rw [allHashable, ih.1 h.1, ihitems ih.2 h.2]
      rfl

/-- A key that is new does not clash with the keys that are there. -/
theorem not_hasClash_concat (hks : ¬ HasClash ks) (hv : ∀ k ∈ ks, ¬ v.Clash k) :
    ¬ HasClash (ks ++ [v]) := by
  rintro ⟨a, ha, b, hb, hab⟩
  simp only [List.mem_append, List.mem_singleton] at ha hb
  rcases ha with ha | rfl <;> rcases hb with hb | rfl
  · exact hks ⟨a, ha, b, hb, hab⟩
  · exact hv a ha hab.symm
  · exact hv b hb hab
  · exact not_clash_self _ hab

/-- Collecting the different ones among comparable values fails if two of them clash. Otherwise the
keys have different cores, which are those of the values. -/
theorem distinct_spec (hks : ∀ k ∈ ks, k.isComparable = true)
    (hvs : ∀ v ∈ vs, v.isComparable = true) (hclash : ¬ HasClash ks)
    (hnodup : (ks.map core).Nodup) :
    (HasClash (ks ++ vs) ∧ distinct ks vs = .error .notText) ∨
      ¬ HasClash (ks ++ vs) ∧ ∃ keys, distinct ks vs = .ok keys ∧ (keys.map core).Nodup ∧
        ∀ x, x ∈ keys.map core ↔ x ∈ (ks ++ vs).map core := by
  induction vs generalizing ks with
  | nil =>
    rw [List.append_nil]
    exact Or.inr ⟨hclash, ks, rfl, hnodup, fun x => Iff.rfl⟩
  | cons v vs ih =>
    rw [List.forall_mem_cons] at hvs
    have hsearch : IsSearched v ks (v.isAmong ks) := isSearched_isAmong hvs.1 hks
    rw [distinct, if_pos (hashable_of_isComparable hvs.1)]
    generalize v.isAmong ks = r at hsearch
    cases hsearch with
    | clash hk h => exact Or.inl ⟨⟨v, by simp, _, List.mem_append_left _ hk, h⟩, rfl⟩
    | found hk h =>
      rw [hasClash_drop hk h]
      rcases ih hks hvs.2 hclash hnodup with hfail | ⟨hnone, keys, hkeys, hnodup', hmem⟩
      · exact Or.inl hfail
      · refine Or.inr ⟨hnone, keys, hkeys, hnodup', fun x => ?_⟩
        have hcore : v.core ∈ ks.map core := h ▸ List.mem_map_of_mem hk
        rw [hmem]
        simp only [List.map_append, List.map_cons, List.mem_append, List.mem_cons]
        constructor
        · rintro (hx | hx)
          · exact Or.inl hx
          · exact Or.inr (Or.inr hx)
        · rintro (hx | rfl | hx)
          · exact Or.inl hx
          · exact Or.inl hcore
          · exact Or.inr hx
    | missing hcores hclashes =>
      have hsplit : ks ++ v :: vs = ks ++ [v] ++ vs := by simp
      rw [hsplit]
      refine ih ?_ hvs.2 (not_hasClash_concat hclash hclashes) ?_
      · intro k hk
        rcases List.mem_append.mp hk with hk | hk
        · exact hks k hk
        · rw [List.mem_singleton.mp hk]
          exact hvs.1
      · rw [List.map_append, List.nodup_append]
        refine ⟨hnodup, by simp, fun x hx y hy hxy => ?_⟩
        obtain ⟨k, hk, rfl⟩ := List.mem_map.mp hx
        rw [List.map_cons, List.map_nil, List.mem_singleton] at hy
        exact hcores k hk (hy.symm.trans hxy.symm)

/-- Whether all values are equal, if none clash. -/
theorem allEqual_spec (hne : vs ≠ []) (hvs : ∀ v ∈ vs, v.isComparable = true) :
    (HasClash vs ∧ allEqual vs = .error .notText) ∨
      ¬ HasClash vs ∧ ∃ b, allEqual vs = .ok b ∧ (b = true ↔ AllEqual vs) := by
  have hempty : ¬ HasClash [] := fun ⟨_, h, _⟩ => List.not_mem_nil h
  unfold allEqual
  rcases @distinct_spec [] vs (by simp) hvs hempty List.nodup_nil with
    ⟨hclash, hfail⟩ | ⟨hclash, keys, hkeys, hnodup, hmem⟩
  · exact Or.inl ⟨hclash, by rw [hfail]; rfl⟩
  · rw [List.nil_append] at hclash hmem
    refine Or.inr ⟨hclash, _, by rw [hkeys]; rfl, ?_⟩
    rw [beq_iff_eq]
    have hcores : ∀ v ∈ vs, v.core ∈ keys.map core :=
      fun v hv => (hmem _).mpr (List.mem_map_of_mem hv)
    constructor
    · intro hlen a ha b hb
      obtain ⟨k, rfl⟩ := List.length_eq_one_iff.mp hlen
      have ha' := hcores a ha
      have hb' := hcores b hb
      rw [List.map_cons, List.map_nil, List.mem_singleton] at ha' hb'
      exact ha'.trans hb'.symm
    · intro hall
      rcases keys with _ | ⟨k, _ | ⟨k', rest⟩⟩
      · obtain ⟨v, hv⟩ := List.exists_mem_of_ne_nil vs hne
        cases hcores v hv
      · rfl
      · -- two keys would stand for two values that differ
        obtain ⟨a, ha, hak⟩ := List.mem_map.mp ((hmem k.core).mp (by simp))
        obtain ⟨b, hb, hbk⟩ := List.mem_map.mp ((hmem k'.core).mp (by simp))
        have hsame : k.core = k'.core := by rw [← hak, ← hbk, hall a ha b hb]
        simp [hsame] at hnodup

end Many

end Value

/-! ## The function `eq` -/

/-- Every call of `eq` whose arguments have the values `vs` ends with the result `r`, in the world
that the arguments leave. -/
def EqEnds (vs : List Value) (r : Result) : Prop :=
  ∀ (files : Files) (scope : Scope) (w w' : World) (args xs : List Value), Place scope w args →
    lookupAll scope w.globals (.begin (.builtin .equality) args) args = .ok xs →
      ArgsEnd files scope w xs w' vs →
        ∀ o, Ends files w (.start (.begin (.builtin .equality) args) scope) o ↔ o = ⟨w', r⟩

section Calls

variable {vs us : List Value}

/-- `eq` compares all its arguments once they are evaluated. -/
theorem Call.conclude_equality {w : World} {scope : Scope} {args : List Value}
    (hlen : 2 ≤ vs.length) :
    (Call.begin (.builtin .equality) args).conclude w scope vs =
      Outcome.ofExcept w ((Value.allEqual vs).map .bool) := by
  have hcount : (Call.begin (.builtin .equality) args).validate vs = .ok () := by
    refine if_pos (decide_eq_true ?_)
    show (2 : Int) ≤ vs.length
    omega
  have hlate : (Call.begin (.builtin .equality) args).fn.checksEarly = false := rfl
  rw [Call.conclude, hlate, if_neg Bool.false_ne_true, hcount]
  rfl

theorem eqEnds_of_outcome {r : Result} (hlen : 2 ≤ vs.length)
    (h : ∀ w, Outcome.ofExcept w ((Value.allEqual vs).map .bool) = ⟨w, r⟩) : EqEnds vs r := by
  intro files scope w w' args xs hplace hlook hargs o
  rw [hplace.ends_strict_iff rfl hlook, hargs.afterArgs_iff, Call.conclude_equality hlen, h]

/-- Whether some two of the values clash does not depend on their order. -/
theorem Value.HasClash.perm (h : us.Perm vs) : Value.HasClash us ↔ Value.HasClash vs := by
  simp only [Value.HasClash, h.mem_iff]

/-- Whether all values are equal does not depend on their order. -/
theorem Value.AllEqual.perm (h : us.Perm vs) : Value.AllEqual us ↔ Value.AllEqual vs := by
  simp only [Value.AllEqual, h.mem_iff]

/-- A text is equal to no other value. -/
theorem Value.core_text_eq_iff (s : String) (v : Value) :
    (Value.text s).core = v.core ↔ v = .text s := by
  cases v <;> simp [Value.core, eq_comm]

/-- **`eq` decides equality unless two values clash.** Let there be at least two values: none, truth
values, integers, symbols, texts, functions, and tuples of these. If two of them clash, every call
of `eq` with these values, in whatever order, fails. Otherwise it has the value true if all of them
are equal to each other, and false if not, again in whatever order. A text is equal to the same text
only. -/
theorem eq_decides_unless_clash (hlen : 2 ≤ vs.length)
    (hvs : ∀ v ∈ vs, v.isComparable = true) :
    (∀ (s : String) (v : Value), (Value.text s).core = v.core ↔ v = .text s) ∧
      ∃ r : Result, (Value.HasClash vs → r = .failed .notText) ∧
        (¬ Value.HasClash vs →
          ∃ b, r = .value (.bool b) ∧ (b = true ↔ Value.AllEqual vs)) ∧
        ∀ us : List Value, us.Perm vs → EqEnds us r := by
  refine ⟨Value.core_text_eq_iff, ?_⟩
  -- what is true of the values is true of them in any order
  have hspec : ∀ us : List Value, us.Perm vs →
      (Value.HasClash vs ∧ Value.allEqual us = .error .notText) ∨
        ¬ Value.HasClash vs ∧ ∃ b, Value.allEqual us = .ok b ∧ (b = true ↔ Value.AllEqual vs) := by
    intro us hperm
    rw [← Value.HasClash.perm hperm, ← Value.AllEqual.perm hperm]
    refine Value.allEqual_spec ?_ fun v hv => hvs v (hperm.mem_iff.mp hv)
    rintro rfl
    rw [List.nil_perm] at hperm
    subst hperm
    cases hlen
  have hlen' : ∀ us : List Value, us.Perm vs → 2 ≤ us.length := fun us h => h.length_eq ▸ hlen
  by_cases hclash : Value.HasClash vs
  · refine ⟨.failed .notText, fun _ => rfl, fun h => absurd hclash h, fun us hperm => ?_⟩
    refine eqEnds_of_outcome (hlen' us hperm) fun w => ?_
    rcases hspec us hperm with ⟨-, hfail⟩ | ⟨hno, -⟩
    · rw [hfail]
      rfl
    · exact absurd hclash hno
  · rcases hspec vs (.refl _) with ⟨h, -⟩ | ⟨-, b, -, hb⟩
    · exact absurd h hclash
    · refine ⟨.value (.bool b), fun h => absurd h hclash, fun _ => ⟨b, rfl, hb⟩, fun us hperm => ?_⟩
      refine eqEnds_of_outcome (hlen' us hperm) fun w => ?_
      rcases hspec us hperm with ⟨h, -⟩ | ⟨-, b', hvalue, hb'⟩
      · exact absurd h hclash
      · rw [hvalue, Bool.eq_iff_iff.mpr (hb'.trans hb.symm)]
        rfl

/-- `(eq "a" 'a)` and `(eq 'a "a")` fail, since the text and the symbol hash alike. -/
theorem eq_decides_unless_clash_same_characters :
    Ends (Files.ofList []) (World.start false)
        (.start (.begin (.builtin .equality) [.text "a", .symbol "'a"]) [])
        ⟨World.start false, .failed .notText⟩ ∧
      Ends (Files.ofList []) (World.start false)
        (.start (.begin (.builtin .equality) [.symbol "'a", .text "a"]) [])
        ⟨World.start false, .failed .notText⟩ := by
  have hvs : ∀ v ∈ [Value.text "a", .symbol "a"], v.isComparable = true := by
    simp [Value.isComparable]
  obtain ⟨-, r, hfail, -, hends⟩ :=
    @eq_decides_unless_clash [.text "a", .symbol "a"] (Nat.le_refl 2) hvs
  have hclash : Value.HasClash [.text "a", .symbol "a"] :=
    ⟨.text "a", by simp, .symbol "a", by simp,
      (Value.clash_of_not_tuple rfl).mpr ⟨rfl, by simp [Value.isText]⟩⟩
  rw [hfail hclash] at hends
  have hplace : ∀ args : List Value, (∀ a ∈ args, a = .text "a" ∨ a = .symbol "'a") →
      Place [] (World.start false) args := by
    intro args hargs
    refine ⟨rfl, rfl, fun a ha => ?_, fun c hc => ?_⟩
    · rcases hargs a ha with rfl | rfl <;> rfl
    · rcases hargs _ hc with h | h <;> cases h
  constructor
  · refine (hends _ (.refl _) _ [] _ _ _ _ (hplace _ (by simp)) rfl ?_ _).mpr rfl
    exact (argsEnd_values (by simp [Value.isCall])).mpr ⟨rfl, rfl⟩
  · refine (hends [.symbol "a", .text "a"] (.swap _ _ _) _ [] _ _ _ _ (hplace _ (by simp)) rfl ?_
      _).mpr rfl
    exact (argsEnd_values (by simp [Value.isCall])).mpr ⟨rfl, rfl⟩

end Calls

end MiniLisp

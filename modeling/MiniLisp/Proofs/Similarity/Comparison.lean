import MiniLisp.Proofs.Similarity.Basic

/-!
# Comparing similar values

Values are compared by their contents, and functions by their numbers. Since no function of the
second world comes from two functions of the first, nor two from one, similar values are equal
(`Value.Similar.equal_eq`), the same key (`Value.Similar.isKey_eq`) and less
(`Value.Similar.less_eq`) whenever the values that they are similar to are. So a key is found in
similar scopes with similar values (`Scope.Similar.find?`), and similar scopes stay similar when
similar keys are bound (`Scope.Similar.insert`).
-/

namespace MiniLisp

section Similarity

variable {M : Revision} {a b a' b' v u : Value} {vs us : List Value}

/-! ## Equality -/

/-- Of functions that come from two others, either both pairs are the same function or neither. -/
theorem Function.Similar.same_eq {f g f' g' : Function} (h : f.Similar M f')
    (hnumber : f.number? = f'.number?.bind M.origin) (hg : g.Similar M g')
    (hnumber' : g.number? = g'.number?.bind M.origin) : f.same g = f'.same g' := by
  rcases h.cases with ⟨b, rfl, rfl⟩ | ⟨d, d', rfl, rfl, -⟩
  · rcases hg.cases with ⟨b', rfl, rfl⟩ | ⟨e, e', rfl, rfl, -⟩ <;> rfl
  · rcases hg.cases with ⟨b', rfl, rfl⟩ | ⟨e, e', rfl, rfl, -⟩
    · rfl
    · have hd : M.origin d'.id = some d.id := hnumber.symm
      have he : M.origin e'.id = some e.id := hnumber'.symm
      have hiff : d.id = e.id ↔ d'.id = e'.id := by
        constructor
        · intro heq
          exact M.origin_inj (heq ▸ hd) he
        · intro heq
          rw [heq, he] at hd
          exact (Option.some.inj hd).symm
      rw [Function.same, Function.same, Bool.eq_iff_iff, beq_iff_eq, beq_iff_eq]
      exact hiff

/-- Similar values have the same characters, if they are symbols or texts. -/
theorem Value.Similar.characters?_eq (h : a.Similar M a') : a.characters? = a'.characters? := by
  cases h <;> rfl

mutual

/-- Of similar values both can be keys or neither. -/
theorem Value.Similar.hashable_eq (v : Value) {u : Value} (h : v.Similar M u) :
    v.hashable = u.hashable := by
  cases v with
  | tuple items =>
    cases h with
    | atom h => cases h
    | tuple h => exact similar_allHashable_eq items h
  | _ => cases h <;> rfl

theorem similar_allHashable_eq (vs : List Value) {us : List Value}
    (h : List.Forall₂ (Value.Similar M) vs us) :
    Value.allHashable vs = Value.allHashable us := by
  cases vs with
  | nil =>
    cases h
    rfl
  | cons v vs =>
    cases h with
    | cons hv h =>
      rw [Value.allHashable, Value.allHashable, Value.Similar.hashable_eq v hv,
        similar_allHashable_eq vs h]

end

/-- Values without items are told apart by what similar values share. -/
theorem Value.Similar.sameAtomHash_eq (ha : a.Similar M a') (hb : b.Similar M b') :
    a.sameAtomHash b = a'.sameAtomHash b' := by
  unfold Value.sameAtomHash
  rw [ha.characters?_eq, hb.characters?_eq, ha.number?_eq, hb.number?_eq]
  cases ha with
  | function h hnumber =>
    cases hb with
    | function h' hnumber' => simp only [h.same_eq hnumber h' hnumber']
    | atom hatom =>
      cases b with
      | function _ => cases hatom
      | _ => rfl
    | _ => rfl
  | atom hatom =>
    cases hb with
    | atom _ => rfl
    | _ =>
      cases a with
      | function _ => cases hatom
      | _ => rfl
  | _ => cases hb <;> rfl

/-- Values without items are equal whenever similar ones are. -/
theorem Value.Similar.equalAtoms_eq (ha : a.Similar M a') (hb : b.Similar M b') :
    a.equalAtoms b = a'.equalAtoms b' := by
  unfold Value.equalAtoms
  rw [ha.number?_eq, hb.number?_eq]
  cases ha with
  | function h hnumber =>
    cases hb with
    | function h' hnumber' => simp only [h.same_eq hnumber h' hnumber']
    | atom hatom =>
      cases b with
      | function _ => cases hatom
      | _ => rfl
    | _ => rfl
  | atom hatom =>
    cases hb with
    | atom _ => rfl
    | _ =>
      cases a with
      | function _ => cases hatom
      | _ => rfl
  | _ => cases hb <;> rfl

mutual

/-- Similar values have the same hash as similar values alike. -/
theorem Value.Similar.sameHash_eq (a : Value) {a' b b' : Value} (ha : a.Similar M a')
    (hb : b.Similar M b') : a.sameHash b = a'.sameHash b' := by
  cases a with
  | tuple xs =>
    cases ha with
    | atom h => cases h
    | tuple hxs =>
      cases hb with
      | tuple hys => exact similar_sameHashes_eq xs hxs hys
      | atom h =>
        cases b with
        | tuple _ => cases h
        | _ => rfl
      | _ => rfl
  | _ =>
    have hatoms := ha.sameAtomHash_eq hb
    cases ha <;> exact hatoms

theorem similar_sameHashes_eq (xs : List Value) {xs' ys ys' : List Value}
    (hxs : List.Forall₂ (Value.Similar M) xs xs') (hys : List.Forall₂ (Value.Similar M) ys ys') :
    Value.sameHashes xs ys = Value.sameHashes xs' ys' := by
  cases xs with
  | nil =>
    cases hxs
    cases hys <;> rfl
  | cons x xs =>
    cases hxs with
    | cons hx hxs =>
      cases hys with
      | nil => rfl
      | cons hy hys =>
        rw [Value.sameHashes, Value.sameHashes, Value.Similar.sameHash_eq x hx hy,
          similar_sameHashes_eq xs hxs hys]

end

mutual

/-- **Similar values are equal to similar values alike.** -/
theorem Value.Similar.equal_eq (a : Value) {a' b b' : Value} (ha : a.Similar M a')
    (hb : b.Similar M b') : a.equal b = a'.equal b' := by
  cases a with
  | tuple xs =>
    cases ha with
    | atom h => cases h
    | tuple hxs =>
      cases hb with
      | tuple hys => exact similar_equalItems_eq xs hxs hys
      | atom h =>
        cases b with
        | tuple _ => cases h
        | _ => rfl
      | _ => rfl
  | list xs =>
    cases ha with
    | atom h => cases h
    | list hxs =>
      cases hb with
      | list hys =>
        rw [Value.equal, Value.equal, hxs.length_eq, hys.length_eq,
          similar_equalItems_eq xs hxs hys]
      | atom h =>
        cases b with
        | list _ => cases h
        | _ => rfl
      | _ => rfl
  | text s =>
    cases ha
    cases hb <;> rfl
  | function _ | call _ =>
    have hatoms := ha.equalAtoms_eq hb
    cases ha with
    | atom h => cases h
    | _ =>
      cases hb with
      | atom h =>
        cases b with
        | text _ => rfl
        | _ => exact congrArg Except.ok hatoms
      | _ => exact congrArg Except.ok hatoms
  | _ =>
    have hatoms := ha.equalAtoms_eq hb
    cases ha
    cases hb with
    | atom h => rfl
    | _ => exact congrArg Except.ok hatoms

theorem similar_equalItems_eq (xs : List Value) {xs' ys ys' : List Value}
    (hxs : List.Forall₂ (Value.Similar M) xs xs') (hys : List.Forall₂ (Value.Similar M) ys ys') :
    Value.equalItems xs ys = Value.equalItems xs' ys' := by
  cases xs with
  | nil =>
    cases hxs
    cases hys <;> rfl
  | cons x xs =>
    cases hxs with
    | cons hx hxs =>
      cases hys with
      | nil => rfl
      | cons hy hys =>
        rw [Value.equalItems, Value.equalItems, Value.Similar.equal_eq x hx hy,
          similar_equalItems_eq xs hxs hys]

end

/-- Similar values are the same key as similar values alike. -/
theorem Value.Similar.isKey_eq (ha : a.Similar M a') (hb : b.Similar M b') :
    Value.isKey a b = Value.isKey a' b' := by
  unfold Value.isKey
  rw [Value.Similar.sameHash_eq b hb ha, Value.Similar.equal_eq b hb ha]

/-- A value is among some keys whenever a similar one is among similar keys. -/
theorem similar_isAmong_eq (hv : v.Similar M u) (h : List.Forall₂ (Value.Similar M) vs us) :
    v.isAmong vs = u.isAmong us := by
  induction h with
  | nil => rfl
  | cons hk _ ih => rw [Value.isAmong, Value.isAmong, hk.isKey_eq hv, ih]

/-- The different values among similar ones are similar. -/
theorem similar_distinct {seen seen' : List Value}
    (hseen : List.Forall₂ (Value.Similar M) seen seen')
    (h : List.Forall₂ (Value.Similar M) vs us) :
    Agree (List.Forall₂ (Value.Similar M)) (Value.distinct seen vs) (Value.distinct seen' us) := by
  induction h generalizing seen seen' with
  | nil => exact .ok hseen
  | @cons v u _ _ hv _ ih =>
    rw [Value.distinct, Value.distinct, Value.Similar.hashable_eq v hv,
      similar_isAmong_eq hv hseen]
    split
    · cases u.isAmong seen' with
      | error e => exact .error e
      | ok found =>
        cases found with
        | true => exact ih hseen
        | false => exact ih (List.rel_append hseen (.cons hv .nil))
    · exact .error _

/-- Whether all values are equal is the same for similar values. -/
theorem similar_allEqual_eq (h : List.Forall₂ (Value.Similar M) vs us) :
    Value.allEqual vs = Value.allEqual us := by
  unfold Value.allEqual
  rcases (similar_distinct .nil h).cases with ⟨e, h1, h2⟩ | ⟨xs, ys, h1, h2, hxy⟩
  · rw [h1, h2]
  · rw [h1, h2, Except.map, Except.map, hxy.length_eq]

/-! ## Order -/

mutual

/-- Similar values are less than similar values alike. -/
theorem Value.Similar.less_eq (a : Value) {a' b b' : Value} (ha : a.Similar M a')
    (hb : b.Similar M b') : a.less b = a'.less b' := by
  cases a with
  | tuple xs =>
    cases ha with
    | atom h => cases h
    | tuple hxs =>
      cases hb with
      | tuple hys => exact similar_lessItems_eq xs hxs hys
      | atom h =>
        cases b with
        | tuple _ => cases h
        | _ => rfl
      | _ => rfl
  | list xs =>
    cases ha with
    | atom h => cases h
    | list hxs =>
      cases hb with
      | list hys => exact similar_lessItems_eq xs hxs hys
      | atom h =>
        cases b with
        | list _ => cases h
        | _ => rfl
      | _ => rfl
  | function _ | call _ =>
    cases ha with
    | atom h => cases h
    | _ => rfl
  | _ =>
    cases ha
    cases hb <;> rfl

theorem similar_lessItems_eq (xs : List Value) {xs' ys ys' : List Value}
    (hxs : List.Forall₂ (Value.Similar M) xs xs') (hys : List.Forall₂ (Value.Similar M) ys ys') :
    Value.lessItems xs ys = Value.lessItems xs' ys' := by
  cases xs with
  | nil =>
    cases hxs
    cases hys <;> rfl
  | cons x xs =>
    cases hxs with
    | cons hx hxs =>
      cases hys with
      | nil => rfl
      | cons hy hys =>
        rw [Value.lessItems, Value.lessItems, Value.Similar.equal_eq x hx hy,
          similar_lessItems_eq xs hxs hys,
          Value.Similar.less_eq x hx hy]

end

/-! ## Scopes -/

namespace Scope.Similar

variable {s t : Scope} {k k' : Value}

/-- Similar keys are bound to similar values in similar scopes, or not bound in either. -/
theorem find? (h : Scope.Similar M s t) (hk : k.Similar M k') :
    Agree (Option.Rel (Value.Similar M)) (s.find? k) (t.find? k') := by
  induction s generalizing t with
  | nil =>
    cases h
    exact .ok .none
  | cons e s ih =>
    cases h with
    | @cons l l' _ _ _ _ hl hv hs =>
      rw [Scope.find?, Scope.find?, hl.isKey_eq hk]
      cases Value.isKey l' k' with
      | error e => exact .error e
      | ok found =>
        cases found with
        | true => exact .ok (.some hv)
        | false => exact ih hs

theorem put (h : Scope.Similar M s t) (hk : k.Similar M k') (hv : v.Similar M u) :
    Agree (Scope.Similar M) (s.put k v) (t.put k' u) := by
  induction s generalizing t with
  | nil =>
    cases h
    exact .ok (.cons hk hv .nil)
  | cons e s ih =>
    cases h with
    | @cons l l' _ _ _ _ hl hv' hs =>
      rw [Scope.put, Scope.put, hl.isKey_eq hk]
      cases Value.isKey l' k' with
      | error e => exact .error e
      | ok found =>
        cases found with
        | true => exact .ok (.cons hl hv hs)
        | false => exact (ih hs).map fun _ _ h => .cons hl hv' h

/-- Similar scopes stay similar when similar keys are bound to similar values. -/
theorem insert (h : Scope.Similar M s t) (hk : k.Similar M k') (hv : v.Similar M u) :
    Agree (Scope.Similar M) (s.insert k v) (t.insert k' u) := by
  unfold Scope.insert
  rw [Value.Similar.hashable_eq k hk]
  split
  · exact h.put hk hv
  · exact .error _

end Scope.Similar

end Similarity

end MiniLisp

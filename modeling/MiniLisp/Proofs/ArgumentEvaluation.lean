import MiniLisp.Proofs.Frames

/-!
# Evaluating the arguments of a call

The machine evaluates the arguments of a call from left to right; each one that is itself a call is
run to its end before the next is looked at. `AfterArgs` says this without the machine: the
arguments end with the first failure, or something comes after their values. The main statement,
`ends_pending_iff`, says that the frame of a call does just that as long as its function is not to
do its work.
-/

namespace MiniLisp

/-! ## One argument after the other -/

/-- The arguments `vs` are evaluated in a scope from the world `w` on. The first that fails decides
the outcome; if none fails the outcome is one of `k`, for the last world and the values. -/
def AfterArgs (files : Files) (scope : Scope) :
    World → List Value → (World → List Value → Outcome → Prop) → Outcome → Prop
  | w, [], k, o => k w [] o
  | w, .call d :: vs, k, o =>
    (∃ w' e, o = ⟨w', .failed e⟩ ∧ Ends files w (.start d scope) o) ∨
      ∃ w' v, Ends files w (.start d scope) ⟨w', .value v⟩ ∧
        AfterArgs files scope w' vs (fun w us => k w (v :: us)) o
  | w, v :: vs, k, o => AfterArgs files scope w vs (fun w us => k w (v :: us)) o

/-- Each of the arguments `vs`, evaluated from the world `w` on, leads to a world and a value with
the property `P`, if it has a value at all. The calls among them have not begun. -/
def EachYields (files : Files) (scope : Scope) (P : World → Value → Prop) :
    World → List Value → Prop
  | _, [] => True
  | w, .call d :: vs =>
    d.resolved = false ∧ ∀ w' v, Ends files w (.start d scope) ⟨w', .value v⟩ →
      P w' v ∧ EachYields files scope P w' vs
  | w, v :: vs => P w v ∧ EachYields files scope P w vs

section Evaluation

variable {files : Files} {scope : Scope} {w : World} {v : Value} {vs xs ys : List Value}
  {k k' : World → List Value → Outcome → Prop} {o : Outcome} {P P' : World → Value → Prop}

@[simp] theorem afterArgs_nil : AfterArgs files scope w [] k o ↔ k w [] o := by
  rw [AfterArgs]

/-- A value is passed to what comes after. -/
theorem afterArgs_value (hv : v.isCall = false) :
    AfterArgs files scope w (v :: vs) k o ↔
      AfterArgs files scope w vs (fun w us => k w (v :: us)) o := by
  cases v with
  | call d => cases hv
  | _ => rw [AfterArgs]; simp

/-- A call is run first: it fails, or its value is passed to what comes after. -/
theorem afterArgs_call {d : Call} :
    AfterArgs files scope w (.call d :: vs) k o ↔
      (∃ w' e, o = ⟨w', .failed e⟩ ∧ Ends files w (.start d scope) o) ∨
        ∃ w' v, Ends files w (.start d scope) ⟨w', .value v⟩ ∧
          AfterArgs files scope w' vs (fun w us => k w (v :: us)) o := by
  rw [AfterArgs]

theorem eachYields_value (hv : v.isCall = false) :
    EachYields files scope P w (v :: vs) ↔ P w v ∧ EachYields files scope P w vs := by
  cases v with
  | call d => cases hv
  | _ => rw [EachYields]; simp

theorem eachYields_call {d : Call} :
    EachYields files scope P w (.call d :: vs) ↔
      d.resolved = false ∧ ∀ w' v, Ends files w (.start d scope) ⟨w', .value v⟩ →
        P w' v ∧ EachYields files scope P w' vs := by
  rw [EachYields]

/-- What holds of each value may be weakened. -/
theorem EachYields.mono (h : EachYields files scope P w vs) (hP : ∀ w v, P w v → P' w v) :
    EachYields files scope P' w vs := by
  induction vs generalizing w with
  | nil => trivial
  | cons v vs ih =>
    cases hv : v.isCall with
    | false =>
      rw [eachYields_value hv] at h ⊢
      exact ⟨hP w v h.1, ih h.2⟩
    | true =>
      obtain ⟨d, rfl⟩ := Value.eq_call_of_isCall hv
      rw [eachYields_call] at h ⊢
      refine ⟨h.1, fun w' u hu => ?_⟩
      obtain ⟨hp, hrest⟩ := h.2 w' u hu
      exact ⟨hP w' u hp, ih hrest⟩

/-- The front arguments are evaluated before the others. -/
theorem EachYields.of_append (h : EachYields files scope P w (xs ++ ys)) :
    EachYields files scope P w xs := by
  induction xs generalizing w with
  | nil => trivial
  | cons v xs ih =>
    rw [List.cons_append] at h
    cases hv : v.isCall with
    | false =>
      rw [eachYields_value hv] at h ⊢
      exact ⟨h.1, ih h.2⟩
    | true =>
      obtain ⟨d, rfl⟩ := Value.eq_call_of_isCall hv
      rw [eachYields_call] at h ⊢
      refine ⟨h.1, fun w' u hu => ?_⟩
      obtain ⟨hp, hrest⟩ := h.2 w' u hu
      exact ⟨hp, ih hrest⟩

/-- Arguments in two parts are evaluated one part after the other. -/
theorem afterArgs_append :
    AfterArgs files scope w (xs ++ ys) k o ↔
      AfterArgs files scope w xs
        (fun w us => AfterArgs files scope w ys fun w vs => k w (us ++ vs)) o := by
  induction xs generalizing w k with
  | nil => simp
  | cons v xs ih =>
    rw [List.cons_append]
    cases hv : v.isCall with
    | false =>
      rw [afterArgs_value hv, afterArgs_value hv, ih]
      rfl
    | true =>
      obtain ⟨d, rfl⟩ := Value.eq_call_of_isCall hv
      rw [afterArgs_call, afterArgs_call]
      refine or_congr Iff.rfl (exists_congr fun w' => exists_congr fun u => and_congr_right ?_)
      intro _
      rw [ih]
      rfl

/-- Values are evaluated already. -/
theorem afterArgs_values (hvs : ∀ v ∈ vs, v.isCall = false) :
    AfterArgs files scope w vs k o ↔ k w vs o := by
  induction vs generalizing k with
  | nil => exact afterArgs_nil
  | cons v vs ih =>
    rw [afterArgs_value (hvs v List.mem_cons_self),
      ih fun u hu => hvs u (List.mem_cons_of_mem v hu)]

theorem eachYields_append_of_values (hxs : ∀ v ∈ xs, v.isCall = false) :
    EachYields files scope P w (xs ++ ys) ↔
      (∀ v ∈ xs, P w v) ∧ EachYields files scope P w ys := by
  induction xs with
  | nil => simp
  | cons v xs ih =>
    rw [List.cons_append, eachYields_value (hxs v List.mem_cons_self),
      ih fun u hu => hxs u (List.mem_cons_of_mem v hu), List.forall_mem_cons, and_assoc]

/-- Values yield themselves. -/
theorem eachYields_values (hP : ∀ v ∈ vs, P w v) (hvs : ∀ v ∈ vs, v.isCall = false) :
    EachYields files scope P w vs := by
  rw [← List.append_nil vs]
  exact (eachYields_append_of_values hvs).mpr ⟨hP, trivial⟩

/-- What comes after the first arguments needs to agree only on worlds and values that they can lead
to, and on worlds in which the others have suitable values too. -/
theorem afterArgs_congr_append {Q : World → Prop} {R : Value → Prop}
    (h : EachYields files scope (fun w v => Q w ∧ R v) w (xs ++ ys)) (hw : Q w)
    (hk : ∀ w us, Q w → us.length = xs.length → (∀ u ∈ us, R u) →
      EachYields files scope (fun w v => Q w ∧ R v) w ys → (k w us o ↔ k' w us o)) :
    AfterArgs files scope w xs k o ↔ AfterArgs files scope w xs k' o := by
  -- what comes after the arguments takes up the value of each as it goes
  induction xs generalizing w k k' with
  | nil =>
    rw [afterArgs_nil, afterArgs_nil]
    exact hk w [] hw rfl (by simp) h
  | cons v xs ih =>
    have hcons : ∀ u, R u → ∀ w us, Q w → us.length = xs.length → (∀ x ∈ us, R x) →
        EachYields files scope (fun w v => Q w ∧ R v) w ys →
          (k w (u :: us) o ↔ k' w (u :: us) o) := by
      intro u hu w us hw hlen hus hys
      refine hk w (u :: us) hw (by simp [hlen]) (fun x hx => ?_) hys
      rcases List.mem_cons.mp hx with rfl | hx
      · exact hu
      · exact hus x hx
    rw [List.cons_append] at h
    cases hv : v.isCall with
    | false =>
      rw [eachYields_value hv] at h
      rw [afterArgs_value hv, afterArgs_value hv]
      exact ih h.2 hw (hcons v h.1.2)
    | true =>
      obtain ⟨d, rfl⟩ := Value.eq_call_of_isCall hv
      rw [eachYields_call] at h
      rw [afterArgs_call, afterArgs_call]
      refine or_congr Iff.rfl (exists_congr fun w' => exists_congr fun u => and_congr_right ?_)
      intro hu
      obtain ⟨⟨hw', hu'⟩, hrest⟩ := h.2 w' u hu
      exact ih hrest hw' (hcons u hu')

/-- What comes after the arguments needs to agree only on worlds and values that they can lead
to. -/
theorem afterArgs_congr {Q : World → Prop} {R : Value → Prop}
    (h : EachYields files scope (fun w v => Q w ∧ R v) w vs) (hw : Q w)
    (hk : ∀ w us, Q w → us.length = vs.length → (∀ u ∈ us, R u) → (k w us o ↔ k' w us o)) :
    AfterArgs files scope w vs k o ↔ AfterArgs files scope w vs k' o := by
  rw [← List.append_nil vs] at h
  exact afterArgs_congr_append h hw fun w us hw hlen hus _ => hk w us hw hlen hus

end Evaluation

/-! ## On the machine -/

theorem exists_concat_of_length {α : Type} {l : List α} {n : Nat} (h : l.length = n + 1) :
    ∃ front a, l = front ++ [a] ∧ front.length = n := by
  rcases List.eq_nil_or_concat l with rfl | ⟨front, a, rfl⟩
  · cases h
  · rw [List.concat_eq_append, List.length_append, List.length_singleton] at h
    exact ⟨front, a, List.concat_eq_append, Nat.succ.inj h⟩

section Pending

variable {files : Files} {scope : Scope} {c : Call} {w : World} {o : Outcome}

/-- The next argument of a call whose function has not done its work is evaluated in place. -/
theorem ends_pending_one_iff {done rest args : List Value} {a : Value}
    (hargs : args.length = (done ++ a :: rest).length) (hnot : c.canPrepare args (-1) = false)
    (hy : EachYields files scope (fun _ v => v.isCall = false) w [a]) :
    Ends files w (.scan (c.frame false scope done (a :: rest)) []) o ↔
      AfterArgs files scope w [a]
        (fun w us o => Ends files w (.scan (c.frame false scope done (us ++ rest)) []) o) o := by
  cases ha : a.isCall with
  | false =>
    rw [afterArgs_value ha, afterArgs_nil]
    rfl
  | true =>
    obtain ⟨d, rfl⟩ := Value.eq_call_of_isCall ha
    rw [eachYields_call] at hy
    rw [afterArgs_call, ends_scan_call_iff Call.frame_arg_cons hy.1]
    refine or_congr Iff.rfl (exists_congr fun w' => exists_finishes_iff fun finished v _ => ?_)
    -- the finished call leaves no trace in the frame
    have hlen : (done ++ v :: rest).length = args.length := by
      rw [hargs]
      simp
    rw [Call.resume_frame_pending, afterArgs_nil]
    refine ends_next_iff (step_frame_enter ?_)
    rw [Call.canPrepare_congr hlen, hnot]
    rfl

/-- **Arguments before the work of the function.** As long as it is not to do its work, a call
evaluates its arguments one after the other, here up to an argument `a`, which is evaluated but not
yet passed over. -/
theorem ends_pending_iff {done front rest args : List Value} {a : Value}
    (hargs : args.length = (done ++ (front ++ a :: rest)).length)
    (hnot : c.canPrepare args (-1) = false)
    (hquiet : ∀ j : Nat, done.length ≤ j → j < done.length + front.length →
      c.canPrepare args j = false)
    (hy : EachYields files scope (fun _ v => v.isCall = false) w (front ++ [a])) :
    Ends files w (.scan (c.frame false scope done (front ++ a :: rest)) []) o ↔
      AfterArgs files scope w (front ++ [a])
        (fun w us o => Ends files w (.scan (c.frame false scope (done ++ us.take front.length)
          (us.drop front.length ++ rest)) []) o) o := by
  induction front generalizing done w with
  | nil =>
    simp only [List.length_nil, List.take_zero, List.drop_zero, List.append_nil]
    exact ends_pending_one_iff hargs hnot hy
  | cons b front ih =>
    -- the value of one argument is passed over, then come the others
    have hpass : ∀ {w v}, v.isCall = false →
        EachYields files scope (fun _ v => v.isCall = false) w (front ++ [a]) →
          (Ends files w (.scan (c.frame false scope done (v :: (front ++ a :: rest))) []) o ↔
            AfterArgs files scope w (front ++ [a])
              (fun w us o => Ends files w (.scan (c.frame false scope
                (done ++ (v :: us).take (front.length + 1))
                ((v :: us).drop (front.length + 1) ++ rest)) []) o) o) := by
      intro w v hv hy
      have hlen : (done ++ v :: (front ++ a :: rest)).length = args.length := by
        rw [hargs]
        simp
      have hready : c.canPrepare (done ++ v :: (front ++ a :: rest)) done.length = false := by
        rw [Call.canPrepare_congr hlen]
        exact hquiet done.length (Nat.le_refl _) (by simp)
      rw [ends_next_iff (step_frame_pass hv (by rw [hready]; rfl)), @ih w (done ++ [v])
        (by rw [← hlen]; simp) (fun j hj hj' => hquiet j ?_ ?_) hy]
      · simp only [List.take_succ_cons, List.drop_succ_cons, List.append_assoc,
          List.singleton_append]
      · simp only [List.length_append, List.length_singleton] at hj
        omega
      · simp only [List.length_append, List.length_singleton] at hj'
        simp only [List.length_cons]
        omega
    rw [List.cons_append] at hargs hy ⊢
    rw [List.cons_append]
    cases hb : b.isCall with
    | false =>
      rw [eachYields_value hb] at hy
      rw [afterArgs_value hb]
      exact hpass hb hy.2
    | true =>
      obtain ⟨d, rfl⟩ := Value.eq_call_of_isCall hb
      have hy1 : EachYields files scope (fun _ v => v.isCall = false) w [.call d] := by
        rw [eachYields_call] at hy ⊢
        exact ⟨hy.1, fun w' v hv => ⟨(hy.2 w' v hv).1, trivial⟩⟩
      rw [eachYields_call] at hy
      rw [ends_pending_one_iff hargs hnot hy1, afterArgs_call, afterArgs_call]
      refine or_congr Iff.rfl (exists_congr fun w' => exists_congr fun v => and_congr_right ?_)
      intro hv
      obtain ⟨hv', hrest⟩ := hy.2 w' v hv
      rw [afterArgs_nil]
      exact hpass hv' hrest

/-- The same with the arguments behind `a`, if these are values. -/
theorem ends_pending_values_iff {done front rest args : List Value} {a : Value}
    (hargs : args.length = (done ++ (front ++ a :: rest)).length)
    (hnot : c.canPrepare args (-1) = false)
    (hquiet : ∀ j : Nat, done.length ≤ j → j < done.length + front.length →
      c.canPrepare args j = false)
    (hrest : ∀ v ∈ rest, v.isCall = false)
    (hy : EachYields files scope (fun _ v => v.isCall = false) w (front ++ [a])) :
    Ends files w (.scan (c.frame false scope done (front ++ a :: rest)) []) o ↔
      AfterArgs files scope w (front ++ a :: rest)
        (fun w us o => Ends files w (.scan (c.frame false scope (done ++ us.take front.length)
          (us.drop front.length)) []) o) o := by
  have hsplit : front ++ a :: rest = front ++ [a] ++ rest := by simp
  rw [ends_pending_iff hargs hnot hquiet hy, hsplit]
  refine Iff.trans ?_ afterArgs_append.symm
  have hy' : EachYields files scope (fun _ _ => True ∧ True) w (front ++ [a]) :=
    hy.mono fun _ _ _ => ⟨trivial, trivial⟩
  refine afterArgs_congr (Q := fun _ => True) (R := fun _ => True) hy' trivial
    fun w us _ hlen _ => ?_
  have hle : front.length ≤ us.length := by
    rw [hlen, List.length_append]
    omega
  rw [afterArgs_values hrest, List.take_append_of_le_length hle, List.drop_append_of_le_length hle]

end Pending

end MiniLisp

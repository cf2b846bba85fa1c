import CustomProperties.Parens

/-! # Balance and groups

A group is closed exactly when a parenthesis follows a balanced body. Every group inside a
balanced text is closed within it, so what stands after a closed group has no part in it.
-/

namespace CustomProperties.Parens

/-- Whether a text closes all groups that it opens and the `depth` groups that are open before it,
but no further one. -/
def balanced : (depth : Nat) → Text → Bool
  | depth, [] => depth == 0
  | depth, c :: t =>
    if c = '(' then balanced (depth + 1) t
    else if c = ')' then depth != 0 && balanced (depth - 1) t
    else balanced depth t

theorem close_of_balanced {depth : Nat} {body : Text} (h : balanced depth body = true)
    (rest : Text) : close depth (body ++ ')' :: rest) = ⟨body, true, rest⟩ := by
  induction body generalizing depth with
  | nil =>
    obtain rfl : depth = 0 := by simpa [balanced] using h
    simp [close]
  | cons c body ih =>
    rw [balanced] at h
    rw [List.cons_append, close]
    split at h
    · rw [if_pos ‹_›, ih h]; rfl
    · split at h
      · simp only [Bool.and_eq_true, bne_iff_ne, ne_eq] at h
        rw [if_neg ‹_›, if_pos ‹_›, if_neg h.1, ih h.2]; rfl
      · rw [if_neg ‹_›, if_neg ‹_›, ih h]; rfl

theorem balanced_of_close {depth : Nat} {t : Text} (h : (close depth t).closed = true) :
    balanced depth (close depth t).body = true := by
  induction t generalizing depth with
  | nil => simp [close] at h
  | cons c t ih =>
    rw [close] at h ⊢
    split at h
    · next hc => simpa [hc, Group.cons, balanced] using ih h
    · next hc =>
      split at h
      · next hc' =>
        split at h
        · next hd => simp [hc', hd, balanced]
        · next hd => simpa [hc', hd, Group.cons, balanced] using ih h
      · next hc' => simpa [hc, hc', Group.cons, balanced] using ih h

theorem eq_body_append {depth : Nat} {t : Text} (h : (close depth t).closed = true) :
    t = (close depth t).body ++ ')' :: (close depth t).rest := by
  have ht := tail_append_rest depth t
  rw [Group.tail, if_pos h, List.append_assoc] at ht
  exact ht.symm

theorem close_append {depth : Nat} {t : Text} (h : (close depth t).closed = true) (s : Text) :
    close depth (t ++ s) = { close depth t with rest := (close depth t).rest ++ s } := by
  have hb := balanced_of_close h
  generalize hg : close depth t = g at h hb
  have ht : t = g.body ++ ')' :: g.rest := hg ▸ eq_body_append (hg ▸ h)
  rw [ht, List.append_assoc, List.cons_append, close_of_balanced hb]
  simp [h]

theorem closed_of_balanced_add {t : Text} {depth outer : Nat}
    (h : balanced (depth + 1 + outer) t = true) : (close depth t).closed = true := by
  induction t generalizing depth with
  | nil => simp [balanced] at h
  | cons c t ih =>
    rw [balanced] at h
    rw [close]
    split at h
    · rw [if_pos ‹_›]
      exact ih (by simpa only [Nat.add_right_comm _ outer 1] using h)
    · rw [if_neg ‹_›]
      split at h
      · rw [if_pos ‹_›]
        split
        · rfl
        · simp only [Bool.and_eq_true] at h
          have he : depth - 1 + 1 + outer = depth + 1 + outer - 1 := by omega
          exact ih (he ▸ h.2)
      · rw [if_neg ‹_›]
        exact ih h

theorem closed_of_balanced {x y : Text} {depth : Nat} (h : balanced depth (x ++ '(' :: y) = true) :
    (group y).closed = true := by
  induction x generalizing depth with
  | nil =>
    have hy : balanced (0 + 1 + depth) y = true := by
      rw [Nat.zero_add, Nat.add_comm]
      simpa [balanced] using h
    exact closed_of_balanced_add hy
  | cons c x ih =>
    rw [List.cons_append, balanced] at h
    split at h
    · exact ih h
    · split at h
      · exact ih (Bool.and_eq_true_iff.mp h).2
      · exact ih h

theorem length_body_of_balanced {x y : Text} {depth : Nat}
    (h : balanced depth (x ++ '(' :: y) = true) (u : Text) :
    (group (y ++ u)).body.length ≤ y.length := by
  rw [group, close_append (closed_of_balanced h)]
  exact length_body_le y

theorem group_of_balanced {body : Text} (h : balanced 0 body = true) (rest : Text) :
    group (body ++ ')' :: rest) = ⟨body, true, rest⟩ :=
  close_of_balanced h rest

def Plain (t : Text) : Prop := '(' ∉ t ∧ ')' ∉ t

theorem Plain.close_append {t : Text} (h : Plain t) (depth : Nat) (u : Text) :
    close depth (t ++ u) = { close depth u with body := t ++ (close depth u).body } := by
  induction t with
  | nil => rfl
  | cons c t ih =>
    have hc : c ≠ '(' ∧ c ≠ ')' :=
      ⟨fun he => h.1 (he ▸ List.mem_cons_self), fun he => h.2 (he ▸ List.mem_cons_self)⟩
    have ht : Plain t :=
      ⟨fun hm => h.1 (List.mem_cons_of_mem c hm), fun hm => h.2 (List.mem_cons_of_mem c hm)⟩
    rw [List.cons_append, close, if_neg hc.1, if_neg hc.2, ih ht]
    rfl

theorem Plain.balanced_append {t : Text} (h : Plain t) (depth : Nat) (u : Text) :
    balanced depth (t ++ u) = balanced depth u := by
  induction t with
  | nil => rfl
  | cons c t ih =>
    obtain ⟨ho, hc⟩ := h
    rw [List.mem_cons, not_or] at ho hc
    rw [List.cons_append, balanced, if_neg (Ne.symm ho.1), if_neg (Ne.symm hc.1), ih ⟨ho.2, hc.2⟩]

/-- A text is balanced if it closes as many groups as are open, and no beginning of it closes more
groups than are open. -/
theorem balanced_iff {depth : Nat} {t : Text} :
    balanced depth t = true ↔ depth + t.count '(' = t.count ')' ∧
      ∀ u, u <+: t → u.count ')' ≤ depth + u.count '(' := by
  induction t generalizing depth with
  | nil => simp [balanced]
  | cons c t ih =>
    have hp : (∀ u, u <+: c :: t → u.count ')' ≤ depth + u.count '(') ↔
        ∀ u, u <+: t → (c :: u).count ')' ≤ depth + (c :: u).count '(' := by
      simp only [List.prefix_cons_iff]
      constructor
      · exact fun h u hu => h (c :: u) (.inr ⟨u, rfl, hu⟩)
      · rintro h u (rfl | ⟨u, rfl, hu⟩)
        · simp
        · exact h u hu
    rw [hp, balanced]
    split
    next hc =>
      subst hc
      simp [ih, Nat.add_assoc, Nat.add_comm 1]
    next ho =>
      split
      next hc =>
        subst hc
        cases depth with
        | zero =>
          simp only [bne_self_eq_false, Bool.false_and, Bool.false_eq_true, false_iff, not_and]
          intro _ h
          simpa using h [] List.nil_prefix
        | succ depth =>
          simp [ih, Nat.add_right_comm depth 1]
      next hc =>
        simp [ih, List.count_cons_of_ne ho, List.count_cons_of_ne hc]

theorem rest_of_not_closed {depth : Nat} {t : Text} (h : (close depth t).closed = false) :
    (close depth t).rest = [] := by
  induction t generalizing depth with
  | nil => rfl
  | cons c t ih =>
    rw [close] at h ⊢
    split at h
    · rw [if_pos ‹_›]
      exact ih h
    · rw [if_neg ‹_›]
      split at h
      · rw [if_pos ‹_›]
        split at h
        · contradiction
        · rw [if_neg ‹_›]
          exact ih h
      · rw [if_neg ‹_›]
        exact ih h

theorem body_of_not_closed {depth : Nat} {t : Text} (h : (close depth t).closed = false) :
    (close depth t).body = t := by
  have ht := tail_append_rest depth t
  rw [rest_of_not_closed h, Group.tail, h] at ht
  simpa using ht

/-! ### Inside a group -/

/-- Behind the text the group goes on, and `depth` further groups are open in it. -/
def LeavesOpen (depth : Nat) (t : Text) : Prop :=
  ∀ u, group (t ++ u) = { close depth u with body := t ++ (close depth u).body }

namespace LeavesOpen

variable {depth : Nat} {t x : Text}

theorem nil : LeavesOpen 0 [] := fun _ => rfl

theorem opening (h : LeavesOpen depth t) : LeavesOpen (depth + 1) (t ++ ['(']) := by
  intro u
  rw [List.append_assoc, List.singleton_append, h, close, if_pos rfl]
  simp [Group.cons]

theorem closing (h : LeavesOpen (depth + 1) t) : LeavesOpen depth (t ++ [')']) := by
  intro u
  rw [List.append_assoc, List.singleton_append, h, close, if_neg (by decide), if_pos rfl,
    if_neg (Nat.succ_ne_zero depth)]
  simp [Group.cons]

theorem plain (h : LeavesOpen depth t) (hx : Plain x) : LeavesOpen depth (t ++ x) := by
  intro u
  rw [List.append_assoc, h, hx.close_append]
  simp

theorem group_eq (h : LeavesOpen 0 t) (u : Text) : group (t ++ ')' :: u) = ⟨t, true, u⟩ := by
  rw [h, close, if_neg (by decide), if_pos rfl, if_pos rfl]
  simp

theorem balanced (h : LeavesOpen 0 t) : balanced 0 t = true := by
  have hg : close 0 (t ++ [')']) = ⟨t, true, []⟩ := h.group_eq []
  have hc : (close 0 (t ++ [')'])).closed = true := by rw [hg]
  have hb := balanced_of_close hc
  rwa [hg] at hb

end LeavesOpen

end CustomProperties.Parens

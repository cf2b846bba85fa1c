import CustomProperties.Proofs.Parens.Balance
import CustomProperties.Proofs.Parens.Located
import Mathlib.Order.Bounds.Defs

/-! # Where groups end

A group ends at the first place where as many parentheses have been closed as opened, and it is
open if there is no such place. Where a group within a closed one ends does not depend on what
stands around the latter, so it is found in its body as in the whole text.
-/

namespace CustomProperties.Parens

/-- As many parentheses close in a text as open. -/
def Level (t : Text) : Prop := t.count '(' = t.count ')'

def Located.shift (offset : Nat) (g : Located) : Located :=
  { g with start := offset + g.start, stop := offset + g.stop }

variable {t u before body rest : Text} {e : Nat}

/-! ### Beginnings of groups -/

theorem count_le_of_prefix_body {depth : Nat} (h : u <+: (close depth t).body) :
    u.count ')' ≤ depth + u.count '(' := by
  induction t generalizing depth u with
  | nil =>
    rw [List.prefix_nil.mp h]
    exact Nat.zero_le _
  | cons c t ih =>
    cases u with
    | nil => exact Nat.zero_le _
    | cons d u =>
      rw [close] at h
      split at h
      next hc =>
        obtain ⟨rfl, hu⟩ := List.cons_prefix_cons.mp h
        have hle := ih hu
        simp only [hc, List.count_cons_self, List.count_cons_of_ne (by decide : '(' ≠ ')')]
        omega
      next ho =>
        split at h
        next hc =>
          split at h
          next => exact absurd (List.prefix_nil.mp h) (List.cons_ne_nil d u)
          next hd =>
            obtain ⟨rfl, hu⟩ := List.cons_prefix_cons.mp h
            have hle := ih hu
            simp only [hc, List.count_cons_self, List.count_cons_of_ne (by decide : ')' ≠ '(')]
            omega
        next hc =>
          obtain ⟨rfl, hu⟩ := List.cons_prefix_cons.mp h
          rw [List.count_cons_of_ne hc, List.count_cons_of_ne ho]
          exact ih hu

theorem count_lt_of_prefix_group (h : u <+: '(' :: (group t).body) (hn : u ≠ []) :
    u.count ')' < u.count '(' := by
  obtain ⟨c, u, rfl⟩ := List.exists_cons_of_ne_nil hn
  obtain ⟨rfl, hu⟩ := List.cons_prefix_cons.mp h
  have hle := count_le_of_prefix_body hu
  simp only [List.count_cons_self, List.count_cons_of_ne (by decide : '(' ≠ ')')]
  omega

theorem level_of_balanced (h : balanced 0 body = true) : Level ('(' :: (body ++ [')'])) := by
  obtain ⟨hb, -⟩ := balanced_iff.mp h
  rw [Nat.zero_add] at hb
  simp [Level, hb]

/-! ### Slices that start with a group -/

theorem exists_of_getElem? {index : Nat} {c : Char} (h : t[index]? = some c) :
    ∃ before after, t = before ++ c :: after ∧ before.length = index := by
  obtain ⟨hi, rfl⟩ := List.getElem?_eq_some_iff.mp h
  refine ⟨t.take index, t.drop (index + 1), ?_, List.length_take_of_le (Nat.le_of_lt hi)⟩
  rw [← List.drop_eq_getElem_cons hi, List.take_append_drop]

theorem extract_append (before after : Text) (e : Nat) :
    (before ++ after).extract before.length e = after.take (e - before.length) := by
  rw [List.extract_eq_take_drop, List.drop_left]

theorem not_level_of_prefix (he : before.length < e)
    (h : (before ++ '(' :: t).extract before.length e <+: '(' :: (group t).body) :
    ¬Level ((before ++ '(' :: t).extract before.length e) := by
  have hn : (before ++ '(' :: t).extract before.length e ≠ [] := by
    have hp : e - before.length ≠ 0 := by omega
    simp [hp]
  exact Nat.ne_of_gt (count_lt_of_prefix_group h hn)

/-! ### Closed groups -/

theorem exists_of_closed (h : (group t).closed = true) :
    ∃ body rest, t = body ++ ')' :: rest ∧ balanced 0 body = true :=
  ⟨_, _, eq_body_append h, balanced_of_close h⟩

theorem between_of_balanced (h : balanced 0 body = true) (before rest : Text) :
    Located.between before (body ++ ')' :: rest) =
      ⟨before.length, before.length + body.length + 2, body, true⟩ := by
  rw [Located.between, group_of_balanced h]
  simp only [Group.tail, if_true, List.length_append, List.length_singleton, Located.mk.injEq,
    true_and, and_true]
  omega

theorem isLeast_of_balanced (h : balanced 0 body = true) (before rest : Text) :
    IsLeast {e | before.length < e ∧
        Level ((before ++ '(' :: (body ++ ')' :: rest)).extract before.length e)}
      (before.length + body.length + 2) := by
  have hp : '(' :: (body ++ ')' :: rest) = '(' :: (body ++ [')']) ++ rest := by simp
  constructor
  · refine ⟨by omega, ?_⟩
    rw [extract_append, hp, List.take_left' (by simp; omega)]
    exact level_of_balanced h
  · -- short of the end, what stands from the start on is a beginning of the group
    rintro e ⟨he, hl⟩
    refine Nat.le_of_not_lt fun hlt => not_level_of_prefix he ?_ hl
    rw [extract_append, group_of_balanced h]
    refine List.prefix_of_prefix_length_le (List.take_prefix _ _) ⟨')' :: rest, rfl⟩ ?_
    simp only [List.length_take, List.length_cons]
    omega

theorem extract_of_balanced (before body rest : Text) :
    (before ++ '(' :: (body ++ ')' :: rest)).extract (before.length + 1)
      (before.length + body.length + 2 - 1) = body := by
  have hb := extract_append (before ++ ['(']) (body ++ ')' :: rest)
    (before.length + body.length + 2 - 1)
  rw [List.append_assoc, List.length_append, List.length_singleton] at hb
  exact hb.trans (List.take_left' (by omega))

theorem locate_in_body {x y : Text} (h : balanced 0 (x ++ '(' :: y) = true) (before rest : Text) :
    (Located.between x y).closed = true ∧
      locate (before ++ '(' :: (x ++ '(' :: y ++ ')' :: rest)) (before.length + 1 + x.length) =
        .ok ((Located.between x y).shift (before.length + 1)) := by
  have hc : (group y).closed = true := closed_of_balanced h
  obtain ⟨inner, after, rfl, hb⟩ := exists_of_closed hc
  refine ⟨hc, ?_⟩
  have hl := locate_between (before ++ '(' :: x) (inner ++ ')' :: (after ++ ')' :: rest))
  rw [between_of_balanced hb] at hl ⊢
  simp only [List.append_assoc, List.cons_append, List.length_append, List.length_cons] at hl ⊢
  rw [Nat.add_right_comm before.length 1, Nat.add_assoc before.length, hl]
  simp only [Located.shift, Except.ok.injEq, Located.mk.injEq, and_true]
  omega

/-! ### Open groups -/

theorem between_of_open (h : (group t).closed = false) (before : Text) :
    Located.between before t = ⟨before.length, (before ++ '(' :: t).length, t, false⟩ := by
  have hb : (group t).body = t := body_of_not_closed h
  simp only [Located.between, Group.tail, h, hb, Bool.false_eq_true, if_false, List.append_nil,
    List.length_append, List.length_cons, Located.mk.injEq, true_and, and_true]
  omega

theorem not_level_of_open (h : (group t).closed = false) (he : before.length < e) :
    ¬Level ((before ++ '(' :: t).extract before.length e) := by
  refine not_level_of_prefix he ?_
  rw [extract_append, group, body_of_not_closed h]
  exact List.take_prefix _ _

/-- A group ends at the first place where as many parentheses have been closed as opened since its
start, and it is open if there is no such place. A group in the body of a closed group is closed,
and it is the same in the body as in the whole text. -/
theorem locate_ends_where_level {index : Nat} (h : t[index]? = some '(') :
    ∃ g, locate t index = .ok g ∧ g.start = index ∧
      (g.closed = true ↔ ∃ e > index, Level (t.extract index e)) ∧
      (g.closed = true →
        IsLeast {e | index < e ∧ Level (t.extract index e)} g.stop ∧
        g.body = t.extract (index + 1) (g.stop - 1) ∧
        (∀ u, u <+: g.body → u.count ')' ≤ u.count '(') ∧
        ∀ i, g.body[i]? = some '(' → ∃ inner, locate g.body i = .ok inner ∧ inner.closed = true ∧
          locate t (index + 1 + i) = .ok (inner.shift (index + 1))) ∧
      (g.closed = false →
        g.stop = t.length ∧ g.body = t.drop (index + 1) ∧
        ∀ u, u <+: t.drop index → u ≠ [] → u.count ')' < u.count '(') := by
  obtain ⟨before, after, rfl, rfl⟩ := exists_of_getElem? h
  refine ⟨.between before after, locate_between before after, rfl, ?_⟩
  cases hc : (group after).closed with
  | true =>
    obtain ⟨body, rest, rfl, hb⟩ := exists_of_closed hc
    have hleast := isLeast_of_balanced hb before rest
    rw [between_of_balanced hb]
    refine ⟨⟨fun _ => ⟨_, hleast.1⟩, fun _ => rfl⟩, fun _ => ⟨hleast, ?_, ?_, ?_⟩, nofun⟩
    · exact (extract_of_balanced before body rest).symm
    · intro u hu
      simpa using (balanced_iff.mp hb).2 u hu
    · intro i hi
      obtain ⟨x, y, rfl, rfl⟩ := exists_of_getElem? hi
      exact ⟨_, locate_between x y, locate_in_body hb before rest⟩
  | false =>
    rw [between_of_open hc]
    refine ⟨⟨nofun, ?_⟩, nofun, fun _ => ⟨rfl, ?_, ?_⟩⟩
    · rintro ⟨e, he, hl⟩
      exact absurd hl (not_level_of_open hc he)
    · simp
    · intro u hu hn
      have hb : (group after).body = after := body_of_not_closed hc
      rw [List.drop_left, ← hb] at hu
      exact count_lt_of_prefix_group hu hn

/-- A closed group with another one in it, and an open group. -/
theorem locate_ends_where_level_around_group :
    let t : Text := ")f(g(x))("
    (t[2]? = some '(' ∧ locate t 2 = .ok ⟨2, 8, "g(x)", true⟩ ∧
      IsLeast {e | 2 < e ∧ Level (t.extract 2 e)} 8 ∧
      locate "g(x)" 1 = .ok ⟨1, 4, "x", true⟩ ∧ locate t 4 = .ok ⟨4, 7, "x", true⟩) ∧
    t[8]? = some '(' ∧ locate t 8 = .ok ⟨8, 9, [], false⟩ ∧
      ¬∃ e > 8, Level (t.extract 8 e) := by
  intro t
  constructor
  · have hg : locate t 2 = .ok ⟨2, 8, "g(x)", true⟩ := rfl
    obtain ⟨g, hl, -, -, hclosed, -⟩ := @locate_ends_where_level t 2 rfl
    obtain rfl := Except.ok.inj (hg.symm.trans hl)
    obtain ⟨hleast, -, -, hinner⟩ := hclosed rfl
    obtain ⟨inner, hi, -, hw⟩ := hinner 1 rfl
    have hb : locate "g(x)" 1 = .ok ⟨1, 4, "x", true⟩ := rfl
    obtain rfl := Except.ok.inj (hb.symm.trans hi)
    exact ⟨rfl, hg, hleast, hb, hw⟩
  · have hg : locate t 8 = .ok ⟨8, 9, [], false⟩ := rfl
    obtain ⟨g, hl, -, hiff, -⟩ := @locate_ends_where_level t 8 rfl
    obtain rfl := Except.ok.inj (hg.symm.trans hl)
    exact ⟨rfl, hg, fun h => Bool.false_ne_true (hiff.mpr h)⟩

end CustomProperties.Parens

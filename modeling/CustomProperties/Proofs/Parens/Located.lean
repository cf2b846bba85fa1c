import CustomProperties.Parens

/-! # Located groups

A group that is located by its position is the group of the text behind the position. There is one
exactly where an opening parenthesis stands.
-/

namespace CustomProperties.Parens

variable {t : Text} {index : Nat} {g : Located}

def Located.between (before after : Text) : Located :=
  let g := group after
  ⟨before.length, before.length + 1 + g.tail.length, g.body, g.closed⟩

theorem locate_between (before after : Text) :
    locate (before ++ '(' :: after) before.length = .ok (.between before after) := by
  rw [locate, List.drop_left]
  exact if_pos rfl

theorem locate_eq_ok_iff : locate t index = .ok g ↔
    ∃ before after, t = before ++ '(' :: after ∧ before.length = index ∧
      g = .between before after := by
  constructor
  · intro h
    unfold locate at h
    split at h
    next => contradiction
    next c rest hd =>
      split at h
      next hc =>
        subst hc
        have hl := congrArg List.length hd
        rw [List.length_drop, List.length_cons] at hl
        have hb : (t.take index).length = index := List.length_take_of_le (by omega)
        refine ⟨t.take index, rest, ?_, hb, ?_⟩
        · rw [← hd, List.take_append_drop]
        · rw [← Except.ok.inj h, Located.between, hb]
      next => contradiction
  · rintro ⟨before, after, rfl, rfl, rfl⟩
    exact locate_between before after

theorem lt_stop_of_locate (h : locate t index = .ok g) : index < g.stop := by
  obtain ⟨before, after, rfl, rfl, rfl⟩ := locate_eq_ok_iff.mp h
  simp only [Located.between]
  omega

theorem stop_le_length_of_locate (h : locate t index = .ok g) : g.stop ≤ t.length := by
  obtain ⟨before, after, rfl, rfl, rfl⟩ := locate_eq_ok_iff.mp h
  have hl := congrArg List.length (tail_append_rest 0 after)
  simp only [List.length_append] at hl
  simp only [Located.between, group, List.length_append, List.length_cons]
  omega

theorem length_body_lt_of_locate (h : locate t index = .ok g) :
    g.body.length < (t.drop index).length := by
  obtain ⟨before, after, rfl, rfl, rfl⟩ := locate_eq_ok_iff.mp h
  rw [List.drop_left, List.length_cons]
  exact Nat.lt_succ_of_le (length_body_le after)

/-! ### The text around a located group -/

theorem append_eq_tail_append_rest (before after : Text) :
    before ++ '(' :: after = (before ++ '(' :: (group after).tail) ++ (group after).rest := by
  rw [List.append_assoc, List.cons_append, group, tail_append_rest]

theorem take_stop (before after : Text) :
    (before ++ '(' :: after).take (Located.between before after).stop =
      before ++ '(' :: (group after).tail := by
  have hs : (Located.between before after).stop = (before ++ '(' :: (group after).tail).length := by
    simp only [Located.between, List.length_append, List.length_cons]
    omega
  rw [hs]
  exact (congrArg (List.take _) (append_eq_tail_append_rest before after)).trans List.take_left

theorem drop_stop (before after : Text) :
    (before ++ '(' :: after).drop (Located.between before after).stop = (group after).rest := by
  have h := List.take_append_drop (Located.between before after).stop (before ++ '(' :: after)
  rw [take_stop] at h
  exact List.append_cancel_left (h.trans (append_eq_tail_append_rest before after))

end CustomProperties.Parens

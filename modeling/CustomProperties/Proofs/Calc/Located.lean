import CustomProperties.Proofs.Calc.Name
import CustomProperties.Proofs.Parens.Located

/-! # Flattening by positions

Nested calc can also be flattened group by group: the next calc name is looked for from a position
on, the group behind it is located by the position of its parenthesis and loses the names of all
calc functions in it, and the text goes on where the group stops. Locating a group never fails,
since every calc name ends in a parenthesis, and both ways of flattening agree.
-/

namespace CustomProperties.Calc

open Parens (Plain)

variable {previous : Option Char} {t u rest : Text} {depth position : Nat}

/-! ### Names of calc functions -/

theorem exists_of_token? (h : token? previous t = some rest) :
    ∃ name, t = name ++ '(' :: rest ∧ Plain name ∧
      ∀ u, token? previous (name ++ '(' :: u) = some u := by
  obtain ⟨hs, x, hx, rfl⟩ := token?_eq_some_iff.mp h
  exact ⟨x, rfl, hx.plain, fun u => token?_eq_some_iff.mpr ⟨hs, x, hx, rfl⟩⟩

theorem token?_nil (previous : Option Char) : token? previous [] = none := by
  unfold token?
  split <;> rfl

theorem token?_of_append (h : token? previous (t ++ u) = none) : token? previous t = none := by
  rw [Option.eq_none_iff_forall_ne_some]
  intro rest ht
  obtain ⟨name, rfl, -, hu⟩ := exists_of_token? ht
  have hs := hu (rest ++ u)
  rw [← List.cons_append, ← List.append_assoc] at hs
  rw [h] at hs
  contradiction

/-! ### A group loses its names -/

theorem flattenFrom_of_token? (h : token? previous t = some rest) (depth : Nat) :
    flattenFrom previous depth t =
      (if depth = 0 then t.take (t.length - rest.length) else ['(']) ++
        flattenFrom (some '(') (depth + 1) rest := by
  rw [flattenFrom]
  split
  next h' => rw [h] at h'; cases h'; rfl
  next h' => rw [h] at h'; contradiction

theorem flattenFrom_nil (previous : Option Char) (depth : Nat) :
    flattenFrom previous depth [] = [] := by
  rw [flattenFrom]
  split
  next h => rw [token?_nil] at h; contradiction
  next => rfl

theorem flattenFrom_cons {c : Char} (h : token? previous (c :: t) = none) (depth : Nat) :
    flattenFrom previous depth (c :: t) =
      c :: flattenFrom (some c) (if depth = 0 then 0 else if c = '(' then depth + 1
        else if c = ')' then depth - 1 else depth) t := by
  rw [flattenFrom]
  split
  next h' => rw [h] at h'; contradiction
  next => rfl

/-- A text that follows `previous`, without the names of its calc functions. -/
def stripNames (previous : Option Char) (t : Text) : Text :=
  match _ : token? previous t with
  | some rest => '(' :: stripNames (some '(') rest
  | none =>
    match t with
    | [] => []
    | c :: t => c :: stripNames (some c) t
termination_by t.length
decreasing_by
  · exact length_token? ‹_›
  · simp

theorem stripNames_of_token? (h : token? previous t = some rest) :
    stripNames previous t = '(' :: stripNames (some '(') rest := by
  rw [stripNames]
  split
  next h' => rw [h] at h'; cases h'; rfl
  next h' => rw [h] at h'; contradiction

theorem stripNames_nil (previous : Option Char) : stripNames previous [] = [] := by
  rw [stripNames]
  split
  next h => rw [token?_nil] at h; contradiction
  next => rfl

theorem stripNames_cons {c : Char} (h : token? previous (c :: t) = none) :
    stripNames previous (c :: t) = c :: stripNames (some c) t := by
  rw [stripNames]
  split
  next h' => rw [h] at h'; contradiction
  next => rfl

theorem stripNames_none (t : Text) : stripNames none t = stripNames (some '(') t := by
  have hs : token? none t = token? (some '(') t := by
    have h : startsAfter none = startsAfter (some '(') := by decide
    rw [token?, token?, h]
  cases ht : token? (some '(') t with
  | some rest => rw [stripNames_of_token? ht, stripNames_of_token? (hs.trans ht)]
  | none =>
    cases t with
    | nil => rw [stripNames_nil, stripNames_nil]
    | cons c t => rw [stripNames_cons ht, stripNames_cons (hs.trans ht)]

/-- Inside a calc group all names are stripped up to its end, and flattening goes on behind it. -/
theorem flattenFrom_succ (previous : Option Char) (depth : Nat) (t : Text) :
    flattenFrom previous (depth + 1) t =
      stripNames previous (Parens.close depth t).body ++
        if (Parens.close depth t).closed then
          ')' :: flattenFrom (some ')') 0 (Parens.close depth t).rest
        else [] := by
  induction hl : t.length using Nat.strongRecOn generalizing previous depth t with
  | ind n ih =>
    cases ht : token? previous t with
    | some rest =>
      obtain ⟨name, rfl, hname, hu⟩ := exists_of_token? ht
      have hr : rest.length < n := by
        rw [← hl]
        simp
        omega
      have hc : Parens.close depth ('(' :: rest) = (Parens.close (depth + 1) rest).cons '(' := by
        rw [Parens.close, if_pos rfl]
      rw [flattenFrom_of_token? ht, if_neg (Nat.succ_ne_zero depth), hname.close_append, hc,
        ih rest.length hr (some '(') (depth + 1) rest rfl]
      dsimp only [Parens.Group.cons]
      rw [stripNames_of_token? (hu _)]
      rfl
    | none =>
      cases t with
      | nil => simp [flattenFrom_nil, stripNames_nil, Parens.close]
      | cons c t =>
        have hr : t.length < n := by
          rw [← hl]
          exact Nat.lt_succ_self _
        have hbody (k : Nat) : token? previous (c :: (Parens.close k t).body) = none := by
          refine token?_of_append
            (u := (if (Parens.close k t).closed then [')'] else []) ++ (Parens.close k t).rest) ?_
          rw [List.cons_append, ← List.append_assoc, ← Parens.Group.tail,
            Parens.tail_append_rest]
          exact ht
        have hstep (k : Nat) : c :: flattenFrom (some c) (k + 1) t =
            stripNames previous ((Parens.close k t).cons c).body ++
              if ((Parens.close k t).cons c).closed then
                ')' :: flattenFrom (some ')') 0 ((Parens.close k t).cons c).rest
              else [] := by
          rw [ih t.length hr (some c) k t rfl, Parens.Group.cons]
          dsimp only
          rw [stripNames_cons (hbody k)]
          rfl
        rw [flattenFrom_cons ht, if_neg (Nat.succ_ne_zero depth), Parens.close]
        split
        next hc => exact hstep (depth + 1)
        next hc =>
          split
          next hc' =>
            split
            next hd =>
              subst hd hc'
              simp [stripNames_nil]
            next hd =>
              obtain ⟨d, rfl⟩ := Nat.exists_eq_succ_of_ne_zero hd
              exact hstep d
          next hc' => exact hstep depth

/-! ### Group by group -/

def search? : (previous : Option Char) → Text → Option Text
  | _, [] => none
  | previous, c :: t => (token? previous (c :: t)).or (search? (some c) t)

theorem exists_of_search? (h : search? previous t = some rest) :
    ∃ before, t = before ++ '(' :: rest ∧
      flattenFrom previous 0 t = before ++ '(' :: flattenFrom (some '(') 1 rest := by
  induction t generalizing previous with
  | nil => contradiction
  | cons c t ih =>
    rw [search?] at h
    cases ht : token? previous (c :: t) with
    | some r =>
      rw [ht, Option.some_or] at h
      cases h
      obtain ⟨name, hname, -, -⟩ := exists_of_token? ht
      refine ⟨name, hname, ?_⟩
      rw [flattenFrom_of_token? ht, if_pos rfl, hname, take_name, List.append_assoc]
      rfl
    | none =>
      rw [ht, Option.none_or] at h
      obtain ⟨before, hb, hf⟩ := ih h
      refine ⟨c :: before, congrArg (c :: ·) hb, ?_⟩
      rw [flattenFrom_cons ht, if_pos rfl, hf]
      rfl

theorem flattenFrom_of_search?_eq_none (h : search? previous t = none) :
    flattenFrom previous 0 t = t := by
  induction t generalizing previous with
  | nil => exact flattenFrom_nil previous 0
  | cons c t ih =>
    rw [search?, Option.or_eq_none_iff] at h
    rw [flattenFrom_cons h.1, if_pos rfl, ih h.2]

def flattenAt (value : Text) (position : Nat) : Except Parens.Missing Text :=
  match _ : search? (value.take position).getLast? (value.drop position) with
  | none => .ok (value.drop position)
  | some rest =>
    match _ : Parens.locate value (value.length - rest.length - 1) with
    | .error m => .error m
    | .ok g =>
      (flattenAt value g.stop).map fun others =>
        (value.take (g.start + 1)).drop position ++ stripNames none g.body ++
          (if g.closed then [')'] else []) ++ others
termination_by value.length - position
decreasing_by
  obtain ⟨before, hb, -⟩ := exists_of_search? ‹_›
  have hs := Parens.lt_stop_of_locate ‹_›
  have hl := congrArg List.length hb
  simp only [List.length_drop, List.length_append, List.length_cons] at hl
  omega

theorem eq_of_drop_eq {value before : Text} (h : value.drop position = before ++ '(' :: rest) :
    value = (value.take position ++ before) ++ '(' :: rest := by
  rw [List.append_assoc, ← h, List.take_append_drop]

theorem locate_of_drop_eq {value before : Text} (h : value.drop position = before ++ '(' :: rest) :
    Parens.locate value (value.length - rest.length - 1) =
      .ok (.between (value.take position ++ before) rest) := by
  have hv := eq_of_drop_eq h
  have hl := congrArg List.length hv
  rw [List.length_append, List.length_cons] at hl
  have hi : value.length - rest.length - 1 = (value.take position ++ before).length := by omega
  rw [hi]
  exact (congrArg (Parens.locate · _) hv).trans (Parens.locate_between _ _)

theorem drop_take_eq {value before : Text} (h : value.drop position = before ++ '(' :: rest) :
    (value.take ((value.take position ++ before).length + 1)).drop position = before ++ ['('] := by
  have hl := congrArg List.length h
  simp only [List.length_drop, List.length_append, List.length_cons] at hl
  have hp : (value.take position).length = position := List.length_take_of_le (by omega)
  have hn : position + before.length + 1 - position = before.length + 1 := by omega
  rw [List.drop_take, h, List.length_append, hp, hn, List.take_length_add_append]
  rfl

theorem flattenFrom_behind (before after : Text) :
    flattenFrom (before ++ '(' :: (Parens.group after).tail).getLast? 0 (Parens.group after).rest =
      if (Parens.group after).closed then flattenFrom (some ')') 0 (Parens.group after).rest
      else [] := by
  cases hc : (Parens.group after).closed with
  | true =>
    have ht : before ++ '(' :: (Parens.group after).tail =
        before ++ '(' :: (Parens.group after).body ++ [')'] := by simp [Parens.Group.tail, hc]
    rw [ht, List.getLast?_concat]
    rfl
  | false =>
    rw [Parens.group, Parens.rest_of_not_closed hc, flattenFrom_nil]
    rfl

/-- Both ways of flattening agree, so no group of a calc name is ever missing. -/
theorem flattenAt_eq (value : Text) (position : Nat) :
    flattenAt value position =
      .ok (flattenFrom (value.take position).getLast? 0 (value.drop position)) := by
  fun_induction flattenAt value position with
  | case1 position hn => rw [flattenFrom_of_search?_eq_none hn]
  | case2 position rest hs m hm =>
    obtain ⟨before, hb, -⟩ := exists_of_search? hs
    rw [locate_of_drop_eq hb] at hm
    contradiction
  | case3 position rest hs g hg ih =>
    obtain ⟨before, hb, hf⟩ := exists_of_search? hs
    rw [locate_of_drop_eq hb] at hg
    obtain rfl := Except.ok.inj hg
    have hv := eq_of_drop_eq hb
    have htake := drop_take_eq hb
    generalize value.take position ++ before = start at hv htake ih
    have hstop : value.take (Parens.Located.between start rest).stop =
        start ++ '(' :: (Parens.group rest).tail := by
      rw [hv, Parens.take_stop]
    have hdrop : value.drop (Parens.Located.between start rest).stop =
        (Parens.group rest).rest := by
      rw [hv, Parens.drop_stop]
    rw [hstop, hdrop, flattenFrom_behind] at ih
    rw [ih, hf, flattenFrom_succ, stripNames_none]
    simp only [Except.map, Parens.Located.between, Parens.group, htake, List.append_assoc]
    split
    next hc => simp [hc]
    next hc => simp [hc]

end CustomProperties.Calc

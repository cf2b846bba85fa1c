import CustomProperties.Proofs.Calc.Located
import Mathlib.Data.List.Basic

/-! # Nested calc functions

Flattening removes the names of the calc functions that stand in the group of another one, and
nothing else. No function is left in the group of another one, so flattening again changes nothing.
-/

namespace CustomProperties.Calc

open Parens (Plain LeavesOpen)

/-- A calc function of a text: its name with what stands before it, and what follows its
parenthesis. -/
structure Function (t : Text) where
  before : Text
  name : Text
  rest : Text
  text_eq : t = before ++ (name ++ '(' :: rest)
  token_eq : token? before.getLast? (name ++ '(' :: rest) = some rest

variable {previous : Option Char} {t u rest before name a : Text} {c : Char} {depth i : Nat}

namespace Function

def start (f : Function t) : Nat := f.before.length

def opening (f : Function t) : Nat := f.before.length + f.name.length

/-- What its group holds, up to the end of the text if it is not closed. -/
def body (f : Function t) : Text := (Parens.group f.rest).body

def Covers (f : Function t) (i : Nat) : Prop := f.opening < i ∧ i ≤ f.opening + f.body.length

def Within (f g : Function t) : Prop := g.Covers f.start ∧ g.Covers f.opening

variable (f g : Function t)

theorem isName : IsName f.name := by
  obtain ⟨-, x, hx, he⟩ := token?_eq_some_iff.mp f.token_eq
  rwa [List.append_cancel_right he]

theorem startsAfter_before : startsAfter f.before.getLast? = true :=
  (token?_eq_some_iff.mp f.token_eq).1

theorem start_lt_opening : f.start < f.opening := by
  have := List.length_pos_iff.mpr f.isName.ne_nil
  simp only [start, opening]
  omega

theorem length_eq : t.length = f.opening + 1 + f.rest.length := by
  have := congrArg List.length f.text_eq
  simp only [List.length_append, List.length_cons] at this
  simp only [opening]
  omega

theorem getElem?_opening : t[f.opening]? = some '(' := by
  have h : t = (f.before ++ f.name) ++ '(' :: f.rest := by
    rw [List.append_assoc]
    exact f.text_eq
  have hl : f.opening = (f.before ++ f.name).length := List.length_append.symm
  rw [hl]
  refine (congrArg (fun t : Text => t[(f.before ++ f.name).length]?) h).trans ?_
  rw [List.getElem?_append_right (Nat.le_refl _), Nat.sub_self]
  rfl

theorem drop_opening : t.drop (f.opening + 1) = f.rest := by
  have h : t = (f.before ++ (f.name ++ ['('])) ++ f.rest := by
    simpa using f.text_eq
  have hl : f.opening + 1 = (f.before ++ (f.name ++ ['('])).length := by
    simp [opening, Nat.add_assoc]
  rw [hl]
  exact (congrArg (List.drop _) h).trans List.drop_left

variable {f g}

theorem mem_name (hs : f.start ≤ i) (ho : i < f.opening) (hc : t[i]? = some c) : c ∈ f.name := by
  have hi : i - f.before.length < f.name.length := by
    simp only [start, opening] at hs ho
    omega
  rw [f.text_eq, List.getElem?_append_right hs, List.getElem?_append_left hi] at hc
  exact List.mem_of_getElem? hc

theorem getLast?_before (hi : i + 1 = f.start) (hc : t[i]? = some c) :
    f.before.getLast? = some c := by
  have hl : f.before.length - 1 = i := by
    rw [start] at hi
    omega
  rw [f.text_eq, List.getElem?_append_left (by rw [start] at hi; omega)] at hc
  rw [List.getLast?_eq_getElem?, hl, hc]

theorem opening_le (h : f.start ≤ g.opening) : f.opening ≤ g.opening := by
  by_contra hn
  exact f.isName.plain.1 (mem_name h (Nat.lt_of_not_le hn) g.getElem?_opening)

theorem start_le (h : f.opening = g.opening) : f.start ≤ g.start := by
  by_contra hn
  have hf := f.start_lt_opening
  have hl := f.length_eq
  have hi : f.start - 1 < t.length := by omega
  have hc := List.getElem?_eq_getElem hi
  have hm := mem_name (f := g) (by omega) (by omega) hc
  have hs := f.startsAfter_before
  rw [getLast?_before (by omega) hc, g.isName.startsAfter_eq_false hm] at hs
  contradiction

theorem eq_of_overlap (h : f.start ≤ g.opening) (h' : g.start ≤ f.opening) :
    f.opening = g.opening ∧ f.start = g.start := by
  have ho := Nat.le_antisymm (opening_le h) (opening_le h')
  exact ⟨ho, Nat.le_antisymm (start_le ho) (start_le ho.symm)⟩

theorem body_eq (h : f.opening = g.opening) : f.body = g.body := by
  rw [body, body, ← f.drop_opening, ← g.drop_opening, h]

end Function

/-! ### Where a scan stands -/

/-- No name of a calc function lies across the position. -/
def Settled (t : Text) (i : Nat) : Prop := ∀ f : Function t, f.start < i → f.opening < i

theorem Settled.function {f : Function t} (h : Settled t f.start) : Settled t (f.opening + 1) := by
  intro g hg
  rcases Nat.lt_or_ge g.start f.start with hlt | hge
  · have hf := f.start_lt_opening
    have := h g hlt
    omega
  · have hf := g.start_lt_opening
    have := (Function.eq_of_overlap (f := f) (g := g) (by omega) (by omega)).1
    omega

theorem Settled.char (h : Settled t i) (hn : ∀ f : Function t, f.start ≠ i) :
    Settled t (i + 1) := by
  intro f hf
  have := h f (Nat.lt_of_le_of_ne (Nat.le_of_lt_succ hf) (hn f))
  omega

theorem start_ne (ht : t = before ++ u) (hu : token? before.getLast? u = none) (f : Function t) :
    f.start ≠ before.length := by
  intro hs
  obtain ⟨hb, hr⟩ := List.append_inj (f.text_eq.symm.trans ht) hs
  have hk := f.token_eq
  rw [hb, hr, hu] at hk
  contradiction

/-- The scan has read `before` and stands outside of all groups of calc functions, or `depth`
groups deep from the outermost calc function around it. -/
inductive Stands (t before : Text) : Nat → Prop

  | outside : (∀ g : Function t, ¬g.Covers before.length) → Stands t before 0

  | inside {depth : Nat} {a : Text} (g : Function t) : (∀ g' : Function t, ¬g'.Covers g.start) →
      before = g.before ++ (g.name ++ '(' :: a) → LeavesOpen depth a → Stands t before (depth + 1)

namespace Function

variable {g : Function t}

theorem rest_eq (hb : before = g.before ++ (g.name ++ '(' :: a)) (ht : t = before ++ u) :
    g.rest = a ++ u := by
  have h : g.before ++ (g.name ++ '(' :: g.rest) = g.before ++ (g.name ++ '(' :: (a ++ u)) := by
    refine g.text_eq.symm.trans (ht.trans ?_)
    rw [hb]
    simp
  exact (List.cons.inj (List.append_cancel_left (List.append_cancel_left h))).2

theorem length_before (hb : before = g.before ++ (g.name ++ '(' :: a)) :
    before.length = g.opening + 1 + a.length := by
  have := congrArg List.length hb
  simp only [List.length_append, List.length_cons] at this
  simp only [opening]
  omega

theorem exists_of_opening_lt {f : Function t} (hb : before = g.before ++ (g.name ++ '(' :: a))
    (ht : t = before ++ u) (hlo : g.opening < f.opening) (hup : f.opening < before.length) :
    ∃ x y, a = x ++ '(' :: y ∧ f.rest = y ++ u ∧ f.opening = g.opening + 1 + x.length := by
  have hn := length_before hb
  have hr : t.drop (g.opening + 1) = a ++ u := by rw [drop_opening, rest_eq hb ht]
  let k := f.opening - (g.opening + 1)
  have hk : k < a.length := by omega
  have hc : a[k] = '(' := by
    have he : t[f.opening]? = a[k]? := by
      have hi : f.opening = g.opening + 1 + k := by omega
      rw [hi, ← List.getElem?_drop, hr, List.getElem?_append_left hk]
    rw [f.getElem?_opening, List.getElem?_eq_getElem hk] at he
    exact (Option.some.inj he).symm
  refine ⟨a.take k, a.drop (k + 1), ?_, ?_, ?_⟩
  · rw [← hc, ← List.drop_eq_getElem_cons hk, List.take_append_drop]
  · have hd : f.opening + 1 = g.opening + 1 + (k + 1) := by omega
    rw [← f.drop_opening, hd, ← List.drop_drop, hr, List.drop_append_of_le_length hk]
  · rw [List.length_take_of_le (Nat.le_of_lt hk)]
    omega

theorem body_of_leavesOpen (hb : before = g.before ++ (g.name ++ '(' :: a)) (ht : t = before ++ u)
    (ha : LeavesOpen depth a) : g.body = a ++ (Parens.close depth u).body := by
  rw [body, rest_eq hb ht, ha]

end Function

namespace Stands

theorem exists_within {f : Function t} (h : Stands t f.before (depth + 1)) :
    ∃ g : Function t, f.Within g := by
  cases h with
  | @inside _ a g _ hb ha =>
    have hn := g.length_before hb
    have hbody := congrArg List.length (g.body_of_leavesOpen hb f.text_eq ha)
    rw [f.isName.plain.close_append, Parens.close, if_pos rfl] at hbody
    simp only [Parens.Group.cons, List.length_append, List.length_cons] at hbody
    refine ⟨g, ?_⟩
    simp only [Function.Within, Function.Covers, Function.start, Function.opening] at hn ⊢
    omega

theorem function {f : Function t} (h : Stands t f.before depth) :
    Stands t (f.before ++ (f.name ++ ['('])) (depth + 1) := by
  cases h with
  | outside h => exact .inside f h rfl .nil
  | @inside depth a g hg hb ha =>
    refine .inside (a := a ++ f.name ++ ['(']) g hg ?_ (ha.plain f.isName.plain).opening
    rw [hb]
    simp

/-- Behind the parenthesis that closes the group of the outermost function no group goes on: those
that were opened in it have been closed. -/
theorem leave {g : Function t} (hg : ∀ g' : Function t, ¬g'.Covers g.start)
    (hb : before = g.before ++ (g.name ++ '(' :: a)) (ht : t = before ++ ')' :: u)
    (ha : LeavesOpen 0 a) (f : Function t) : ¬f.Covers (before.length + 1) := by
  rintro ⟨hlo, hup⟩
  have hn := g.length_before hb
  have hs := g.start_lt_opening
  have hbody : g.body = a := by
    rw [Function.body, g.rest_eq hb ht, ha.group_eq]
  have hne : f.opening ≠ before.length := by
    intro he
    have hc := f.getElem?_opening
    rw [he, (congrArg (fun t : Text => t[before.length]?) ht).trans
      (List.getElem?_append_right (Nat.le_refl _)), Nat.sub_self] at hc
    exact absurd (Option.some.inj hc) (by decide)
  rcases Nat.lt_trichotomy f.opening g.opening with h | h | h
  · -- the name of the outermost function holds no parenthesis, so the group starts before it
    have hlt : f.opening < g.start := by
      by_contra hge
      have := Function.opening_le (f := g) (g := f) (Nat.le_of_not_lt hge)
      omega
    exact hg f ⟨hlt, by omega⟩
  · rw [Function.body_eq h, hbody] at hup
    omega
  · obtain ⟨x, y, rfl, hr, hx⟩ := Function.exists_of_opening_lt hb ht h (by omega)
    have hl := Parens.length_body_of_balanced ha.balanced (')' :: u)
    rw [← hr, ← Function.body] at hl
    simp only [List.length_append, List.length_cons] at hn
    omega

theorem char (h : Stands t before depth) (ht : t = before ++ c :: u)
    (hs : Settled t before.length) :
    Stands t (before ++ [c]) (if depth = 0 then 0 else if c = '(' then depth + 1
      else if c = ')' then depth - 1 else depth) := by
  have hl : (before ++ [c]).length = before.length + 1 := List.length_append
  cases h with
  | outside h =>
    rw [if_pos rfl]
    refine .outside fun g hg => ?_
    rw [hl] at hg
    rcases Nat.lt_or_eq_of_le (Nat.le_of_lt_succ hg.1) with hlt | he
    · exact h g ⟨hlt, Nat.le_of_succ_le hg.2⟩
    · have hlt := he ▸ g.start_lt_opening
      exact absurd (hs g hlt) (by omega)
  | @inside depth a g hg hb ha =>
    have hb' : before ++ [c] = g.before ++ (g.name ++ '(' :: (a ++ [c])) := by
      rw [hb]
      simp
    rw [if_neg (Nat.succ_ne_zero depth)]
    split
    next hc =>
      subst hc
      exact .inside g hg hb' ha.opening
    next ho =>
      split
      next hc =>
        subst hc
        cases depth with
        | zero =>
          refine .outside fun f => ?_
          rw [hl]
          exact leave hg hb ht ha f
        | succ depth => exact .inside g hg hb' ha.closing
      next hc =>
        refine .inside g hg hb' (ha.plain ⟨?_, ?_⟩)
        · simpa [eq_comm] using ho
        · simpa [eq_comm] using hc

end Stands

/-! ### What flattening keeps -/

def InNestedName (t : Text) (i : Nat) : Prop :=
  ∃ f g : Function t, f.Within g ∧ f.start ≤ i ∧ i < f.opening

open Classical in
/-- What is kept of a part of the text that starts at position `n`. -/
noncomputable def keptFrom (t : Text) (n : Nat) (u : Text) : Text :=
  ((u.zipIdx n).filter fun p => ¬InNestedName t p.2).map Prod.fst

noncomputable def withoutNestedNames (t : Text) : Text := keptFrom t 0 t

section Kept

variable {n : Nat} {x : Text}

theorem keptFrom_nil (t : Text) (n : Nat) : keptFrom t n [] = [] := rfl

theorem keptFrom_cons (h : ¬InNestedName t n) (c : Char) (u : Text) :
    keptFrom t n (c :: u) = c :: keptFrom t (n + 1) u := by
  rw [keptFrom, List.zipIdx_cons, List.filter_cons_of_pos (by simpa using h)]
  rfl

theorem keptFrom_cons_of_inNestedName (h : InNestedName t n) (c : Char) (u : Text) :
    keptFrom t n (c :: u) = keptFrom t (n + 1) u := by
  rw [keptFrom, List.zipIdx_cons, List.filter_cons_of_neg (by simpa using h)]
  rfl

theorem keptFrom_append (h : ∀ i, n ≤ i → i < n + x.length → ¬InNestedName t i) (u : Text) :
    keptFrom t n (x ++ u) = x ++ keptFrom t (n + x.length) u := by
  induction x generalizing n with
  | nil => rfl
  | cons c x ih =>
    have hl : n + (c :: x).length = n + 1 + x.length := Nat.add_right_comm n x.length 1
    rw [hl] at h ⊢
    rw [List.cons_append, keptFrom_cons (h n (Nat.le_refl n) (by omega)),
      ih fun i hi => h i (Nat.le_of_succ_le hi)]
    rfl

theorem keptFrom_append_of_inNestedName (h : ∀ i, n ≤ i → i < n + x.length → InNestedName t i)
    (u : Text) : keptFrom t n (x ++ u) = keptFrom t (n + x.length) u := by
  induction x generalizing n with
  | nil => rfl
  | cons c x ih =>
    have hl : n + (c :: x).length = n + 1 + x.length := Nat.add_right_comm n x.length 1
    rw [hl] at h ⊢
    rw [List.cons_append, keptFrom_cons_of_inNestedName (h n (Nat.le_refl n) (by omega)),
      ih fun i hi => h i (Nat.le_of_succ_le hi)]

theorem withoutNestedNames_eq_self_iff :
    withoutNestedNames t = t ↔ ∀ f g : Function t, ¬f.Within g := by
  constructor
  · intro h f g hw
    have hl := congrArg List.length h
    rw [withoutNestedNames, keptFrom, List.length_map, ← List.length_zipIdx (l := t) (i := 0),
      List.length_filter_eq_length_iff] at hl
    have hlt : f.start < t.length := by
      have := f.start_lt_opening
      have := f.length_eq
      omega
    have hm : (t[f.start], f.start) ∈ t.zipIdx :=
      List.mk_mem_zipIdx_iff_getElem?.mpr (List.getElem?_eq_getElem hlt)
    have hn : ¬InNestedName t f.start := by simpa using hl _ hm
    exact hn ⟨f, g, hw, Nat.le_refl _, f.start_lt_opening⟩
  · intro h
    have hkept : ∀ i, 0 ≤ i → i < 0 + t.length → ¬InNestedName t i := by
      rintro i - - ⟨f, g, hw, -⟩
      exact h f g hw
    have hk := keptFrom_append hkept []
    rwa [List.append_nil, keptFrom_nil, List.append_nil] at hk

end Kept

theorem Settled.not_inNestedName (h : Settled t i) (hn : ∀ f : Function t, f.start ≠ i) :
    ¬InNestedName t i := by
  rintro ⟨f, -, -, hle, hlt⟩
  have := h f (Nat.lt_of_le_of_ne hle (hn f))
  omega

namespace Function

variable {f : Function t}

theorem not_inNestedName_opening (f : Function t) : ¬InNestedName t f.opening := by
  rintro ⟨f', -, -, hle, hlt⟩
  exact absurd (opening_le hle) (Nat.not_le_of_lt hlt)

theorem not_inNestedName (h : ∀ g : Function t, ¬g.Covers f.start) (hi : f.start ≤ i)
    (hlt : i < f.opening) : ¬InNestedName t i := by
  rintro ⟨f', g, hw, hle, hlt'⟩
  have hs : f'.start = f.start :=
    (eq_of_overlap (Nat.le_trans hle (Nat.le_of_lt hlt)) (Nat.le_trans hi (Nat.le_of_lt hlt'))).2
  have hc : g.Covers f.start := hs ▸ hw.1
  exact h g hc

theorem keptFrom_eq (h : Stands t f.before depth) :
    keptFrom t f.start (f.name ++ '(' :: f.rest) =
      (if depth = 0 then f.name else []) ++ '(' :: keptFrom t (f.opening + 1) f.rest := by
  have hname : f.start + f.name.length = f.opening := rfl
  have hopening := keptFrom_cons f.not_inNestedName_opening '(' f.rest
  cases h with
  | outside h =>
    have hkept : ∀ i, f.start ≤ i → i < f.start + f.name.length → ¬InNestedName t i :=
      fun i => not_inNestedName h
    rw [if_pos rfl, keptFrom_append hkept, hname, hopening]
  | @inside depth a _ hg hb ha =>
    obtain ⟨g, hw⟩ := Stands.exists_within (.inside _ hg hb ha)
    have hnested : ∀ i, f.start ≤ i → i < f.start + f.name.length → InNestedName t i :=
      fun i hi hlt => ⟨f, g, hw, hi, hlt⟩
    rw [if_neg (Nat.succ_ne_zero depth), keptFrom_append_of_inNestedName hnested, hname, hopening]
    rfl

end Function

/-- From every place of the scan on, flattening keeps all but the names within other functions. -/
theorem flattenFrom_eq_keptFrom (hp : previous = before.getLast?) (ht : t = before ++ u)
    (hs : Settled t before.length) (h : Stands t before depth) :
    flattenFrom previous depth u = keptFrom t before.length u := by
  fun_induction flattenFrom previous depth u generalizing before with
  | case1 previous depth u rest hu ih =>
    subst hp
    obtain ⟨name, rfl, -, -⟩ := exists_of_token? hu
    let f : Function t := ⟨before, name, rest, ht, hu⟩
    have hl : (before ++ (name ++ ['('])).length = f.opening + 1 := by
      simp [f, Function.opening, Nat.add_assoc]
    have hrest := @ih (before ++ (name ++ ['('])) (by simp) (by simp [ht])
      (hl ▸ Settled.function (f := f) hs) (Stands.function (f := f) h)
    have hkept := Function.keptFrom_eq (f := f) h
    rw [hl] at hrest
    rw [hrest]
    refine Eq.trans ?_ hkept.symm
    split
    · rw [take_name, List.append_assoc]
      rfl
    · rfl
  | case2 previous depth => rw [keptFrom_nil]
  | case3 previous depth c u hu =>
    rename_i ih
    subst hp
    have hstart := start_ne ht hu
    have hrest := @ih (before ++ [c]) (by simp) (by simp [ht])
      (by simpa using hs.char hstart) (h.char ht hs)
    rw [keptFrom_cons (hs.not_inNestedName hstart), hrest, List.length_append]
    rfl

theorem flatten_eq_withoutNestedNames (t : Text) : flatten t = withoutNestedNames t := by
  have hs : Settled t ([] : Text).length := fun _ h => absurd h (Nat.not_lt_zero _)
  have h : Stands t [] 0 := .outside fun _ h => absurd h.1 (Nat.not_lt_zero _)
  exact flattenFrom_eq_keptFrom rfl (List.nil_append t).symm hs h

/-! ### Flattening twice -/

/-- A name that is completed in a flattened text was there before: none of its characters joins
what has been removed. -/
theorem exists_of_flattenFrom_eq (hp : startsAfter previous = false)
    (hx : ∀ c ∈ name, startsAfter (some c) = false)
    (h : flattenFrom previous depth t = name ++ '(' :: rest) : ∃ r, t = name ++ '(' :: r := by
  have hn : token? previous t = none := if_neg (by simp [hp])
  induction name generalizing previous depth t with
  | nil =>
    cases t with
    | nil => rw [flattenFrom_nil] at h; contradiction
    | cons c t =>
      rw [flattenFrom_cons hn] at h
      exact ⟨t, congrArg (· :: t) (List.cons.inj h).1⟩
  | cons c name ih =>
    cases t with
    | nil => rw [flattenFrom_nil] at h; contradiction
    | cons d t =>
      rw [flattenFrom_cons hn] at h
      obtain ⟨rfl, hr⟩ := List.cons.inj h
      have hd := hx d List.mem_cons_self
      obtain ⟨r, rfl⟩ := ih hd (List.forall_mem_cons.mp hx).2 hr (if_neg (by simp [hd]))
      exact ⟨r, rfl⟩

theorem token?_cons_flattenFrom (h : token? previous (c :: t) = none) (depth : Nat) :
    token? previous (c :: flattenFrom (some c) depth t) = none := by
  rw [Option.eq_none_iff_forall_ne_some]
  intro rest hs
  obtain ⟨hp, x, hx, he⟩ := token?_eq_some_iff.mp hs
  obtain ⟨d, x, rfl⟩ := List.exists_cons_of_ne_nil hx.ne_nil
  obtain ⟨rfl, hr⟩ := List.cons.inj he
  have hall := List.forall_mem_cons.mp fun _ => hx.startsAfter_eq_false
  obtain ⟨r, rfl⟩ := exists_of_flattenFrom_eq hall.1 hall.2 hr
  have ht : token? previous (c :: (x ++ '(' :: r)) = some r :=
    token?_eq_some_iff.mpr ⟨hp, _, hx, rfl⟩
  rw [h] at ht
  contradiction

theorem token?_parenthesis (previous : Option Char) (t : Text) :
    token? previous ('(' :: t) = none := by
  rw [Option.eq_none_iff_forall_ne_some]
  intro rest hs
  obtain ⟨-, x, hx, he⟩ := token?_eq_some_iff.mp hs
  obtain ⟨c, x, rfl⟩ := List.exists_cons_of_ne_nil hx.ne_nil
  obtain ⟨rfl, -⟩ := List.cons.inj he
  exact hx.plain.1 List.mem_cons_self

theorem flattenFrom_flattenFrom (previous : Option Char) (depth : Nat) (t : Text) :
    flattenFrom previous depth (flattenFrom previous depth t) = flattenFrom previous depth t := by
  fun_induction flattenFrom previous depth t with
  | case1 previous depth t rest ht ih =>
    obtain ⟨name, rfl, -, hu⟩ := exists_of_token? ht
    split
    next hd =>
      subst hd
      rw [take_name, List.append_assoc, List.singleton_append, flattenFrom_of_token? (hu _),
        if_pos rfl, take_name, ih, List.append_assoc]
      rfl
    next hd =>
      rw [List.singleton_append, flattenFrom_cons (token?_parenthesis previous _), if_neg hd,
        if_pos rfl, ih]
  | case2 previous depth => exact flattenFrom_nil previous depth
  | case3 previous depth c t ht =>
    rename_i ih
    rw [flattenFrom_cons (token?_cons_flattenFrom ht _)]
    exact congrArg (c :: ·) ih

/-! ### Parentheses -/

def isParen (c : Char) : Bool := c == '(' || c == ')'

theorem filter_isParen_flattenFrom (previous : Option Char) (depth : Nat) (t : Text) :
    (flattenFrom previous depth t).filter isParen = t.filter isParen := by
  fun_induction flattenFrom previous depth t with
  | case1 previous depth t rest ht ih =>
    obtain ⟨name, rfl, hname, -⟩ := exists_of_token? ht
    have hnone : name.filter isParen = [] := by
      rw [List.filter_eq_nil_iff]
      rintro c hc hp
      rcases Bool.or_eq_true_iff.mp hp with h | h
      · exact hname.1 (beq_iff_eq.mp h ▸ hc)
      · exact hname.2 (beq_iff_eq.mp h ▸ hc)
    rw [take_name, List.filter_append, ih, List.filter_append, hnone]
    split
    · rw [List.filter_append, hnone]
      rfl
    · rfl
  | case2 => rfl
  | case3 previous depth c t ht =>
    rename_i ih
    rw [List.filter_cons, List.filter_cons]
    exact congrArg (fun u => if isParen c then c :: u else u) ih

/-! ### The result -/

/-- Flattening removes the names of the functions within other ones and nothing else, and leaves no
function within another one. So it keeps all parentheses, and it changes nothing in a text without
such functions or in one that it has flattened. -/
theorem flatten_removes_nested_names (t : Text) :
    flatten t = withoutNestedNames t ∧
      (∀ f g : Function (flatten t), ¬f.Within g) ∧
      flatten (flatten t) = flatten t ∧
      (flatten t).filter isParen = t.filter isParen ∧
      (flatten t = t ↔ ∀ f g : Function t, ¬f.Within g) := by
  have hself (u : Text) : flatten u = u ↔ ∀ f g : Function u, ¬f.Within g := by
    rw [flatten_eq_withoutNestedNames, withoutNestedNames_eq_self_iff]
  have htwice : flatten (flatten t) = flatten t := flattenFrom_flattenFrom none 0 t
  exact ⟨flatten_eq_withoutNestedNames t, (hself _).mp htwice, htwice,
    filter_isParen_flattenFrom none 0 t, hself t⟩

end CustomProperties.Calc

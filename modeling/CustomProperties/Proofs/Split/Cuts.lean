import CustomProperties.Proofs.Split.Commas
import Mathlib.Data.List.Induction

/-! # Where texts are cut

A text can be cut where a separator stands outside quoted runs and brackets. A split cuts at the
first of these places, at all of them if there is no limit, and loses nothing of the text.
-/

namespace CustomProperties.Split

def Position.behind (p : Position) (t : Text) : Position := t.foldl Position.step p

/-- Behind the text no quoted run goes on and `depth` brackets are open. A closing bracket that
nothing opened closes nothing. -/
inductive LeavesOpen : (depth : Nat) → Text → Prop
  | nil : LeavesOpen 0 []
  | quoted {depth : Nat} {t run : Text} {q : Char} (h : LeavesOpen depth t) (hq : isQuote q = true)
      (hr : q ∉ run) : LeavesOpen depth (t ++ q :: (run ++ [q]))
  | opening {depth : Nat} {t : Text} {c : Char} (h : LeavesOpen depth t) (hc : isOpening c = true) :
      LeavesOpen (depth + 1) (t ++ [c])
  | closing {depth : Nat} {t : Text} {c : Char} (h : LeavesOpen depth t) (hc : isClosing c = true) :
      LeavesOpen (depth - 1) (t ++ [c])
  | other {depth : Nat} {t : Text} {c : Char} (h : LeavesOpen depth t)
      (hc : isGrouping c = false) : LeavesOpen depth (t ++ [c])

variable {depth : Nat} {p : Position} {separator c : Char} {t : Text} {parts : List Text}

/-! ### Steps of a scan -/

theorem behind_append (p : Position) (t u : Text) : p.behind (t ++ u) = (p.behind t).behind u :=
  List.foldl_append

theorem step_quote (hc : isQuote c = true) (depth : Nat) :
    Position.step ⟨none, depth⟩ c = ⟨some c, depth⟩ := by
  simp [Position.step, hc]

theorem step_opening (hc : isOpening c = true) (depth : Nat) :
    Position.step ⟨none, depth⟩ c = ⟨none, depth + 1⟩ := by
  have hq : isQuote c = false := by
    rcases Bool.or_eq_true_iff.mp hc with h | h <;> rw [beq_iff_eq.mp h] <;> rfl
  simp [Position.step, hq, hc]

theorem step_closing (hc : isClosing c = true) (depth : Nat) :
    Position.step ⟨none, depth⟩ c = ⟨none, depth - 1⟩ := by
  have hq : isQuote c = false ∧ isOpening c = false := by
    rcases Bool.or_eq_true_iff.mp hc with h | h <;> rw [beq_iff_eq.mp h] <;> exact ⟨rfl, rfl⟩
  simp [Position.step, hq, hc]

theorem step_other (hc : isGrouping c = false) (depth : Nat) :
    Position.step ⟨none, depth⟩ c = ⟨none, depth⟩ := by
  simp only [isGrouping, Bool.or_eq_false_iff] at hc
  simp [Position.step, hc]

theorem step_in_run (q : Char) (depth : Nat) (c : Char) :
    Position.step ⟨some q, depth⟩ c = if c = q then ⟨none, depth⟩ else ⟨some q, depth⟩ := rfl

theorem behind_run {q : Char} {run : Text} (hr : q ∉ run) (depth : Nat) :
    Position.behind ⟨some q, depth⟩ (run ++ [q]) = ⟨none, depth⟩ := by
  induction run with
  | nil => exact if_pos rfl
  | cons c run ih =>
    rw [List.mem_cons, not_or] at hr
    have hs := (step_in_run q depth c).trans (if_neg (Ne.symm hr.1))
    exact (congrArg (Position.behind · (run ++ [q])) hs).trans (ih hr.2)

/-! ### What a scan counts -/

def Position.Describes (p : Position) (t : Text) : Prop :=
  match p.quote with
  | none => LeavesOpen p.depth t
  | some q => ∃ u run, t = u ++ q :: run ∧ LeavesOpen p.depth u ∧ isQuote q = true ∧ q ∉ run

theorem Position.Describes.step (h : p.Describes t) (c : Char) :
    (p.step c).Describes (t ++ [c]) := by
  obtain ⟨quote, depth⟩ := p
  cases quote with
  | none =>
    by_cases hq : isQuote c = true
    · rw [step_quote hq]
      exact ⟨t, [], rfl, h, hq, List.not_mem_nil⟩
    by_cases ho : isOpening c = true
    · rw [step_opening ho]
      exact .opening h ho
    by_cases hc : isClosing c = true
    · rw [step_closing hc]
      exact .closing h hc
    · have hg : isGrouping c = false := by simp [isGrouping, hq, ho, hc]
      rw [step_other hg]
      exact .other h hg
  | some q =>
    obtain ⟨u, run, rfl, hu, hq, hr⟩ := h
    rw [List.append_assoc, List.cons_append, step_in_run]
    split
    next hc =>
      subst hc
      exact .quoted hu hq hr
    next hc => exact ⟨u, run ++ [c], rfl, hu, hq, by simp [hr, Ne.symm hc]⟩

theorem describes_behind (t : Text) : (start.behind t).Describes t := by
  induction t using List.reverseRecOn with
  | nil => exact LeavesOpen.nil
  | append_singleton t c ih =>
    rw [behind_append]
    exact ih.step c

theorem leavesOpen_iff : LeavesOpen depth t ↔ start.behind t = ⟨none, depth⟩ := by
  constructor
  · intro h
    induction h with
    | nil => rfl
    | quoted _ hq hr ih =>
      rw [behind_append, ih]
      exact (congrArg (Position.behind · _) (step_quote hq _)).trans (behind_run hr _)
    | opening _ hc ih =>
      rw [behind_append, ih]
      exact step_opening hc _
    | closing _ hc ih =>
      rw [behind_append, ih]
      exact step_closing hc _
    | other _ hc ih =>
      rw [behind_append, ih]
      exact step_other hc _
  · intro h
    have hd := describes_behind t
    rwa [h] at hd

instance : Decidable (LeavesOpen depth t) :=
  decidable_of_iff (start.behind t = ⟨none, depth⟩) leavesOpen_iff.symm

/-! ### Cuts -/

/-- The indices at which a text can be cut: a separator stands there outside quoted runs and
brackets. Quotes and brackets are never separators. -/
def available (separator : Char) (t : Text) : List Nat :=
  (List.range t.length).filter fun i =>
    t[i]? = some separator ∧ isGrouping separator = false ∧ LeavesOpen 0 (t.take i)

/-- The indices of the separators between the parts, in the text that is made of the parts. -/
def cuts : List Text → List Nat
  | [] => []
  | [_] => []
  | part :: next :: parts => part.length :: (cuts (next :: parts)).map (part.length + 1 + ·)

theorem cuts_cons (part : Text) (h : parts ≠ []) :
    cuts (part :: parts) = part.length :: (cuts parts).map (part.length + 1 + ·) := by
  obtain ⟨next, parts, rfl⟩ := List.exists_cons_of_ne_nil h
  rfl

theorem cuts_modifyHead (c : Char) (parts : List Text) :
    cuts (parts.modifyHead (c :: ·)) = (cuts parts).map (· + 1) := by
  cases parts with
  | nil => rfl
  | cons part parts =>
    cases parts with
    | nil => rfl
    | cons next parts =>
      simp [cuts, Function.comp_def, Nat.add_right_comm]

theorem length_cuts (h : parts ≠ []) : (cuts parts).length + 1 = parts.length := by
  induction parts with
  | nil => contradiction
  | cons part parts ih =>
    cases parts with
    | nil => rfl
    | cons next parts => simpa [cuts] using ih (List.cons_ne_nil next parts)

def availableFrom (separator : Char) (p : Position) (t : Text) : List Nat :=
  (List.range t.length).filter fun i => t[i]?.any (cutsAt [separator] (p.behind (t.take i)))

theorem available_eq (separator : Char) (t : Text) :
    available separator t = availableFrom separator start t := by
  refine List.filter_congr fun i hi => ?_
  rw [List.getElem?_eq_getElem (List.mem_range.mp hi), Option.any_some, Bool.eq_iff_iff,
    cutsAt_iff, decide_eq_true_iff, Option.some_inj, leavesOpen_iff]
  rfl

theorem availableFrom_cons (separator : Char) (p : Position) (c : Char) (t : Text) :
    availableFrom separator p (c :: t) =
      (if cutsAt [separator] p c then [0] else []) ++
        (availableFrom separator (p.step c) t).map (· + 1) := by
  have hs : (fun i => (c :: t)[i]?.any (cutsAt [separator] (p.behind ((c :: t).take i)))) ∘
      Nat.succ = fun i => t[i]?.any (cutsAt [separator] ((p.step c).behind (t.take i))) := rfl
  have hz : (c :: t)[0]?.any (cutsAt [separator] (p.behind ((c :: t).take 0))) =
      cutsAt [separator] p c := rfl
  rw [availableFrom, List.length_cons, List.range_succ_eq_map, List.filter_cons, List.filter_map,
    hs, hz]
  by_cases hc : cutsAt [separator] p c = true
  · rw [if_pos hc, if_pos hc]
    rfl
  · rw [if_neg hc, if_neg hc]
    rfl

theorem cuts_splitFrom (separator : Char) (p : Position) (limit : Option Nat) (t : Text) :
    cuts (splitFrom [separator] p limit t) =
      limit.elim (availableFrom separator p t) fun n => (availableFrom separator p t).take n := by
  induction t generalizing p limit with
  | nil => cases limit <;> simp [splitFrom, cuts, availableFrom]
  | cons c t ih =>
    by_cases hz : limit = some 0
    · -- no cut is left, so the rest of the text is one part
      subst hz
      rw [splitFrom_zero]
      rfl
    rw [splitFrom, availableFrom_cons]
    by_cases hc : cutsAt [separator] p c = true
    · -- the scan goes on behind the cut as if the separator had not been there
      obtain ⟨rfl, hg, rfl⟩ := cutsAt_iff.mp hc
      have hs : start.step c = start := step_other hg 0
      rw [if_pos (by simp [hc, hz]), cuts_cons _ (splitFrom_ne_nil _ _ _ _), ih, hs, if_pos hc]
      cases limit with
      | none => simp [Nat.add_comm]
      | some n =>
        obtain ⟨n, rfl⟩ := Nat.exists_eq_succ_of_ne_zero fun h => hz (congrArg some h)
        simp [Nat.add_comm, List.map_take]
    · rw [if_neg (by simp [hc]), cuts_modifyHead, ih, if_neg hc]
      cases limit <;> simp [List.map_take]

theorem cuts_split (separator : Char) (n : Int) (t : Text) :
    cuts (split [separator] (limitOf n) t) =
      if n < 0 then available separator t else (available separator t).take n.toNat := by
  rw [available_eq, split, cuts_splitFrom, limitOf]
  split <;> rfl

theorem length_split_le (separator : Char) {n : Int} (hn : 0 ≤ n) (t : Text) :
    ((split [separator] (limitOf n) t).length : Int) ≤ n + 1 := by
  have hl := length_cuts (splitFrom_ne_nil [separator] start (limitOf n) t)
  have hc := congrArg List.length (cuts_split separator n t)
  rw [if_neg (Int.not_lt.mpr hn), List.length_take] at hc
  rw [split] at hc ⊢
  omega

theorem of_mem_cuts {n : Int} {i : Nat} (h : i ∈ cuts (split [separator] (limitOf n) t)) :
    t[i]? = some separator ∧ LeavesOpen 0 (t.take i) := by
  have hm : i ∈ available separator t := by
    rw [cuts_split] at h
    split at h
    next => exact h
    next => exact List.mem_of_mem_take h
  have ha := of_decide_eq_true (List.mem_filter.mp hm).2
  exact ⟨ha.1, ha.2.2⟩

/-- A split loses nothing: it cuts at the first places outside quoted runs and brackets where a
separator stands, at most as many times as it is told to. A list that is written with commas between
its parts is read again as it was. -/
theorem split_loses_nothing (t : Text) (separator : Char) (n : Int) :
    [separator].intercalate (split [separator] (limitOf n) t) = t ∧
      (0 ≤ n → ((split [separator] (limitOf n) t).length : Int) ≤ n + 1) ∧
      cuts (split [separator] (limitOf n) t) =
        (if n < 0 then available separator t else (available separator t).take n.toNat) ∧
      (∀ i ∈ cuts (split [separator] (limitOf n) t), t[i]? = some separator ∧
        (start.behind (t.take i)).quote = none ∧ (start.behind (t.take i)).depth = 0) ∧
      commaList ([','].intercalate (commaList t)) = commaList t := by
  refine ⟨intercalate_splitFrom [separator] start (limitOf n) t, fun hn => ?_, ?_, ?_, ?_⟩
  · exact length_split_le separator hn t
  · exact cuts_split separator n t
  · intro i hi
    obtain ⟨hs, ho⟩ := of_mem_cuts hi
    rw [leavesOpen_iff.mp ho]
    exact ⟨hs, rfl, rfl⟩
  · exact commaList_intercalate_commaList t

/-- Quoted and bracketed commas, closing brackets that nothing opened, and an open quote. -/
theorem split_loses_nothing_around_groups :
    let t : Text := "\"a,b\" ,(c,[d),], e,,]f , 'g,)"
    let parts : List Text := ["\"a,b\"", "(c,[d),]", "e", "]f", "'g,)"]
    (0 : Int) ≤ 2 ∧ ((split [','] (limitOf 2) t).length : Int) ≤ 2 + 1 ∧
      6 ∈ cuts (split [','] (limitOf 2) t) ∧ t[6]? = some ',' ∧
      (start.behind (t.take 6)).quote = none ∧ (start.behind (t.take 6)).depth = 0 ∧
      commaList t = parts ∧ commaList ([','].intercalate parts) = parts := by
  intro t parts
  obtain ⟨-, hlength, -, hcuts, hlist⟩ := split_loses_nothing t ',' 2
  have hm : 6 ∈ cuts (split [','] (limitOf 2) t) := by decide +kernel
  have hp : commaList t = parts := by decide +kernel
  obtain ⟨hs, hq, hd⟩ := hcuts 6 hm
  rw [hp] at hlist
  exact ⟨by decide, hlength (by decide), hm, hs, hq, hd, hp, hlist⟩

end CustomProperties.Split

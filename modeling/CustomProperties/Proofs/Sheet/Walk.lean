import CustomProperties.Sheet.Walk
import Mathlib.Data.List.Basic

/-! # What a walk does

If a visit changes a body by a function and adds to a log, then a walk maps the function over all
bodies and adds what the visits of the owners add, in document order.
-/

namespace CustomProperties

/-- A pass with a state maps its elements and folds the state, if neither depends on the other. -/
theorem mapM_eq_map {α β σ : Type} {step : α → StateM σ β} {f : α → β} {next : σ → α → σ}
    (h : ∀ a s, step a s = (f a, next s a)) (as : List α) (s : σ) :
    as.mapM step s = (as.map f, as.foldl next s) := by
  induction as generalizing s with
  | nil => rw [List.mapM_nil]; rfl
  | cons a as ih =>
    rw [List.mapM_cons]
    change ((step a s).1 :: (as.mapM step (step a s).2).1, (as.mapM step (step a s).2).2) = _
    rw [ih, h]
    rfl

variable {α : Type} {visit : Body → StateM (List α) Body} {f : Body → Body} {g : Body → List α}

theorem Stage.walk_eq (h : ∀ body log, visit body log = (f body, log ++ g body)) (st : Stage)
    (log : List α) :
    st.walk visit log = (st.mapBody f, log ++ st.owner?.toList.flatMap fun o => g o.body) := by
  cases st with
  | keyframe selectors body =>
    change (Stage.keyframe selectors (visit body log).1, (visit body log).2) = _
    simp [h, mapBody, owner?, Rule.body]
  | comment text =>
    change (Stage.comment text, log) = _
    simp [mapBody, owner?]

namespace Rule

mutual

theorem walk_eq (h : ∀ body log, visit body log = (f body, log ++ g body)) (r : Rule)
    (log : List α) :
    r.walk visit log = (r.mapBodies f, log ++ r.owners.flatMap fun o => g o.body) := by
  cases r with
  | container keyword condition rules =>
    rw [walk, mapBodies, owners]
    change (container keyword condition (walkAll visit rules log).1, (walkAll visit rules log).2) = _
    rw [walkAll_eq h rules log]
  | keyframes name vendor stages =>
    rw [walk, mapBodies, owners]
    change (keyframes name vendor (stages.mapM (Stage.walk visit) log).1,
      (stages.mapM (Stage.walk visit) log).2) = _
    rw [mapM_eq_map (Stage.walk_eq h), List.foldl_append_eq_append, ← List.flatMap_def,
      ← List.flatMap_assoc, ← List.filterMap_eq_flatMap_toList]
  | style selectors body =>
    change (style selectors (visit body log).1, (visit body log).2) = _
    simp [h, mapBodies, owners, Rule.body]
  | fontFace body =>
    change (fontFace (visit body log).1, (visit body log).2) = _
    simp [h, mapBodies, owners, Rule.body]
  | _ => simp [walk, mapBodies, owners]; rfl

theorem walkAll_eq (h : ∀ body log, visit body log = (f body, log ++ g body)) (rs : List Rule)
    (log : List α) :
    walkAll visit rs log = (mapBodiesOf f rs, log ++ (ownersOf rs).flatMap fun o => g o.body) := by
  cases rs with
  | nil =>
    rw [walkAll, mapBodiesOf, ownersOf, List.flatMap_nil, List.append_nil]
    rfl
  | cons r rs =>
    rw [walkAll, mapBodiesOf, ownersOf]
    change ((r.walk visit log).1 :: (walkAll visit rs (r.walk visit log).2).1,
      (walkAll visit rs (r.walk visit log).2).2) = _
    rw [walk_eq h r, walkAll_eq h rs, List.flatMap_append, List.append_assoc]

end

end Rule

theorem Sheet.walk_eq (h : ∀ body log, visit body log = (f body, log ++ g body)) (s : Sheet)
    (log : List α) :
    s.walk visit log = (s.mapBodies f, log ++ s.owners.flatMap fun o => g o.body) := by
  rw [walk, Rule.walkAll_eq h, Rule.mapBodiesOf_eq, Rule.ownersOf_eq]
  rfl

end CustomProperties

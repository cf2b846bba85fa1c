import CustomProperties.Proofs.Calc.Name
import CustomProperties.Proofs.Syntax.ContainedLexemes

/-! # Flattened values are contained

A calc name is a name in front of a parenthesis, and nothing joins it from the left. So a reader of
single characters is in the same place behind the parenthesis, whether the name is there or not.
-/

namespace CustomProperties.Calc

open Syntax

variable {previous : Option Char} {t rest name x : Text} {c : Char} {depth : Nat}

theorem isNameChar_of_toLower (h : isNameChar c.toLower = true) : isNameChar c = true := by
  rcases toLower_cases c with ⟨hu, -⟩ | he
  · simp [isNameChar, isNameStart, Text.isAlpha_of_isUpper hu]
  · rwa [he] at h

theorem isNameChar_of_isVendorLetter (h : isVendorLetter c = true) : isNameChar c = true := by
  simp only [isVendorLetter, Bool.or_eq_true, beq_iff_eq] at h
  rcases h with (((h | rfl) | rfl) | rfl) | rfl
  · simp [isNameChar, isNameStart, h]
  all_goals decide

theorem isNameChar_of_calc (h : Text.lowerAscii name = "calc") : ∀ c ∈ name, isNameChar c = true := by
  intro c hc
  have hall : ∀ d ∈ ("calc" : Text), isNameChar d = true := by decide
  exact isNameChar_of_toLower (hall _ (toLower_mem_of_calc h hc))

theorem IsName.nameChars (h : IsName x) : ∀ c ∈ x, isNameChar c = true := by
  obtain ⟨vendor, name, rfl, hv, hn⟩ := h
  refine List.forall_mem_append.mpr ⟨?_, isNameChar_of_calc hn⟩
  cases hv with
  | none => exact List.forall_mem_nil _
  | @named letters _ hl =>
    have hh : isNameChar '-' = true := rfl
    refine List.forall_mem_cons.mpr ⟨hh, List.forall_mem_append.mpr ⟨?_, ?_⟩⟩
    · exact fun c hc => isNameChar_of_isVendorLetter (hl c hc)
    · exact List.forall_mem_singleton.mpr hh

/-! ### Readers -/

variable {marks : Bool} {s s' r : Reader} {y : Text}

theorem IsName.not_endsInUrl (h : IsName x) (y : Text) : Reader.endsInUrl (x.reverse ++ y) = false := by
  obtain ⟨vendor, name, rfl, -, hn⟩ := h
  have hr : Text.lowerAscii name.reverse = "clac" := by
    have hm : Text.lowerAscii name.reverse = (Text.lowerAscii name).reverse := List.map_reverse
    rw [hm, hn]
    rfl
  have ha : Text.lowerAscii ((vendor ++ name).reverse ++ y) =
      Text.lowerAscii name.reverse ++ Text.lowerAscii (vendor.reverse ++ y) := by
    rw [List.reverse_append, List.append_assoc]
    exact List.map_append
  rw [Reader.endsInUrl, ha, hr]
  rfl

theorem not_endsInUrl_of_startsAfter (h : startsAfter previous = true)
    (hy : ∀ d w, y = d :: w → previous = some d) : Reader.endsInUrl y = false := by
  cases y with
  | nil => rfl
  | cons d w =>
    rw [hy d w rfl, startsAfter, Bool.not_eq_true', Bool.or_eq_false_iff] at h
    refine eq_false_of_ne_true fun hu => ?_
    have hl : d.toLower = 'l' := by
      have hp : ('l' == d.toLower) = true := by
        rw [Reader.endsInUrl] at hu
        exact (Bool.and_eq_true_iff.mp hu).1
      exact (beq_iff_eq.mp hp).symm
    have hw : Text.isWord d = true := by
      rcases toLower_cases d with ⟨hu, hd⟩ | he
      · simp [Text.isWord, hd, Char.isAlphanum, Text.isAlpha_of_isUpper hu]
      · rw [← he, hl]
        decide
    rw [hw] at h
    exact absurd h.1 (by decide)

/-- The reader stands behind a character, or in front of a whole text. -/
structure Follows (previous : Option Char) (s : Reader) : Prop where
  named : s.mode = .plain → ∀ d w, s.behind = .word (d :: w) → previous = some d
  quoted : ∀ quote, s.mode = .string quote ∨ s.mode = .escape quote → Lexeme.isQuote quote = true
  marked : ∀ rest, s.mode = .mark rest → '(' ∉ rest

theorem follows_cleared (previous : Option Char) (bs : List Bracket) :
    Follows previous ⟨bs, .plain, .word []⟩ := ⟨nofun, nofun, nofun⟩

theorem Follows.next {b : Behind} (hb : s.behind.next? c = some b) (hm : s.mode = .plain) :
    Follows (some c) { s with behind := b } := by
  refine ⟨fun _ d w hw => ?_, by simp [hm], by simp [hm]⟩
  obtain rfl : b = .word (d :: w) := hw
  unfold Behind.next? at hb
  split at hb
  next => cases hd : s.behind <;> rw [hd] at hb <;> cases hb <;> rfl
  next =>
    split at hb
    next => cases hb
    next => split at hb <;> cases hb

theorem follows_of_opening? {b : Bracket} (h : s.opening? b = some r) : Follows (some c) r := by
  have hplain (bs : List Bracket) : Follows (some c) ⟨bs, .plain, .word []⟩ := follows_cleared _ bs
  unfold Reader.opening? at h
  split at h
  next => cases h
  next =>
    cases h
    split
    · exact ⟨nofun, nofun, nofun⟩
    · exact hplain _
  next =>
    split at h
    next => cases h
    next =>
      cases h
      exact hplain _
  next =>
    cases h
    exact hplain _

theorem follows_of_closing? {b : Bracket} (h : s.closing? b = some r) : Follows (some c) r := by
  unfold Reader.closing? at h
  split at h
  next => cases h
  next =>
    split at h
    next =>
      cases h
      exact follows_cleared _ _
    next => cases h

theorem follows_of_plainStep (hm : s.mode = .plain) (h : s.PlainStep marks c r) :
    Follows (some c) r := by
  cases h with
  | quote hq => exact ⟨nofun, fun q hq' => by simp_all, nofun⟩
  | opening ho => exact follows_of_opening? ho
  | closing hc => exact follows_of_closing? hc
  | mark =>
    have hround : '(' ∉ ("important" : Text) := by decide
    exact ⟨nofun, nofun, fun rest hr => by cases hr; exact hround⟩
  | comment => exact ⟨nofun, nofun, nofun⟩
  | ordinary _ hn => exact .next hn hm

theorem Follows.step (h : Follows previous s) (hs : s.step? marks c = some r) :
    Follows (some c) r := by
  cases hm : s.mode with
  | plain => exact follows_of_plainStep hm (Reader.plainStep_of_step? hm hs)
  | address first =>
    rcases Reader.step_of_address hm hs with ⟨-, hc⟩ | ⟨-, ⟨-, hq, rfl⟩ | ⟨-, rfl⟩⟩
    · exact follows_of_closing? hc
    · exact ⟨nofun, fun q hq' => by simp_all, nofun⟩
    · exact ⟨nofun, nofun, nofun⟩
  | string quote =>
    have hq := h.quoted quote (.inl hm)
    rcases Reader.step_of_string hm hs with ⟨-, rfl⟩ | ⟨-, ⟨-, rfl⟩ | ⟨-, -, rfl⟩⟩
    · exact follows_cleared _ _
    · exact ⟨nofun, fun q hq' => by simp_all, nofun⟩
    · exact ⟨by simp [hm], h.quoted, h.marked⟩
  | escape quote =>
    have hq := h.quoted quote (.inr hm)
    obtain rfl := Reader.step_of_escape hm hs
    exact ⟨nofun, fun q hq' => by simp_all, nofun⟩
  | comment star =>
    rcases Reader.step_of_comment hm hs with ⟨-, -, rfl⟩ | ⟨-, rfl⟩
    · exact follows_cleared _ _
    · exact ⟨nofun, nofun, nofun⟩
  | mark rest =>
    obtain ⟨-, rfl⟩ := Reader.step_of_mark hm hs
    have hr := h.marked rest hm
    exact ⟨nofun, nofun, fun rest' he => by cases he; exact fun hm => hr (List.mem_of_mem_tail hm)⟩

theorem step?_round (hm : s.mode = .plain) : s.step? marks '(' = s.opening? .round := by
  rw [Reader.step?_of_plain hm (by decide)]
  rfl

theorem opening?_round (hb : s.behind = .word y) (hu : Reader.endsInUrl y = false) :
    s.opening? .round = some ⟨.round :: s.brackets, .plain, .word []⟩ := by
  unfold Reader.opening?
  rw [hb]
  dsimp only
  rw [hu]
  rfl

theorem exists_of_nameChars (hm : s.mode = .plain) (hx : ∀ c ∈ x, isNameChar c = true) (hne : x ≠ [])
    (hr : s.run? marks x = some s') :
    ∃ y, s' = { s with behind := .word (x.reverse ++ y) } ∧
      (s.behind = .word y ∨ y = [] ∧ (s.behind = .slash ∨ s.behind = .start)) := by
  obtain ⟨c, x, rfl⟩ := List.exists_cons_of_ne_nil hne
  obtain ⟨hc, hx⟩ := List.forall_mem_cons.mp hx
  obtain ⟨s₁, hs, hrun⟩ := Reader.exists_of_run?_cons hr
  rw [Reader.step?_of_not_special hm (Reader.not_special_of_isJoining (isJoining_of_isNameChar hc))] at hs
  have hword {y : Text} (h : s₁ = { s with behind := .word (c :: y) }) :
      s' = { s with behind := .word ((c :: x).reverse ++ y) } := by
    subst h
    rw [Reader.run?_of_isNameChar (s := { s with behind := .word (c :: y) }) hm rfl hx] at hrun
    simpa [eq_comm] using hrun
  unfold Behind.next? at hs
  rw [if_pos hc] at hs
  cases hb : s.behind with
  | word y =>
    rw [hb] at hs
    exact ⟨y, hword (Option.some.inj hs).symm, .inl rfl⟩
  | slash =>
    rw [hb] at hs
    exact ⟨[], hword (Option.some.inj hs).symm, .inr ⟨rfl, .inl rfl⟩⟩
  | start =>
    rw [hb] at hs
    exact ⟨[], hword (Option.some.inj hs).symm, .inr ⟨rfl, .inr rfl⟩⟩
  | unknown e =>
    rw [hb] at hs
    contradiction

theorem eq_of_string {quote : Char} (hq : Lexeme.isQuote quote = true) (hm : s.mode = .string quote)
    (hx : ∀ c ∈ x, isNameChar c = true) (hr : s.run? marks x = some s') : s' = s := by
  induction x with
  | nil => exact (Option.some.inj hr).symm
  | cons c x ih =>
    obtain ⟨hc, hx⟩ := List.forall_mem_cons.mp hx
    obtain ⟨s₁, hs, hrun⟩ := Reader.exists_of_run?_cons hr
    rcases Reader.step_of_string hm hs with ⟨rfl, -⟩ | ⟨-, ⟨rfl, -⟩ | ⟨-, -, rfl⟩⟩
    · rcases Lexeme.isQuote_cases hq with rfl | rfl <;> contradiction
    · contradiction
    · exact ih hx hrun

theorem eq_of_comment {star : Bool} (hm : s.mode = .comment star) (hx : ∀ c ∈ x, isNameChar c = true)
    (hr : s.run? marks x = some s') : ∃ star, s' = { s with mode := .comment star } := by
  induction x generalizing s star with
  | nil =>
    obtain rfl := Option.some.inj hr
    exact ⟨star, by rw [← hm]⟩
  | cons c x ih =>
    obtain ⟨hc, hx⟩ := List.forall_mem_cons.mp hx
    obtain ⟨s₁, hs, hrun⟩ := Reader.exists_of_run?_cons hr
    rcases Reader.step_of_comment hm hs with ⟨-, rfl, -⟩ | ⟨-, rfl⟩
    · contradiction
    · exact ih (s := { s with mode := .comment _ }) rfl hx hrun

theorem mode_of_address {first : Bool} (hm : s.mode = .address first)
    (hx : ∀ c ∈ x, isNameChar c = true) (hr : s.run? marks x = some s') :
    ∃ first, s'.mode = .address first := by
  induction x generalizing s first with
  | nil =>
    obtain rfl := Option.some.inj hr
    exact ⟨first, hm⟩
  | cons c x ih =>
    obtain ⟨hc, hx⟩ := List.forall_mem_cons.mp hx
    obtain ⟨s₁, hs, hrun⟩ := Reader.exists_of_run?_cons hr
    rcases Reader.step_of_address hm hs with ⟨rfl, -⟩ | ⟨-, ⟨-, hq, -⟩ | ⟨-, rfl⟩⟩
    · contradiction
    · rcases Lexeme.isQuote_cases hq with rfl | rfl <;> contradiction
    · exact ih (s := { s with mode := .address false }) rfl hx hrun

theorem Follows.run (h : Follows previous s) (hr : s.run? marks x = some s') :
    ∃ previous, Follows previous s' := by
  induction x generalizing s previous with
  | nil =>
    obtain rfl := Option.some.inj hr
    exact ⟨previous, h⟩
  | cons c x ih =>
    obtain ⟨s₁, hs, hrun⟩ := Reader.exists_of_run?_cons hr
    exact ih (h.step hs) hrun

theorem not_step?_of_marking {rest : Text} (hm : s.mode = .mark rest) (hr : '(' ∉ rest) :
    s.step? marks '(' = none := by
  rw [Reader.step?, if_neg (by decide), hm]
  dsimp only
  rw [if_neg fun h => hr (List.mem_of_mem_head? (Option.mem_def.mpr h))]

/-- A calc name makes no difference in front of its parenthesis. -/
theorem step?_of_name (h : Follows previous s) (hp : startsAfter previous = true) (hx : IsName x)
    (hr : s.run? marks x = some s') (hs : s'.step? marks '(' = some r) :
    s.step? marks '(' = some r := by
  cases hm : s.mode with
  | plain =>
    obtain ⟨y, rfl, hy⟩ := exists_of_nameChars hm hx.nameChars hx.ne_nil hr
    rw [step?_round (s := { s with behind := .word (x.reverse ++ y) }) hm,
      opening?_round rfl (hx.not_endsInUrl y)] at hs
    rw [step?_round hm, ← hs]
    rcases hy with hy | ⟨-, hy | hy⟩
    · exact opening?_round hy (not_endsInUrl_of_startsAfter hp fun d w hd => h.named hm d w (hd ▸ hy))
    · unfold Reader.opening?
      rw [hy]
    · unfold Reader.opening?
      rw [hy]
  | address first =>
    obtain ⟨first', hm'⟩ := mode_of_address hm hx.nameChars hr
    rcases Reader.step_of_address hm' hs with ⟨hc, -⟩ | ⟨-, ⟨-, hq, -⟩ | ⟨ha, -⟩⟩ <;> contradiction
  | string quote =>
    obtain rfl := eq_of_string (h.quoted quote (.inl hm)) hm hx.nameChars hr
    exact hs
  | escape quote =>
    obtain ⟨c, x, rfl⟩ := List.exists_cons_of_ne_nil hx.ne_nil
    obtain ⟨s₁, hs₁, hrun⟩ := Reader.exists_of_run?_cons hr
    obtain rfl := Reader.step_of_escape hm hs₁
    have hq := h.quoted quote (.inr hm)
    obtain rfl := eq_of_string (s := { s with mode := .string quote }) hq rfl
      (List.forall_mem_cons.mp hx.nameChars).2 hrun
    have hround : ¬('(' = quote) := by rcases Lexeme.isQuote_cases hq with rfl | rfl <;> decide
    rw [Reader.step?, if_neg (by decide)] at hs ⊢
    dsimp only at hs
    rw [if_neg hround, if_neg (by decide), if_neg (by decide)] at hs
    rw [hm]
    exact hs
  | comment star =>
    obtain ⟨star', rfl⟩ := eq_of_comment hm hx.nameChars hr
    rw [Reader.step?, if_neg (by decide)] at hs ⊢
    dsimp only at hs
    rw [if_neg fun h => absurd h.2 (by decide)] at hs
    rw [hm]
    dsimp only
    rw [if_neg fun h => absurd h.2 (by decide)]
    exact hs
  | mark rest =>
    obtain ⟨rest', hm'⟩ := Reader.IsMarking.run ⟨rest, hm⟩ hr
    obtain ⟨_, h'⟩ := h.run hr
    rw [not_step?_of_marking hm' (h'.marked rest' hm')] at hs
    contradiction

theorem run?_flattenFrom (h : Follows previous s) (hr : s.run? marks t = some s') :
    s.run? marks (flattenFrom previous depth t) = some s' := by
  fun_induction flattenFrom previous depth t generalizing s with
  | case1 previous depth t rest ht ih =>
    obtain ⟨hp, x, hx, rfl⟩ := token?_eq_some_iff.mp ht
    obtain ⟨s₁, hr₁, hr₂⟩ := Reader.exists_of_run?_append hr
    obtain ⟨r, hs, hrun⟩ := Reader.exists_of_run?_cons hr₂
    obtain ⟨_, h₁⟩ := h.run hr₁
    have hrest := ih (h₁.step hs) hrun
    split
    · rw [take_name, List.append_assoc, Reader.run?_append_of_eq_some hr₁, List.singleton_append,
        Reader.run?_cons, hs]
      exact hrest
    · rw [List.singleton_append, Reader.run?_cons, step?_of_name h hp hx hr₁ hs]
      exact hrest
  | case2 => exact hr
  | case3 previous depth c t =>
    rename_i ih
    obtain ⟨r, hs, hrun⟩ := Reader.exists_of_run?_cons hr
    rw [Reader.run?_cons, hs]
    exact ih (h.step hs) hrun

/-- A text is read as before when nested calc in it is flattened. -/
theorem run?_flatten (h : Reader.initial.run? marks t = some s') :
    Reader.initial.run? marks (flatten t) = some s' :=
  run?_flattenFrom (follows_cleared none []) h

end CustomProperties.Calc

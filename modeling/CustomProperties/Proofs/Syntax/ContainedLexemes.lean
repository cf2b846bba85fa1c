import CustomProperties.Proofs.Syntax.Contained
import CustomProperties.Proofs.Syntax.Extent
import CustomProperties.Proofs.Syntax.Lookahead
import CustomProperties.Proofs.Syntax.Parses
import CustomProperties.Proofs.Syntax.Value

/-! # The lexemes of contained texts

Where a reader of single characters rests in front of a lexeme, it rests behind it again. Strings,
comments and addresses end where the reader leaves them, and no lexeme goes on into the text that
follows.
-/

namespace CustomProperties.Syntax

open Lexeme (isQuote)

/-- Nothing of a contained text is continued here. -/
structure Shuts (w : Text) : Prop where
  head : ∀ c ∈ w.head?, isJoining c = false ∧ isSpace c = false ∧ c ∉ ['\\', '(', '*']
  mark : w.head? = some '!' → w.tail.head? ≠ some '-'

theorem exists_of_append_eq {p : Char → Bool} {t w x u : Text} (h : t ++ w = x ++ u)
    (hx : ∀ c ∈ x, p c = true) (hw : ∀ c ∈ w.head?, p c = false) :
    ∃ v, t = x ++ v ∧ u = v ++ w := by
  induction x generalizing t with
  | nil => exact ⟨t, rfl, h.symm⟩
  | cons c x ih =>
    rw [List.forall_mem_cons] at hx
    cases t with
    | nil =>
      rw [List.nil_append] at h
      have hc := hw c (by rw [h]; rfl)
      rw [hx.1] at hc
      contradiction
    | cons d t =>
      obtain ⟨rfl, he⟩ := List.cons_eq_cons.mp h
      obtain ⟨v, rfl, rfl⟩ := ih he hx.2
      exact ⟨v, rfl, rfl⟩

namespace Behind

def IsKnown : Behind → Prop
  | word _ => True
  | slash => True
  | _ => False

def name : Behind → Text
  | word w => w
  | _ => []

variable {b b' : Behind} {c : Char}

theorem isKnown_of_next? (h : b.next? c = some b') : b'.IsKnown ∧ (b' = .slash → c = '/') := by
  unfold next? at h
  split at h
  next =>
    cases b <;> cases h <;> exact ⟨trivial, nofun⟩
  next =>
    split at h
    next hc =>
      cases h
      exact ⟨trivial, fun _ => hc⟩
    next =>
      split at h
      next => contradiction
      next =>
        cases h
        exact ⟨trivial, nofun⟩

theorem next?_of_isNameChar (hb : b.IsKnown) (hc : isNameChar c = true) :
    b.next? c = some (.word (c :: b.name)) := by
  unfold next?
  rw [if_pos hc]
  cases b <;> first | contradiction | rfl

theorem next?_of_isKnown (hb : b.IsKnown) (hc : isNameChar c = false) (hs : c ≠ '/') :
    b.next? c = some (.word []) := by
  unfold next?
  rw [if_neg (by simp [hc]), if_neg hs, if_neg]
  cases b <;> first | contradiction | simp

end Behind

namespace Reader

variable {marks : Bool} {s s' r : Reader} {c : Char} {t u w x : Text} {bs : List Bracket}

/-! ### Steps in front of a lexeme -/

theorem PlainStep.unique (h : PlainStep marks s c s') (h' : PlainStep marks s c r) : s' = r :=
  Option.some.inj (h.eq.symm.trans h'.eq)

theorem PlainStep.cases_of_none (h : PlainStep marks s c s') (hq : isQuote c = false)
    (ho : Bracket.ofOpening? c = none) (hc : Bracket.ofClosing? c = none)
    (hs : ¬(c = '*' ∧ s.behind = .slash)) :
    c = '!' ∧ s' = { s with mode := .mark "important" } ∨
      Ordinary marks s c ∧ ∃ b, s.behind.next? c = some b ∧ s' = { s with behind := b } := by
  cases h with
  | quote h =>
    rw [hq] at h
    contradiction
  | @opening b => cases b <;> contradiction
  | @closing b => cases b <;> contradiction
  | mark => exact .inl ⟨rfl, rfl⟩
  | comment hb => exact absurd ⟨rfl, hb⟩ hs
  | ordinary h hn => exact .inr ⟨h, _, hn, rfl⟩

def specials : Text := "\"'([\x7b)]\x7d\\;!*/\r\x0C\x00"

theorem Ordinary.of_not_special (hc : c ∉ specials) : Ordinary marks s c := by
  have hne {d : Char} (hd : d ∈ specials) : c ≠ d := fun h => hc (h ▸ hd)
  have ho : Bracket.ofOpening? c = none := List.find?_eq_none.mpr fun b _ => by
    have hb : b.opening ∈ specials := by cases b <;> decide
    simpa using (hne hb).symm
  have hcl : Bracket.ofClosing? c = none := List.find?_eq_none.mpr fun b _ => by
    have hb : b.closing ∈ specials := by cases b <;> decide
    simpa using (hne hb).symm
  exact {
    backslash := hne (by decide)
    quote := by simp [isQuote, hne (d := '"') (by decide), hne (d := '\'') (by decide)]
    opening := ho
    closing := hcl
    semicolon := fun h => hne (d := ';') (by decide) h.2
    bang := fun h => hne (d := '!') (by decide) h.2.2
    star := fun h => hne (d := '*') (by decide) h.1 }

theorem step?_of_not_special (hm : s.mode = .plain) (hc : c ∉ specials) :
    s.step? marks c = (s.behind.next? c).map fun b => { s with behind := b } := by
  have hbreak : ¬(c = '\r' ∨ c = '\x0C' ∨ c = '\x00') := by
    rintro (rfl | rfl | rfl) <;> exact hc (by decide)
  have ho : Ordinary marks s c := .of_not_special hc
  rw [step?_of_plain hm hbreak, ho.plainStep?_eq]

theorem not_special_of_isJoining (h : isJoining c = true) : c ∉ specials := by
  have hall : ∀ d ∈ specials, isJoining d = false := by decide
  intro hc
  rw [hall c hc] at h
  contradiction

theorem not_special_of_isSpace (h : isSpace c = true) : c ∉ specials := by
  have hall : ∀ d ∈ specials, isSpace d = false := by decide
  intro hc
  rw [hall c hc] at h
  contradiction

theorem exists_run?_of_not_special (marks : Bool) (hm : s.mode = .plain) (hk : s.behind.IsKnown)
    (hx : ∀ c ∈ x, c ∉ specials) :
    ∃ b, s.run? marks x = some { s with behind := b } ∧ b.IsKnown ∧
      (b = .slash → x = [] ∧ s.behind = .slash) := by
  induction x generalizing s with
  | nil => exact ⟨s.behind, rfl, hk, fun hb => ⟨rfl, hb⟩⟩
  | cons c x ih =>
    rw [List.forall_mem_cons] at hx
    have hs : c ≠ '/' := fun hc => hx.1 (by rw [hc]; decide)
    have hn : ∃ y, s.behind.next? c = some (.word y) := by
      cases hc : isNameChar c with
      | true => exact ⟨_, Behind.next?_of_isNameChar hk hc⟩
      | false => exact ⟨_, Behind.next?_of_isKnown hk hc hs⟩
    obtain ⟨y, hn⟩ := hn
    obtain ⟨b, hr, hb, hsl⟩ := ih (s := { s with behind := .word y }) hm trivial hx.2
    refine ⟨b, ?_, hb, fun h => absurd (hsl h).2 nofun⟩
    rw [run?_cons, step?_of_not_special hm hx.1, hn]
    exact hr

theorem run?_of_isNameChar {y : Text} (hm : s.mode = .plain) (hb : s.behind = .word y)
    (hx : ∀ c ∈ x, isNameChar c = true) :
    s.run? marks x = some { s with behind := .word (x.reverse ++ y) } := by
  induction x generalizing s y with
  | nil =>
    rw [run?_nil, List.reverse_nil, List.nil_append, ← hb]
  | cons c x ih =>
    rw [List.forall_mem_cons] at hx
    have hk : s.behind.IsKnown := by rw [hb]; trivial
    have hn : s.behind.next? c = some (.word (c :: y)) := by
      rw [Behind.next?_of_isNameChar hk hx.1, hb]
      rfl
    rw [run?_cons, step?_of_not_special hm (not_special_of_isJoining (isJoining_of_isNameChar hx.1)),
      hn]
    have hr := ih (s := { s with behind := .word (c :: y) }) hm rfl hx.2
    simpa using hr

/-- The reader stands in front of a lexeme. -/
structure Rests (s : Reader) (t : Text) : Prop where
  mode : s.mode = .plain
  known : s.behind.IsKnown
  apart : s.behind = .slash → t.head? ≠ some '*'

theorem not_escaped (hw : Shuts w) (hm : s.mode = .plain) (hk : s.behind.IsKnown)
    (hr : s.run? marks t = some s') : ¬Escaped (t ++ w) := by
  rintro ⟨x, y, he, hx⟩
  obtain ⟨v, rfl, hv⟩ := exists_of_append_eq he hx fun c hc => (hw.head c hc).1
  obtain ⟨b, hb, -⟩ := exists_run?_of_not_special marks hm hk
    fun c hc => not_special_of_isJoining (hx c hc)
  rw [run?_append_of_eq_some hb] at hr
  cases v with
  | nil => exact absurd (hw.head '\\' (by rw [← List.nil_append w, ← hv]; rfl)).2.2 (by decide)
  | cons d v =>
    obtain ⟨rfl, -⟩ := List.cons_eq_cons.mp hv
    obtain ⟨r, hs, -⟩ := exists_of_run?_cons hr
    have hp := (plainStep_of_step? (s := { s with behind := b }) hm hs).eq
    rw [plainStep?, if_pos rfl] at hp
    contradiction

/-- Behind what a token takes the reader rests in front of the next lexeme. -/
theorem exists_rest_of_takes (hw : Shuts w) (hm : s.mode = .plain) (hk : s.behind.IsKnown)
    (ha : s.behind = .slash → (t ++ w).head? ≠ some '*') (hr : s.run? marks t = some s')
    (ht : Lexeme.Takes (t ++ w) u) :
    ∃ v r, u = v ++ w ∧ v.length ≤ t.length ∧ r.brackets = s.brackets ∧ Rests r v ∧
      r.run? marks v = some s' := by
  have hjoin {x y : Text} (h : t ++ w = x ++ y) (hx : ∀ c ∈ x, isJoining c = true) :
      ∃ v, t = x ++ v ∧ y = v ++ w :=
    exists_of_append_eq h hx fun c hc => (hw.head c hc).1
  have hrest {x v : Text} (he : t = x ++ v) (hx : ∀ c ∈ x, c ∉ specials) :
      ∃ r, r.brackets = s.brackets ∧ Rests r v ∧ r.run? marks v = some s' := by
    obtain ⟨b, hb, hkb, hsl⟩ := exists_run?_of_not_special marks hm hk hx
    rw [he, run?_append_of_eq_some hb] at hr
    refine ⟨{ s with behind := b }, rfl, ⟨hm, hkb, fun hs => ?_⟩, hr⟩
    obtain ⟨rfl, hs⟩ := hsl hs
    intro hv
    refine ha hs ?_
    rw [he, List.nil_append]
    cases v with
    | nil => contradiction
    | cons d v => exact hv
  cases ht with
  | joins h =>
    obtain ⟨x, he, hx⟩ := h
    obtain ⟨v, rfl, rfl⟩ := hjoin he hx
    obtain ⟨r, hb, hrest, hrun⟩ := hrest rfl fun c hc => not_special_of_isJoining (hx c hc)
    exact ⟨v, r, rfl, by simp, hb, hrest, hrun⟩
  | @blanks x he hx =>
    obtain ⟨v, rfl, rfl⟩ := exists_of_append_eq he hx fun c hc => (hw.head c hc).2.1
    obtain ⟨r, hb, hrest, hrun⟩ := hrest rfl fun c hc => not_special_of_isSpace (hx c hc)
    exact ⟨v, r, rfl, by simp, hb, hrest, hrun⟩
  | openingMark he =>
    cases t with
    | nil =>
      rw [List.nil_append] at he
      exact absurd (by rw [he]; rfl) (hw.mark (by rw [he]; rfl))
    | cons d t =>
      obtain ⟨rfl, he'⟩ := List.cons_eq_cons.mp he
      have hdashes : ∀ c ∈ ['-', '-'], isJoining c = true := by decide
      obtain ⟨v, rfl, rfl⟩ := exists_of_append_eq (x := ['-', '-']) he' hdashes fun c hc => (hw.head c hc).1
      obtain ⟨r, hs, hrun⟩ := exists_of_run?_cons hr
      obtain ⟨-, rfl⟩ | ⟨-, b, hb, rfl⟩ :=
        (plainStep_of_step? hm hs).cases_of_none rfl rfl rfl (by simp)
      · -- a mark of importance starts differently
        contradiction
      · obtain ⟨hkb, hslash⟩ := Behind.isKnown_of_next? hb
        obtain ⟨b', hb', hkb', hsl⟩ := exists_run?_of_not_special marks
          (s := { s with behind := b }) hm hkb fun c hc => not_special_of_isJoining (hdashes c hc)
        rw [run?_append_of_eq_some hb'] at hrun
        exact ⟨v, { s with behind := b' }, rfl, by simp; omega, rfl,
          ⟨hm, hkb', fun h => absurd (hsl h).1 (by decide)⟩, hrun⟩
  | escaped h => exact absurd h (not_escaped hw hm hk hr)

/-! ### Strings, comments and addresses -/

variable {beh : Behind} {quote : Char}

theorem exists_of_hexDigits (hq : isQuote quote = true) (hm : s.mode = .string quote)
    (hr : s.run? marks t = some s') (hp : s'.mode = .plain) (he : t ++ w = x ++ u)
    (hx : ∀ d ∈ x, isHexDigit d = true) :
    ∃ v, u = v ++ w ∧ v.length ≤ t.length ∧ s.run? marks v = some s' := by
  induction x generalizing t with
  | nil => exact ⟨t, he.symm, Nat.le_refl _, hr⟩
  | cons d x ih =>
    rw [List.forall_mem_cons] at hx
    cases t with
    | nil =>
      cases hr
      rw [hm] at hp
      contradiction
    | cons c t =>
      obtain ⟨rfl, he'⟩ := List.cons_eq_cons.mp he
      obtain ⟨r, hs, hrun⟩ := exists_of_run?_cons hr
      rcases step_of_string hm hs with ⟨rfl, -⟩ | ⟨-, ⟨rfl, -⟩ | ⟨-, -, rfl⟩⟩
      · rcases Lexeme.isQuote_cases hq with rfl | rfl <;> exact absurd hx.1 (by decide)
      · exact absurd hx.1 (by decide)
      · obtain ⟨v, hv, hl, hrun⟩ := ih hrun he' hx.2
        exact ⟨v, hv, Nat.le_succ_of_le hl, hrun⟩

theorem exists_of_readEscape {d : Char} (hd : isHexDigit d = true) (t : Text) :
    ∃ x u, t = x ++ u ∧ (∀ c ∈ x, isHexDigit c = true) ∧ (readEscape (d :: t)).2 = dropSpace u := by
  have hp := (joins_hexDigits (d :: t)).1
  cases hx : ((d :: t).take 6).takeWhile isHexDigit with
  | nil => simp [hd] at hx
  | cons e x =>
    rw [hx] at hp
    obtain ⟨u, hu⟩ := hp
    obtain ⟨rfl, rfl⟩ := List.cons_eq_cons.mp hu
    refine ⟨x, u, rfl, fun c hc => isHexDigit_of_mem_take (t := e :: (x ++ u)) (hx ▸ List.mem_cons_of_mem e hc), ?_⟩
    unfold readEscape
    rw [hx]
    simp

theorem exists_of_escape (hq : isQuote quote = true) (hm : s.mode = .escape quote)
    (hr : s.run? marks t = some s') (hp : s'.mode = .plain) :
    ∃ v, (readEscape (t ++ w)).2 = v ++ w ∧ v.length < t.length ∧
      { s with mode := .string quote }.run? marks v = some s' := by
  cases t with
  | nil =>
    cases hr
    rw [hm] at hp
    contradiction
  | cons d t =>
    obtain ⟨r, hs, hrun⟩ := exists_of_run?_cons hr
    obtain rfl := step_of_escape hm hs
    by_cases hd : isHexDigit d = true
    · obtain ⟨x, u, hx, hhex, he⟩ := exists_of_readEscape hd (t ++ w)
      obtain ⟨v, rfl, hl, hrun⟩ := exists_of_hexDigits (s := { s with mode := .string quote }) hq rfl
        hrun hp hx hhex
      rw [List.cons_append, he]
      cases v with
      | nil =>
        cases hrun
        contradiction
      | cons c v =>
        rw [List.cons_append, dropSpace]
        split
        next hc =>
          -- the reader passes the blank that ends the escape
          obtain ⟨r, hs, hrun'⟩ := exists_of_run?_cons hrun
          rcases step_of_string rfl hs with ⟨rfl, -⟩ | ⟨-, ⟨rfl, -⟩ | ⟨-, -, rfl⟩⟩
          · rcases Lexeme.isQuote_cases hq with rfl | rfl <;> exact absurd hc (by decide)
          · exact absurd hc (by decide)
          · exact ⟨v, rfl, by simp at hl ⊢; omega, hrun'⟩
        next => exact ⟨c :: v, rfl, Nat.lt_succ_of_le hl, hrun⟩
    · rw [List.cons_append, readEscape_of_not_isHexDigit (eq_false_of_ne_true hd)]
      exact ⟨t, rfl, Nat.lt_succ_self _, hrun⟩

theorem exists_of_string (hq : isQuote quote = true) (hm : s.mode = .string quote)
    (hr : s.run? marks t = some s') (hp : s'.mode = .plain) :
    ∃ value v, readString quote (t ++ w) = .complete value (v ++ w) ∧ v.length < t.length ∧
      run? marks ⟨s.brackets, .plain, .word []⟩ v = some s' := by
  induction hl : t.length using Nat.strongRecOn generalizing t with
  | ind n ih =>
    cases t with
    | nil =>
      cases hr
      rw [hm] at hp
      contradiction
    | cons c t =>
      obtain ⟨r, hs, hrun⟩ := exists_of_run?_cons hr
      rw [List.length_cons] at hl
      rw [List.cons_append, readString.eq_def]
      dsimp only
      rcases step_of_string hm hs with ⟨rfl, rfl⟩ | ⟨hc, ⟨rfl, rfl⟩ | ⟨hb, hn, rfl⟩⟩
      · exact ⟨[], t, if_pos rfl, by omega, hrun⟩
      · -- the escape may be that of a line break
        rw [if_neg hc, if_pos rfl]
        obtain ⟨v, he, hv, hrun'⟩ := exists_of_escape (s := { s with mode := .escape quote })
          (w := w) hq rfl hrun hp
        have hstring : { s with mode := Mode.string quote } = s := by rw [← hm]
        cases t with
        | nil => simp at hv
        | cons d t =>
          rw [List.cons_append] at he ⊢
          split
          next => contradiction
          next he' =>
            obtain ⟨rfl, rfl⟩ := List.cons_eq_cons.mp he'
            rw [readEscape_of_not_isHexDigit (by decide)] at he
            obtain rfl := List.append_cancel_right he
            obtain ⟨value, u, hu, hlen, hrun⟩ := ih t.length (by simp at hl; omega) (hstring ▸ hrun') rfl
            exact ⟨value, u, hu, by simp at hl; omega, hrun⟩
          next he' =>
            obtain ⟨rfl, rfl⟩ := List.cons_eq_cons.mp he'
            obtain ⟨value, u, hu, hlen, hrun⟩ := ih v.length (by omega) (hstring ▸ hrun') rfl
            rw [he, hu]
            exact ⟨_, u, rfl, by omega, hrun⟩
      · obtain ⟨value, v, hv, hlen, hrun'⟩ := ih t.length (by omega) hrun rfl
        rw [if_neg hc, if_neg hb, if_neg hn, hv]
        exact ⟨c :: value, v, rfl, by omega, hrun'⟩

theorem breakOn_cons {before after : Text} (h : Text.breakOn "*/" t = some (before, after))
    (hc : ¬(c = '*' ∧ t.head? = some '/')) :
    Text.breakOn "*/" (c :: t) = some (c :: before, after) := by
  have hd : Text.dropPrefix? "*/" (c :: t) = none := by
    rw [Option.eq_none_iff_forall_ne_some]
    intro rest hd
    obtain ⟨rfl, rfl⟩ := List.cons_eq_cons.mp (Text.dropPrefix?_eq_some.mp hd)
    exact hc ⟨rfl, rfl⟩
  rw [Text.breakOn, hd, h]
  rfl

theorem exists_of_comment {star : Bool} (hm : s.mode = .comment star)
    (hr : s.run? marks t = some s') (hp : s'.mode = .plain) :
    ∃ text v, Text.breakOn "*/" ((if star then ['*'] else []) ++ (t ++ w)) = some (text, v ++ w) ∧
      v.length < t.length ∧ run? marks ⟨s.brackets, .plain, .word []⟩ v = some s' := by
  induction t generalizing s star with
  | nil =>
    cases hr
    rw [hm] at hp
    contradiction
  | cons c t ih =>
    obtain ⟨r, hs, hrun⟩ := exists_of_run?_cons hr
    rcases step_of_comment hm hs with ⟨rfl, rfl, rfl⟩ | ⟨hc, rfl⟩
    · exact ⟨[], t, rfl, Nat.lt_succ_self _, hrun⟩
    · obtain ⟨text, v, hb, hlen, hrun'⟩ := ih rfl hrun
      have hnext : ∃ text, Text.breakOn "*/" (c :: (t ++ w)) = some (text, v ++ w) := by
        by_cases hstar : c = '*'
        · rw [if_pos (by simp [hstar])] at hb
          exact ⟨text, hstar ▸ hb⟩
        · rw [if_neg (by simp [hstar])] at hb
          exact ⟨_, breakOn_cons hb fun h => hstar h.1⟩
      obtain ⟨text, hnext⟩ := hnext
      have hlen : v.length < (c :: t).length := Nat.lt_succ_of_lt hlen
      cases star with
      | false => exact ⟨text, v, hnext, hlen, hrun'⟩
      | true =>
        have hs : ¬('*' = '*' ∧ (c :: (t ++ w)).head? = some '/') :=
          fun h => hc ⟨rfl, Option.some.inj h.2⟩
        exact ⟨_, v, breakOn_cons hnext hs, hlen, hrun'⟩

theorem exists_of_address {first : Bool} (hm : s.mode = .address first)
    (hb : s.brackets = .round :: bs) (hr : s.run? marks t = some s') (hp : s'.mode = .plain)
    (hf : first = true → t.head?.any isQuote = false) :
    ∃ value v, readUrlBody (t ++ w) = .complete value (v ++ w) ∧ v.length < t.length ∧
      run? marks ⟨bs, .plain, .word []⟩ v = some s' := by
  induction t generalizing s first with
  | nil =>
    cases hr
    rw [hm] at hp
    contradiction
  | cons c t ih =>
    obtain ⟨r, hs, hrun⟩ := exists_of_run?_cons hr
    rw [List.cons_append, readUrlBody]
    rcases step_of_address hm hs with ⟨rfl, hc⟩ | ⟨hc, ⟨rfl, hq, -⟩ | ⟨ha, rfl⟩⟩
    · rw [closing?, hb] at hc
      cases hc
      exact ⟨[], t, if_pos rfl, Nat.lt_succ_self _, hrun⟩
    · have hf := hf rfl
      rw [List.head?_cons, Option.any_some, hq] at hf
      contradiction
    · obtain ⟨value, v, hv, hlen, hrun'⟩ := ih (s := { s with mode := .address false }) rfl hb hrun
        fun h => absurd h Bool.false_ne_true
      have ha := ha
      simp only [isAddressChar, Bool.not_eq_true', Bool.or_eq_false_iff] at ha
      have hne : c ≠ '\\' := by
        rintro rfl
        exact absurd ha.2 (by decide)
      rw [if_neg hc, if_neg (by simp [ha.1.1]), if_neg fun h => hne h.1, if_neg (by simp [ha.1.2]), hv]
      exact ⟨c :: value, v, rfl, Nat.lt_succ_of_lt hlen, hrun'⟩

theorem exists_next?_of_isKnown (hk : beh.IsKnown) (c : Char) :
    ∃ b, beh.next? c = some b ∧ b.IsKnown := by
  cases hc : isNameChar c with
  | true => exact ⟨.word _, Behind.next?_of_isNameChar hk hc, trivial⟩
  | false =>
    by_cases hs : c = '/'
    · have hn : beh.next? '/' = some .slash := by
        unfold Behind.next?
        rfl
      exact ⟨.slash, hs ▸ hn, trivial⟩
    · exact ⟨.word [], Behind.next?_of_isKnown hk hc hs, trivial⟩

theorem step?_of_isAddressChar (ha : isAddressChar c = true)
    (hbreak : ¬(c = '\r' ∨ c = '\x0C' ∨ c = '\x00')) :
    step? marks ⟨.round :: bs, .plain, beh⟩ c =
      (beh.next? c).map fun b => ⟨.round :: bs, .plain, b⟩ := by
  have hall : ∀ d ∈ specials, isAddressChar d = true →
      d ∈ [';', '!', '/'] ∨ d = '\r' ∨ d = '\x0C' ∨ d = '\x00' := by
    decide
  by_cases hc : c ∈ specials
  · have hm := (hall c hc ha).resolve_right hbreak
    rcases List.mem_cons.mp hm with rfl | hm
    · rfl
    · rcases List.mem_cons.mp hm with rfl | hm
      · rfl
      · obtain rfl := List.mem_singleton.mp hm
        rfl
  · exact step?_of_not_special rfl hc

theorem run?_of_address (hm : s.mode = .address false) (hb : s.brackets = .round :: bs)
    (hr : s.run? marks t = some s') (hp : s'.mode = .plain) (hk : beh.IsKnown) :
    run? marks ⟨.round :: bs, .plain, beh⟩ t = some s' := by
  induction t generalizing s beh with
  | nil =>
    cases hr
    rw [hm] at hp
    contradiction
  | cons c t ih =>
    obtain ⟨r, hs, hrun⟩ := exists_of_run?_cons hr
    rw [run?_cons]
    rcases step_of_address hm hs with ⟨rfl, hc⟩ | ⟨hc, ⟨hf, -⟩ | ⟨ha, rfl⟩⟩
    · rw [closing?, hb] at hc
      cases hc
      exact hrun
    · contradiction
    · obtain ⟨b, hn, hkb⟩ := exists_next?_of_isKnown hk c
      rw [step?_of_isAddressChar ha (not_break_of_step? hs), hn]
      exact ih (s := { s with mode := .address false }) rfl hb hrun hkb

/-- A quote in front of an address starts a string. -/
theorem run?_of_address_first (hr : run? marks ⟨.round :: bs, .address true, .word []⟩ t = some s')
    (hp : s'.mode = .plain) : run? marks ⟨.round :: bs, .plain, .word []⟩ t = some s' := by
  cases t with
  | nil =>
    cases hr
    contradiction
  | cons c t =>
    obtain ⟨r, hs, hrun⟩ := exists_of_run?_cons hr
    rcases step_of_address rfl hs with ⟨rfl, hc⟩ | ⟨-, ⟨-, hq, rfl⟩ | ⟨ha, rfl⟩⟩
    · cases hc
      exact hrun
    · rcases Lexeme.isQuote_cases hq with rfl | rfl <;> exact hrun
    · obtain ⟨b, hn, hkb⟩ := exists_next?_of_isKnown (show (Behind.word []).IsKnown from trivial) c
      rw [run?_cons, step?_of_isAddressChar ha (not_break_of_step? hs), hn]
      exact run?_of_address rfl rfl hrun hp hkb

/-! ### Lexemes -/

theorem step_of_quote (hm : s.mode = .plain) (hq : isQuote c = true) (h : s.step? marks c = some r) :
    r = { s with mode := .string c } :=
  (plainStep_of_step? hm h).unique (.quote hq)

theorem step_of_opening {b : Bracket} (hm : s.mode = .plain) (h : s.step? marks b.opening = some r) :
    s.opening? b = some r := by
  have hp := (plainStep_of_step? hm h).eq
  cases b <;> exact hp

theorem step_of_closing {b : Bracket} (hm : s.mode = .plain) (h : s.step? marks b.closing = some r) :
    s.closing? b = some r := by
  have hp := (plainStep_of_step? hm h).eq
  cases b <;> exact hp

theorem step_of_slash (hm : s.mode = .plain) (h : s.step? marks '/' = some r) :
    r = { s with behind := .slash } := by
  have hc : Ordinary marks s '/' := ⟨by decide, rfl, rfl, rfl, by simp, by simp, by simp⟩
  have hn : s.behind.next? '/' = some .slash := by
    unfold Behind.next?
    rfl
  exact (plainStep_of_step? hm h).unique (.ordinary hc hn)

theorem step_of_star (hm : s.mode = .plain) (hb : s.behind = .slash)
    (h : s.step? marks '*' = some r) : r = { s with mode := .comment false } :=
  (plainStep_of_step? hm h).unique (.comment hb)

end Reader

end CustomProperties.Syntax

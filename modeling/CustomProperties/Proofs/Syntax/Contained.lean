import CustomProperties.Proofs.Syntax.Standard
import CustomProperties.Proofs.Syntax.Step

/-! # Contained texts

A text may be put into another one where a reader of single characters stands as before behind it:
outside of strings and comments, inside the same brackets, and with nothing at its ends that could
join what stands next to it. The reader has no need to know where lexemes end, so it does not
matter which of them are joined.
-/

namespace CustomProperties.Syntax

/-- Whether the text up to a place ends in a slash: never, only if the text in front of the part
that is read does, or perhaps. -/
inductive Edge
  | clear
  | inherited
  | slash
  deriving DecidableEq, Repr

/-- What stands in front of a place: characters of a name, the last one first and perhaps none, a
slash, the start of a part that follows no name, or a part whose text is not known. -/
inductive Behind
  | word (reversed : Text)
  | slash
  | start
  | unknown (edge : Edge)
  deriving DecidableEq, Repr

/-- What a reader is in the middle of. `first` says that an address has just been opened, `star`
that the last character of the comment was a star, and `rest` what has to follow of a mark of
importance. -/
inductive Reader.Mode
  | plain
  | address (first : Bool)
  | string (quote : Char)
  | escape (quote : Char)
  | comment (star : Bool)
  | mark (rest : Text)
  deriving DecidableEq, Repr

structure Reader where
  brackets : List Bracket
  mode : Reader.Mode
  behind : Behind
  deriving DecidableEq, Repr

def Behind.next? (b : Behind) (c : Char) : Option Behind :=
  if isNameChar c then
    match b with
    | .word w => some (.word (c :: w))
    | .unknown _ => none
    | _ => some (.word [c])
  else if c = '/' then some .slash
  else if c = '*' ∧ b ∈ [.start, .unknown .inherited, .unknown .slash] then none
  else some (.word [])

namespace Reader

def start : Reader := ⟨[], .plain, .start⟩

def initial : Reader := ⟨[], .plain, .word []⟩

def isOutside (s : Reader) : Bool := s.brackets.isEmpty && s.mode == .plain

def endsInUrl (reversed : Text) : Bool := ("lru" : Text).isPrefixOf (Text.lowerAscii reversed)

/-- What may stand in an address without quotes and outside of it means the same. -/
def isAddressChar (c : Char) : Bool :=
  !(isSpace c || spoilsUrl c || ("*\\)[]\x7b\x7d" : Text).contains c)

/-- The name in front of a parenthesis has to be known. Curly brackets stand in other ones only. -/
def opening? (s : Reader) (b : Bracket) : Option Reader :=
  let opened : Reader := ⟨b :: s.brackets, .plain, .word []⟩
  match b, s.behind with
  | .round, .unknown _ => none
  | .round, .word w => some (if endsInUrl w then { opened with mode := .address true } else opened)
  | .curly, _ => if s.brackets = [] then none else some opened
  | _, _ => some opened

def closing? (s : Reader) (b : Bracket) : Option Reader :=
  match s.brackets with
  | [] => none
  | c :: bs => if c = b then some ⟨bs, .plain, .word []⟩ else none

/-- Outside of all brackets no semicolon may stand, and an exclamation mark has to start a mark of
importance if `marks` holds. -/
def plainStep? (marks : Bool) (s : Reader) (c : Char) : Option Reader :=
  if c = '\\' then none
  else if Lexeme.isQuote c then some { s with mode := .string c }
  else if let some b := Bracket.ofOpening? c then s.opening? b
  else if let some b := Bracket.ofClosing? c then s.closing? b
  else if s.brackets = [] ∧ c = ';' then none
  else if s.brackets = [] ∧ marks ∧ c = '!' then some { s with mode := .mark "important" }
  else if c = '*' ∧ s.behind = .slash then some { s with mode := .comment false }
  else (s.behind.next? c).map fun b => { s with behind := b }

def step? (marks : Bool) (s : Reader) (c : Char) : Option Reader :=
  if c = '\r' ∨ c = '\x0C' ∨ c = '\x00' then none
  else
    match s.mode with
    | .plain => s.plainStep? marks c
    | .address first =>
      if c = ')' then s.closing? .round
      else if first ∧ Lexeme.isQuote c then some { s with mode := .string c }
      else if isAddressChar c then some { s with mode := .address false }
      else none
    | .string quote =>
      if c = quote then some ⟨s.brackets, .plain, .word []⟩
      else if c = '\\' then some { s with mode := .escape quote }
      else if c = '\n' then none
      else some s
    | .escape quote => some { s with mode := .string quote }
    | .comment star =>
      if star ∧ c = '/' then some ⟨s.brackets, .plain, .word []⟩
      else some { s with mode := .comment (c = '*') }
    | .mark rest => if rest.head? = some c then some { s with mode := .mark rest.tail } else none

def run? (marks : Bool) (s : Reader) (t : Text) : Option Reader := t.foldlM (step? marks) s

variable {marks : Bool} {s s' : Reader} {c : Char} {t u : Text}

theorem of_isOutside (h : s.isOutside = true) : s.brackets = [] ∧ s.mode = .plain := by
  simpa only [isOutside, Bool.and_eq_true, List.isEmpty_iff, beq_iff_eq] using h

@[simp] theorem run?_nil : s.run? marks [] = some s := rfl

theorem run?_cons : s.run? marks (c :: t) = (s.step? marks c).bind (run? marks · t) := by
  rw [run?, List.foldlM_cons]
  rfl

theorem run?_append : s.run? marks (t ++ u) = (s.run? marks t).bind (run? marks · u) := by
  rw [run?, List.foldlM_append]
  rfl

theorem run?_append_of_eq_some (h : s.run? marks t = some s') :
    s.run? marks (t ++ u) = s'.run? marks u := by
  rw [run?_append, h, Option.bind_some]

theorem exists_of_run?_cons (h : s.run? marks (c :: t) = some s') :
    ∃ r, s.step? marks c = some r ∧ r.run? marks t = some s' := by
  rw [run?_cons] at h
  exact Option.bind_eq_some_iff.mp h

theorem exists_of_run?_append (h : s.run? marks (t ++ u) = some s') :
    ∃ r, s.run? marks t = some r ∧ r.run? marks u = some s' := by
  rw [run?_append] at h
  exact Option.bind_eq_some_iff.mp h

/-! ### Single steps -/

structure Ordinary (marks : Bool) (s : Reader) (c : Char) : Prop where
  backslash : c ≠ '\\'
  quote : Lexeme.isQuote c = false
  opening : Bracket.ofOpening? c = none
  closing : Bracket.ofClosing? c = none
  semicolon : ¬(s.brackets = [] ∧ c = ';')
  bang : ¬(s.brackets = [] ∧ marks = true ∧ c = '!')
  star : ¬(c = '*' ∧ s.behind = .slash)

theorem Ordinary.plainStep?_eq (h : Ordinary marks s c) :
    s.plainStep? marks c = (s.behind.next? c).map fun b => { s with behind := b } := by
  rw [plainStep?, if_neg h.backslash, if_neg (by simp [h.quote]), h.opening, h.closing]
  dsimp only
  rw [if_neg h.semicolon, if_neg h.bang, if_neg h.star]

inductive PlainStep (marks : Bool) (s : Reader) : Char → Reader → Prop

  | quote {c : Char} : Lexeme.isQuote c = true →
      PlainStep marks s c { s with mode := .string c }

  | opening {b : Bracket} {s' : Reader} : s.opening? b = some s' → PlainStep marks s b.opening s'

  | closing {b : Bracket} {s' : Reader} : s.closing? b = some s' → PlainStep marks s b.closing s'

  | mark : s.brackets = [] → marks = true →
      PlainStep marks s '!' { s with mode := .mark "important" }

  | comment : s.behind = .slash → PlainStep marks s '*' { s with mode := .comment false }

  | ordinary {c : Char} {b : Behind} : Ordinary marks s c → s.behind.next? c = some b →
      PlainStep marks s c { s with behind := b }

theorem PlainStep.eq (h : PlainStep marks s c s') : s.plainStep? marks c = some s' := by
  cases h with
  | quote hq => rcases Lexeme.isQuote_cases hq with rfl | rfl <;> rfl
  | @opening b _ h => cases b <;> exact h
  | @closing b _ h => cases b <;> exact h
  | mark hb hm =>
    have ho : Bracket.ofOpening? '!' = none := rfl
    have hc : Bracket.ofClosing? '!' = none := rfl
    rw [plainStep?, if_neg (by decide), if_neg (by decide), ho, hc]
    dsimp only
    rw [if_neg fun h => absurd h.2 (by decide), if_pos ⟨hb, hm, rfl⟩]
  | comment hb =>
    have ho : Bracket.ofOpening? '*' = none := rfl
    have hc : Bracket.ofClosing? '*' = none := rfl
    rw [plainStep?, if_neg (by decide), if_neg (by decide), ho, hc]
    dsimp only
    rw [if_neg fun h => absurd h.2 (by decide), if_neg fun h => absurd h.2.2 (by decide),
      if_pos ⟨rfl, hb⟩]
  | ordinary hc hn =>
    rw [hc.plainStep?_eq, hn]
    rfl

theorem plainStep_of_eq (h : s.plainStep? marks c = some s') : PlainStep marks s c s' := by
  unfold plainStep? at h
  by_cases hb : c = '\\'
  · rw [if_pos hb] at h
    contradiction
  rw [if_neg hb] at h
  by_cases hq : Lexeme.isQuote c = true
  · rw [if_pos hq] at h
    cases h
    exact .quote hq
  rw [if_neg hq] at h
  cases ho : Bracket.ofOpening? c with
  | some b =>
    rw [ho] at h
    rw [← Bracket.opening_of_ofOpening? ho]
    exact .opening h
  | none =>
    rw [ho] at h
    dsimp only at h
    cases hc : Bracket.ofClosing? c with
    | some b =>
      rw [hc] at h
      rw [← Bracket.closing_of_ofClosing? hc]
      exact .closing h
    | none =>
      rw [hc] at h
      dsimp only at h
      by_cases hsemi : s.brackets = [] ∧ c = ';'
      · rw [if_pos hsemi] at h
        contradiction
      rw [if_neg hsemi] at h
      by_cases hbang : s.brackets = [] ∧ marks = true ∧ c = '!'
      · rw [if_pos hbang] at h
        obtain ⟨hs, hm, rfl⟩ := hbang
        cases h
        exact .mark hs hm
      rw [if_neg hbang] at h
      by_cases hstar : c = '*' ∧ s.behind = .slash
      · rw [if_pos hstar] at h
        obtain ⟨rfl, hs⟩ := hstar
        cases h
        exact .comment hs
      rw [if_neg hstar] at h
      obtain ⟨b, hn, rfl⟩ := Option.map_eq_some_iff.mp h
      exact .ordinary ⟨hb, eq_false_of_ne_true hq, ho, hc, hsemi, hbang, hstar⟩ hn

theorem not_break_of_step? (h : s.step? marks c = some s') :
    ¬(c = '\r' ∨ c = '\x0C' ∨ c = '\x00') := by
  unfold step? at h
  split at h
  next => contradiction
  next hc => exact hc

theorem step?_of_plain (hm : s.mode = .plain) (hc : ¬(c = '\r' ∨ c = '\x0C' ∨ c = '\x00')) :
    s.step? marks c = s.plainStep? marks c := by
  rw [step?, if_neg hc, hm]

theorem plainStep_of_step? (hm : s.mode = .plain) (h : s.step? marks c = some s') :
    PlainStep marks s c s' := by
  rw [step?_of_plain hm (not_break_of_step? h)] at h
  exact plainStep_of_eq h

theorem not_isQuote_of_isAddressChar (h : isAddressChar c = true) : ¬Lexeme.isQuote c = true := by
  intro hq
  rcases Lexeme.isQuote_cases hq with rfl | rfl <;> exact absurd h (by decide)

theorem step_of_address {first : Bool} (hm : s.mode = .address first)
    (h : s.step? marks c = some s') :
    c = ')' ∧ s.closing? .round = some s' ∨
      c ≠ ')' ∧ (first = true ∧ Lexeme.isQuote c = true ∧ s' = { s with mode := .string c } ∨
        isAddressChar c = true ∧ s' = { s with mode := .address false }) := by
  rw [step?, if_neg (not_break_of_step? h), hm] at h
  dsimp only at h
  split at h
  next hc => exact .inl ⟨hc, h⟩
  next hc =>
    split at h
    next hq =>
      cases h
      exact .inr ⟨hc, .inl ⟨hq.1, hq.2, rfl⟩⟩
    next =>
      split at h
      next ha =>
        cases h
        exact .inr ⟨hc, .inr ⟨ha, rfl⟩⟩
      next => contradiction

theorem step_of_string {quote : Char} (hm : s.mode = .string quote)
    (h : s.step? marks c = some s') :
    c = quote ∧ s' = ⟨s.brackets, .plain, .word []⟩ ∨
      c ≠ quote ∧ (c = '\\' ∧ s' = { s with mode := .escape quote } ∨
        c ≠ '\\' ∧ c ≠ '\n' ∧ s' = s) := by
  rw [step?, if_neg (not_break_of_step? h), hm] at h
  dsimp only at h
  split at h
  next hc =>
    cases h
    exact .inl ⟨hc, rfl⟩
  next hc =>
    split at h
    next he =>
      cases h
      exact .inr ⟨hc, .inl ⟨he, rfl⟩⟩
    next he =>
      split at h
      next => contradiction
      next hn =>
        cases h
        exact .inr ⟨hc, .inr ⟨he, hn, rfl⟩⟩

theorem step_of_escape {quote : Char} (hm : s.mode = .escape quote)
    (h : s.step? marks c = some s') : s' = { s with mode := .string quote } := by
  rw [step?, if_neg (not_break_of_step? h), hm] at h
  exact (Option.some.inj h).symm

theorem step_of_comment {star : Bool} (hm : s.mode = .comment star)
    (h : s.step? marks c = some s') :
    star = true ∧ c = '/' ∧ s' = ⟨s.brackets, .plain, .word []⟩ ∨
      ¬(star = true ∧ c = '/') ∧ s' = { s with mode := .comment (c = '*') } := by
  rw [step?, if_neg (not_break_of_step? h), hm] at h
  dsimp only at h
  split at h
  next hc =>
    cases h
    exact .inl ⟨hc.1, hc.2, rfl⟩
  next hc =>
    cases h
    exact .inr ⟨hc, rfl⟩

theorem step_of_mark {rest : Text} (hm : s.mode = .mark rest) (h : s.step? marks c = some s') :
    rest.head? = some c ∧ s' = { s with mode := .mark rest.tail } := by
  rw [step?, if_neg (not_break_of_step? h), hm] at h
  dsimp only at h
  split at h
  next hc =>
    cases h
    exact ⟨hc, rfl⟩
  next => contradiction

theorem isStandard_of_run? (h : s.run? marks t = some s') : IsStandard t := by
  induction t generalizing s with
  | nil => exact .nil
  | cons c t ih =>
    obtain ⟨r, hs, hr⟩ := exists_of_run?_cons h
    exact IsStandard.cons_iff.mpr ⟨by simpa using not_break_of_step? hs, ih hr⟩

/-! ### Marks of importance -/

def IsMarking (s : Reader) : Prop := ∃ rest, s.mode = .mark rest

theorem not_isMarking_of_plain (h : s.mode = .plain) : ¬s.IsMarking := by
  rintro ⟨rest, hr⟩
  rw [h] at hr
  contradiction

theorem IsMarking.step (h : s.IsMarking) (hs : s.step? marks c = some s') : s'.IsMarking := by
  obtain ⟨rest, hr⟩ := h
  obtain ⟨-, rfl⟩ := step_of_mark hr hs
  exact ⟨_, rfl⟩

theorem IsMarking.run (h : s.IsMarking) (hs : s.run? marks t = some s') : s'.IsMarking := by
  induction t generalizing s with
  | nil =>
    cases hs
    exact h
  | cons c t ih =>
    obtain ⟨r, hc, hr⟩ := exists_of_run?_cons hs
    exact ih (h.step hc) hr

end Reader

/-! ### What is known and what is there -/

/-- What is in front of a place agrees with what is known of it. `slashed` says whether the text
before the part that is read ends in a slash. -/
inductive Behind.Covers (slashed : Prop) : Behind → Behind → Prop

  | word (w : Text) : Covers slashed (.word w) (.word w)

  | slash : Covers slashed .slash .slash

  | start : Covers slashed .start (.word [])

  | startSlash : slashed → Covers slashed .start .slash

  | unknown (e : Edge) (w : Text) : Covers slashed (.unknown e) (.word w)

  | inherited : slashed → Covers slashed (.unknown .inherited) .slash

  | unknownSlash : Covers slashed (.unknown .slash) .slash

/-- A reader of a whole text is where a reader of its part is, inside of further brackets. -/
structure Reader.Covers (outer : List Bracket) (slashed : Prop) (s r : Reader) : Prop where
  brackets : r.brackets = s.brackets ++ outer
  mode : r.mode = s.mode
  behind : s.mode = .plain → s.behind.Covers slashed r.behind

variable {outer : List Bracket} {slashed : Prop} {marks : Bool} {b b' d : Behind} {c : Char} {t : Text}

/-- A character is read behind what is there as behind what is known. -/
theorem Behind.Covers.next? (h : b.Covers slashed d) (hn : b.next? c = some b')
    (hs : ¬(c = '*' ∧ b = .slash)) :
    ¬(c = '*' ∧ d = .slash) ∧ ∃ d', d.next? c = some d' ∧ b'.Covers slashed d' := by
  unfold Behind.next? at hn ⊢
  by_cases hname : isNameChar c = true
  · have hstar : c ≠ '*' := by
      rintro rfl
      contradiction
    rw [if_pos hname] at hn ⊢
    refine ⟨fun hc => hstar hc.1, ?_⟩
    cases h <;>
      first
      | contradiction
      | cases hn; exact ⟨_, rfl, .word _⟩
  · rw [if_neg hname] at hn ⊢
    by_cases hslash : c = '/'
    · rw [if_pos hslash] at hn ⊢
      cases hn
      exact ⟨fun hc => absurd (hc.1.symm.trans hslash) (by decide), _, rfl, .slash⟩
    · rw [if_neg hslash] at hn ⊢
      split at hn
      next => contradiction
      next hstar =>
        cases hn
        have hd : ¬(c = '*' ∧ d ∈ [.start, .unknown .inherited, .unknown .slash]) := by
          cases h <;> simp
        rw [if_neg hd]
        refine ⟨?_, _, rfl, .word []⟩
        rintro ⟨rfl, rfl⟩
        cases h <;> simp_all

namespace Reader

variable {s s' r : Reader}

theorem Covers.opening (h : Covers outer slashed s r) (hp : s.mode = .plain) {b : Bracket}
    (hs : s.opening? b = some s') : ∃ r', r.opening? b = some r' ∧ Covers outer slashed s' r' := by
  have hw : Behind.Covers slashed (.word []) (.word []) := .word []
  have hpush (m : Mode) : Covers outer slashed ⟨b :: s.brackets, m, .word []⟩
      ⟨b :: r.brackets, m, .word []⟩ := ⟨by simp [h.brackets], rfl, fun _ => hw⟩
  have hb := h.behind hp
  unfold opening? at hs ⊢
  cases b with
  | square => cases hs; exact ⟨_, rfl, hpush _⟩
  | curly =>
    dsimp only at hs ⊢
    split at hs
    next => contradiction
    next hn =>
      cases hs
      rw [if_neg (by simp [h.brackets, hn])]
      exact ⟨_, rfl, hpush _⟩
  | round =>
    generalize s.behind = sb at *
    generalize r.behind = rb at *
    cases hb with
    | word w =>
      dsimp only at hs ⊢
      cases hs
      refine ⟨_, rfl, ?_⟩
      split
      · exact hpush _
      · exact hpush _
    | slash => cases hs; exact ⟨_, rfl, hpush _⟩
    | start => cases hs; exact ⟨_, rfl, hpush _⟩
    | startSlash => cases hs; exact ⟨_, rfl, hpush _⟩
    | _ => contradiction

theorem Covers.closing (h : Covers outer slashed s r) {b : Bracket}
    (hs : s.closing? b = some s') : ∃ r', r.closing? b = some r' ∧ Covers outer slashed s' r' := by
  unfold closing? at hs ⊢
  rw [h.brackets]
  split at hs
  next => contradiction
  next d bs hd =>
    rw [hd, List.cons_append]
    dsimp only
    split at hs
    next he =>
      cases hs
      rw [if_pos he]
      exact ⟨_, rfl, rfl, rfl, fun _ => .word []⟩
    next => contradiction

theorem Covers.behind_eq_slash (h : Covers outer slashed s r) (hp : s.mode = .plain)
    (hs : s.behind = .slash) : r.behind = .slash := by
  have hb := h.behind hp
  rw [hs] at hb
  generalize r.behind = d at hb
  cases hb
  rfl

theorem Covers.plainStep (h : Covers outer slashed s r) (hp : s.mode = .plain)
    (hs : PlainStep marks s c s') (hm : outer = [] ∨ ¬s'.IsMarking) :
    ∃ r', PlainStep marks r c r' ∧ Covers outer slashed s' r' := by
  have hmode {m : Mode} (hne : m ≠ .plain) :
      Covers outer slashed { s with mode := m } { r with mode := m } :=
    ⟨h.brackets, rfl, fun hp => absurd hp hne⟩
  have hnil : r.brackets = [] → s.brackets = [] := fun hr =>
    (List.append_eq_nil_iff.mp (h.brackets.symm.trans hr)).1
  cases hs with
  | quote hq => exact ⟨_, .quote hq, hmode nofun⟩
  | opening ho =>
    obtain ⟨r', hr, hc⟩ := h.opening hp ho
    exact ⟨r', .opening hr, hc⟩
  | closing hc =>
    obtain ⟨r', hr, hc⟩ := h.closing hc
    exact ⟨r', .closing hr, hc⟩
  | mark hb hmarks =>
    obtain rfl := hm.resolve_right fun hn => hn ⟨_, rfl⟩
    have hr : r.brackets = [] := by rw [h.brackets, hb, List.append_nil]
    exact ⟨_, .mark hr hmarks, hmode nofun⟩
  | comment hb => exact ⟨_, .comment (h.behind_eq_slash hp hb), hmode nofun⟩
  | ordinary hc hn =>
    obtain ⟨hstar, d, hd, hbd⟩ := (h.behind hp).next? hn hc.star
    have hr : Ordinary marks r c := { hc with
      semicolon := fun hs => hc.semicolon ⟨hnil hs.1, hs.2⟩
      bang := fun hs => hc.bang ⟨hnil hs.1, hs.2⟩
      star := hstar }
    exact ⟨_, .ordinary hr hd, h.brackets, h.mode, fun _ => hbd⟩

theorem Covers.step (h : Covers outer slashed s r) (hs : s.step? marks c = some s')
    (hm : outer = [] ∨ ¬s'.IsMarking) :
    ∃ r', r.step? marks c = some r' ∧ Covers outer slashed s' r' := by
  have hmode {m : Mode} (hne : m ≠ .plain) :
      Covers outer slashed { s with mode := m } { r with mode := m } :=
    ⟨h.brackets, rfl, fun hp => absurd hp hne⟩
  have hplain : Covers outer slashed ⟨s.brackets, .plain, .word []⟩ ⟨r.brackets, .plain, .word []⟩ :=
    ⟨h.brackets, rfl, fun _ => .word []⟩
  rw [step?, if_neg (not_break_of_step? hs), h.mode]
  cases hsm : s.mode with
  | plain =>
    obtain ⟨r', hr, hc⟩ := h.plainStep hsm (plainStep_of_step? hsm hs) hm
    exact ⟨r', hr.eq, hc⟩
  | address first =>
    dsimp only
    rcases step_of_address hsm hs with ⟨hc, hs⟩ | ⟨hc, ⟨hf, hq, rfl⟩ | ⟨ha, rfl⟩⟩
    · rw [if_pos hc]
      exact h.closing hs
    · rw [if_neg hc, if_pos ⟨hf, hq⟩]
      exact ⟨_, rfl, hmode nofun⟩
    · rw [if_neg hc, if_neg fun hq => not_isQuote_of_isAddressChar ha hq.2, if_pos ha]
      exact ⟨_, rfl, hmode nofun⟩
  | string quote =>
    dsimp only
    rcases step_of_string hsm hs with ⟨hc, rfl⟩ | ⟨hc, ⟨he, rfl⟩ | ⟨he, hn, rfl⟩⟩
    · rw [if_pos hc]
      exact ⟨_, rfl, hplain⟩
    · rw [if_neg hc, if_pos he]
      exact ⟨_, rfl, hmode nofun⟩
    · rw [if_neg hc, if_neg he, if_neg hn]
      exact ⟨_, rfl, h⟩
  | escape quote =>
    obtain rfl := step_of_escape hsm hs
    exact ⟨_, rfl, hmode nofun⟩
  | comment star =>
    dsimp only
    rcases step_of_comment hsm hs with ⟨hstar, hc, rfl⟩ | ⟨hc, rfl⟩
    · rw [if_pos ⟨hstar, hc⟩]
      exact ⟨_, rfl, hplain⟩
    · rw [if_neg hc]
      exact ⟨_, rfl, hmode nofun⟩
  | mark rest =>
    dsimp only
    obtain ⟨hc, rfl⟩ := step_of_mark hsm hs
    rw [if_pos hc]
    exact ⟨_, rfl, hmode nofun⟩

/-- A whole text reads on as its part does, unless a mark of importance ends the part inside of
brackets. -/
theorem Covers.run (h : Covers outer slashed s r) (hs : s.run? marks t = some s')
    (hm : outer = [] ∨ ¬s'.IsMarking) :
    ∃ r', r.run? marks t = some r' ∧ Covers outer slashed s' r' := by
  induction t generalizing s r with
  | nil =>
    cases hs
    exact ⟨r, rfl, h⟩
  | cons c t ih =>
    obtain ⟨s₁, hc, ht⟩ := exists_of_run?_cons hs
    obtain ⟨r₁, hr, h₁⟩ := h.step hc (hm.imp_right fun hn hi => hn (hi.run ht))
    obtain ⟨r', hr', h'⟩ := ih h₁ ht
    exact ⟨r', by rw [run?_cons, hr, Option.bind_some, hr'], h'⟩

end Reader

end CustomProperties.Syntax

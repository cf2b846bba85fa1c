import CustomProperties.Proofs.Syntax.ContainedLexemes

/-! # The nodes of contained texts

A reader of a contained text meets the same brackets as the grouping of lexemes. So the nodes of
such a text are read from it in front of any text that continues none of them, and they end where
it does.
-/

namespace CustomProperties.Syntax

open Lexeme (isQuote)

namespace Node

/-- Nothing of the node is cut off by the end of the text. -/
def isWhole : Node → Bool
  | token _ (.string _ closed) => closed
  | token _ (.url _ closed) => closed
  | n => !n.isCutOff

theorem not_isCutOff_of_isWhole {n : Node} (h : n.isWhole = true) : n.isCutOff = false := by
  unfold isWhole at h
  split at h
  next =>
    rw [h]
    rfl
  next => rfl
  next => simpa using h

theorem not_lastIsCutOff {ns : List Node} (h : ∀ n ∈ ns, n.isWhole = true) :
    lastIsCutOff ns = false := by
  induction ns with
  | nil => rfl
  | cons n ns ih =>
    rw [List.forall_mem_cons] at h
    cases ns with
    | nil => exact not_isCutOff_of_isWhole h.1
    | cons m ns => exact ih h.2

theorem isWhole_node (o : Opener) (p : Text) {content : List Node}
    (h : ∀ n ∈ content, n.isWhole = true) : (o.node p content).isWhole = true := by
  cases o with
  | bracket b => rfl
  | function name => simp [Opener.node, isWhole, isCutOff, not_lastIsCutOff h]

/-- The node may stand in a value, and if `marks` holds it starts no mark of importance. -/
structure Stands (marks : Bool) (n : Node) : Prop where
  whole : n.isWhole = true
  plain : n.isPlain = true
  unmarked : marks = true → n.isLiteral ['!'] = false

end Node

namespace Reader

open Node (Parses Stands)

variable {marks : Bool} {s s' r : Reader} {c : Char} {t u v w : Text} {bs : List Bracket}

/-- What follows inside of the brackets is read in front of `w`: to its end outside of all brackets,
and else up to the innermost closing one, behind which the reader goes on. -/
def Continues (marks : Bool) (w : Text) (s' : Reader) : List Bracket → Text → Prop
  | [], t => ∀ closer, ∃ ms, Parses closer (t ++ w) ms w ∧ ∀ n ∈ ms, Stands marks n
  | b :: bs, t => ∃ v ms, v.length < t.length ∧ Parses (some b) (t ++ w) ms (b.closing :: (v ++ w)) ∧
      (∀ n ∈ ms, n.isWhole = true) ∧ run? marks ⟨bs, .plain, .word []⟩ v = some s'

theorem Continues.token {tok : Token} (h : Continues marks w s' bs v) (hl : v.length ≤ t.length)
    (hn : Lexeme.next c (t ++ w) = (.token tok, v ++ w))
    (hw : ∀ p, (Node.token p tok).isWhole = true)
    (hs : bs = [] → ∀ p, Stands marks (.token p tok)) : Continues marks w s' bs (c :: t) := by
  cases bs with
  | nil =>
    intro closer
    obtain ⟨ms, hp, hms⟩ := h closer
    exact ⟨_, .token hn hp, List.forall_mem_cons.mpr ⟨hs rfl _, hms⟩⟩
  | cons b bs =>
    obtain ⟨v', ms, hv, hp, hms, hr⟩ := h
    exact ⟨v', _, Nat.lt_succ_of_lt (Nat.lt_of_lt_of_le hv hl), .token hn hp,
      List.forall_mem_cons.mpr ⟨hw _, hms⟩, hr⟩

theorem Continues.nested {o : Opener} (h : Continues marks w s' (o.closer :: bs) v)
    (hl : v.length ≤ t.length) (hn : Lexeme.next c (t ++ w) = (.opening o, v ++ w))
    (ho : bs = [] → o ≠ .bracket .curly)
    (hrest : ∀ v', v'.length < v.length → run? marks ⟨bs, .plain, .word []⟩ v' = some s' →
      Continues marks w s' bs v') : Continues marks w s' bs (c :: t) := by
  obtain ⟨v', content, hv', hp, hc, hr⟩ := h
  have hwhole (p : Text) := Node.isWhole_node o p hc
  have hk := hrest v' hv' hr
  cases bs with
  | nil =>
    intro closer
    obtain ⟨ms, hp', hms⟩ := hk closer
    refine ⟨_, .nested hn hp .closed hp', List.forall_mem_cons.mpr ⟨⟨hwhole _, ?_, ?_⟩, hms⟩⟩
    · cases o with
      | function name => rfl
      | bracket b =>
        cases b with
        | curly => exact absurd rfl (ho rfl)
        | round => rfl
        | square => rfl
    · cases o <;> exact fun _ => rfl
  | cons b bs =>
    obtain ⟨v'', ms, hv'', hp', hms, hr'⟩ := hk
    exact ⟨v'', _, by simp; omega, .nested hn hp .closed hp', List.forall_mem_cons.mpr ⟨hwhole _, hms⟩, hr'⟩

def Shorter (marks : Bool) (w : Text) (s' : Reader) (n : Nat) : Prop :=
  ∀ r v, v.length < n → Rests r v → r.run? marks v = some s' → Continues marks w s' r.brackets v

theorem Shorter.afterLexeme {n : Nat} (h : Shorter marks w s' n) (hv : v.length < n)
    (hr : run? marks ⟨bs, .plain, .word []⟩ v = some s') : Continues marks w s' bs v :=
  h ⟨bs, .plain, .word []⟩ v hv ⟨rfl, trivial, nofun⟩ hr

section

variable {n : Nat} (hw : Shuts w) (hp : s'.mode = .plain) (ih : Shorter marks w s' n)
  (hl : t.length < n) (hm : s.mode = .plain)

include hp ih hl hm in
theorem continues_string (hq : isQuote c = true) (hr : s.run? marks (c :: t) = some s') :
    Continues marks w s' s.brackets (c :: t) := by
  obtain ⟨r, hs, hrun⟩ := exists_of_run?_cons hr
  obtain rfl := step_of_quote hm hq hs
  obtain ⟨value, v, hv, hlen, hrun⟩ := exists_of_string (w := w) hq rfl hrun hp
  have hn : Lexeme.next c (t ++ w) = (.token (.string value true), v ++ w) := by
    rw [Lexeme.next_quote hq, hv]
    rfl
  exact (ih.afterLexeme (by omega) hrun).token (Nat.le_of_lt hlen) hn (fun _ => rfl)
    fun _ _ => ⟨rfl, rfl, fun _ => rfl⟩

include hp ih hl hm in
theorem continues_comment (hr : s.run? marks ('/' :: '*' :: t) = some s') :
    Continues marks w s' s.brackets ('/' :: '*' :: t) := by
  obtain ⟨r, hs, hrun⟩ := exists_of_run?_cons hr
  obtain rfl := step_of_slash hm hs
  obtain ⟨r, hs, hrun⟩ := exists_of_run?_cons hrun
  obtain rfl := step_of_star (s := { s with behind := .slash }) hm rfl hs
  obtain ⟨text, v, hb, hlen, hrun⟩ := exists_of_comment (w := w) rfl hrun hp
  exact (ih.afterLexeme (by omega) hrun).token (Nat.le_succ_of_le (Nat.le_of_lt hlen))
    (Lexeme.Step.comment hb).eq (fun _ => rfl) fun _ _ => ⟨rfl, rfl, fun _ => rfl⟩

include hp ih in
/-- Behind an opening bracket it does not matter whether an address starts there. -/
theorem continues_opened {b : Bracket} (h : s.opening? b = some r) (hl : v.length < n)
    (hr : r.run? marks v = some s') : Continues marks w s' (b :: s.brackets) v := by
  have hplain (h : r = ⟨b :: s.brackets, .plain, .word []⟩) : Continues marks w s' (b :: s.brackets) v :=
    ih.afterLexeme hl (h ▸ hr)
  unfold opening? at h
  split at h
  next => contradiction
  next =>
    split at h
    next =>
      cases h
      exact ih.afterLexeme hl (run?_of_address_first hr hp)
    next => exact hplain (Option.some.inj h).symm
  next =>
    split at h
    next => contradiction
    next => exact hplain (Option.some.inj h).symm
  next => exact hplain (Option.some.inj h).symm

theorem ne_curly_of_opening? {b : Bracket} (h : s.opening? b = some r) :
    s.brackets = [] → b ≠ .curly := by
  rintro hb rfl
  rw [opening?, if_pos hb] at h
  contradiction

include hp ih hl hm in
theorem continues_opening {b : Bracket} (hr : s.run? marks (b.opening :: t) = some s') :
    Continues marks w s' s.brackets (b.opening :: t) := by
  obtain ⟨r, hs, hrun⟩ := exists_of_run?_cons hr
  have ho := step_of_opening hm hs
  refine Continues.nested (o := .bracket b) (continues_opened hp ih ho hl hrun) (Nat.le_refl _)
    (Lexeme.next_opening b _) (fun hb he => ne_curly_of_opening? ho hb (Opener.bracket.inj he)) ?_
  exact fun v' hv' hr' => ih.afterLexeme (by omega) hr'

include hm in
theorem continues_closing {b : Bracket} (hr : s.run? marks (b.closing :: t) = some s') :
    Continues marks w s' s.brackets (b.closing :: t) := by
  obtain ⟨r, hs, hrun⟩ := exists_of_run?_cons hr
  have hc := step_of_closing hm hs
  unfold closing? at hc
  split at hc
  next => contradiction
  next d bs hb =>
    split at hc
    next he =>
      cases hc
      rw [hb, he]
      exact ⟨t, [], Nat.lt_succ_self _, .nil, nofun, hrun⟩
    next => contradiction

include hw in
theorem exists_of_name {name arguments : Text} (hm : s.mode = .plain) (hk : s.behind.IsKnown)
    (ho : c ≠ '(') (he : ¬Escaped (c :: (t ++ w)))
    (hn : readName (c :: (t ++ w)) = (name, '(' :: arguments))
    (hr : s.run? marks (c :: t) = some s') :
    ∃ v r, arguments = v ++ w ∧ v.length < t.length ∧
      { s with behind := .word (name.reverse ++ s.behind.name) }.opening? .round = some r ∧
      r.run? marks v = some s' := by
  rcases readName_cases (c :: (t ++ w)) with ⟨ha, hname⟩ | ⟨x, y, hx, hname⟩
  · rw [hn] at ha hname
    cases name with
    | nil => exact absurd (List.cons_eq_cons.mp ha).1.symm ho
    | cons d x =>
      obtain ⟨rfl, ha'⟩ := List.cons_eq_cons.mp ha
      obtain ⟨hd, hx⟩ := List.forall_mem_cons.mp hname
      obtain ⟨v, rfl, hv⟩ := exists_of_append_eq ha'.symm
        (fun c hc => isJoining_of_isNameChar (hx c hc)) fun c hc => (hw.head c hc).1
      cases v with
      | nil => exact absurd (hw.head '(' (by rw [← List.nil_append w, ← hv]; rfl)).2.2 (by decide)
      | cons e v =>
        obtain ⟨rfl, hv'⟩ := List.cons_eq_cons.mp hv
        have hrun : s.run? marks (d :: x) =
            some { s with behind := .word ((d :: x).reverse ++ s.behind.name) } := by
          rw [run?_cons, step?_of_not_special hm (not_special_of_isJoining (isJoining_of_isNameChar hd)),
            Behind.next?_of_isNameChar hk hd]
          let r : Reader := { s with behind := .word (d :: s.behind.name) }
          have h : r.run? marks x = _ := run?_of_isNameChar hm rfl hx
          simpa using h
        rw [← List.cons_append, run?_append_of_eq_some hrun] at hr
        obtain ⟨r, hs, hr⟩ := exists_of_run?_cons hr
        exact ⟨v, r, hv', by simp; omega, step_of_opening (b := .round) hm hs, hr⟩
  · exact absurd ⟨x, y, hx, fun c hc => isJoining_of_isNameChar (hname c hc)⟩ he

theorem endsInUrl_of_lowerAscii {name : Text} (h : Text.lowerAscii name = "url") (y : Text) :
    endsInUrl (name.reverse ++ y) = true := by
  have hr : Text.lowerAscii name.reverse = "lru" := by
    have hm : Text.lowerAscii name.reverse = (Text.lowerAscii name).reverse := List.map_reverse
    rw [hm, h]
    rfl
  have ha : Text.lowerAscii (name.reverse ++ y) = Text.lowerAscii name.reverse ++ Text.lowerAscii y :=
    List.map_append
  rw [endsInUrl, ha, hr]
  rfl

include hw hp ih hl hm in
theorem continues_url {name arguments : Text} (hk : s.behind.IsKnown) (ho : c ≠ '(')
    (he : ¬Escaped (c :: (t ++ w))) (hu : Lexeme.OpensUrl c (t ++ w) name arguments)
    (hr : s.run? marks (c :: t) = some s') : Continues marks w s' s.brackets (c :: t) := by
  obtain ⟨v, r, rfl, hlen, hop, hrun⟩ := exists_of_name hw hm hk ho he hu.read hr
  have hop : r = ⟨.round :: s.brackets, .address true, .word []⟩ := by
    change some (if endsInUrl (name.reverse ++ s.behind.name) = true then _ else _) = some r at hop
    rw [if_pos (endsInUrl_of_lowerAscii hu.name _)] at hop
    exact (Option.some.inj hop).symm
  subst hop
  -- the address starts with a character of its own
  have hhead : v.head?.any isQuote = false ∧ (v ++ w).dropWhile isSpace = v ++ w := by
    cases v with
    | nil =>
      cases hrun
      contradiction
    | cons d v =>
      obtain ⟨r, hs, -⟩ := exists_of_run?_cons hrun
      have hbare := hu.bare
      have hd : isSpace d = false := by
        rcases step_of_address rfl hs with ⟨rfl, -⟩ | ⟨-, ⟨-, hq, -⟩ | ⟨ha, -⟩⟩
        · rfl
        · rcases Lexeme.isQuote_cases hq with rfl | rfl <;> rfl
        · simp only [isAddressChar, Bool.not_eq_true', Bool.or_eq_false_iff] at ha
          exact ha.1.1
      have hdrop : (d :: v ++ w).dropWhile isSpace = d :: v ++ w := by
        rw [List.cons_append, List.dropWhile_cons_of_neg (by simp [hd])]
      rw [Lexeme.isBareUrl, hdrop] at hbare
      exact ⟨by simpa using hbare, hdrop⟩
  obtain ⟨value, v', hv, hlen', hrun⟩ := exists_of_address (w := w) rfl rfl hrun hp fun _ => hhead.1
  have hn : Lexeme.next c (t ++ w) = (.token (.url value true), v' ++ w) := by
    rw [hu.next_eq, readUrl, hhead.2, hv]
    rfl
  exact (ih.afterLexeme (by omega) hrun).token (by omega) hn (fun _ => rfl)
    fun _ _ => ⟨rfl, rfl, fun _ => rfl⟩

theorem isWhole_of_step {tok : Token} (h : Lexeme.Step c t (.token tok) u) (hq : isQuote c = false)
    (hu : ∀ name arguments, ¬Lexeme.OpensUrl c t name arguments) (p : Text) :
    (Node.token p tok).isWhole = true := by
  cases h with
  | string hc => rw [hq] at hc; contradiction
  | openString hc => rw [hq] at hc; contradiction
  | url ho => exact absurd ho (hu _ _)
  | openUrl ho => exact absurd ho (hu _ _)
  | _ => rfl

theorem stands_of_step {tok : Token} (h : Lexeme.Step c t (.token tok) u)
    (hs : c ≠ ';') (hb : marks = true → c ≠ '!') {p : Text} (hw : (Node.token p tok).isWhole = true) :
    Stands marks (.token p tok) := by
  have hne {d : Char} (hd : c ≠ d) : (Node.token p tok).isLiteral [d] = false := by
    refine eq_false_of_ne_true fun hl => hd ?_
    unfold Node.isLiteral at hl
    split at hl
    next he =>
      cases he
      rw [beq_iff_eq.mp hl] at h
      exact h.eq_of_literal.symm
    next => contradiction
  refine ⟨hw, ?_, fun hm => hne (hb hm)⟩
  rw [Node.isPlain, hne hs]
  rfl

include hw hp ih hl in
theorem continues_other (hrest : Rests s (c :: t)) (hq : isQuote c = false)
    (ho : Bracket.ofOpening? c = none) (hc : Bracket.ofClosing? c = none)
    (hcomment : ¬(c = '/' ∧ t.head? = some '*')) (hr : s.run? marks (c :: t) = some s') :
    Continues marks w s' s.brackets (c :: t) := by
  have hm := hrest.mode
  obtain ⟨r, hs, hrun⟩ := exists_of_run?_cons hr
  obtain ⟨-, rfl⟩ | ⟨hord, b, hn, rfl⟩ := (plainStep_of_step? hm hs).cases_of_none hq ho hc
    fun h => hrest.apart h.2 (by rw [h.1]; rfl)
  · -- a mark of importance would go on to the end
    exact absurd (IsMarking.run ⟨_, rfl⟩ hrun) (not_isMarking_of_plain hp)
  obtain ⟨hkb, hslash⟩ := Behind.isKnown_of_next? hn
  have he : ¬Escaped (t ++ w) := not_escaped (s := { s with behind := b }) hw hm hkb hrun
  have he' : ¬Escaped (c :: (t ++ w)) := fun h => he (h.tail hord.backslash)
  have hround : c ≠ '(' := by
    rintro rfl
    contradiction
  have hcomment' : ¬(c = '/' ∧ (t ++ w).head? = some '*') := by
    rintro ⟨rfl, hh⟩
    cases t with
    | nil => exact absurd (hw.head '*' hh).2.2 (by decide)
    | cons d t => exact hcomment ⟨rfl, hh⟩
  by_cases hurl : ∃ name arguments, Lexeme.OpensUrl c (t ++ w) name arguments
  · obtain ⟨name, arguments, hu⟩ := hurl
    exact continues_url hw hp ih hl hm hrest.known hround he' hu hr
  have hurl : ∀ name arguments, ¬Lexeme.OpensUrl c (t ++ w) name arguments := by simpa using hurl
  have hstep := Lexeme.step_next c (t ++ w)
  cases hmark : (Lexeme.next c (t ++ w)).1 with
  | token tok =>
    rw [hmark] at hstep
    obtain ⟨v, r, hv, hlen, hbr, hrest', hrun'⟩ := exists_rest_of_takes (s := { s with behind := b }) hw
      hm hkb (fun h hh => hcomment' ⟨hslash h, hh⟩) hrun (hstep.takes hq hord.backslash hcomment' hurl)
    have hwhole := isWhole_of_step hstep hq hurl
    have hv' := ih r v (by omega) hrest' hrun'
    rw [hbr] at hv'
    refine hv'.token hlen (Prod.ext hmark hv) hwhole fun hbr p => ?_
    exact stands_of_step hstep (fun h => hord.semicolon ⟨hbr, h⟩)
      (fun hm h => hord.bang ⟨hbr, hm, h⟩) (hwhole p)
  | opening o =>
    rw [hmark] at hstep
    rcases hstep.cases_of_opening with ⟨d, rfl⟩ | ⟨name, rfl, hname⟩
    · cases d <;> contradiction
    · obtain ⟨v, r, hv, hlen, hop, hrun'⟩ := exists_of_name hw hm hrest.known hround he' hname hr
      refine Continues.nested (o := .function name) (continues_opened
        (s := { s with behind := .word (name.reverse ++ s.behind.name) }) hp ih hop (by omega) hrun')
        (Nat.le_of_lt hlen) (Prod.ext hmark hv) (fun _ => nofun) fun v' hv' hr' => ?_
      exact ih.afterLexeme (by omega) hr'
  | closing d =>
    rw [hmark] at hstep
    obtain ⟨rfl, -⟩ := hstep.of_closing
    cases d <;> contradiction

end

/-- A contained text is read in front of every text that shuts it. -/
theorem continues (hw : Shuts w) (hp : s'.mode = .plain) (hb : s'.brackets = [])
    (hrest : Rests s t) (hr : s.run? marks t = some s') : Continues marks w s' s.brackets t := by
  induction hl : t.length using Nat.strongRecOn generalizing s t with
  | ind n ih =>
    have ih : Shorter marks w s' n := fun r v hv hrest hr => ih v.length hv hrest hr rfl
    cases t with
    | nil =>
      cases hr
      rw [hb]
      exact fun closer => ⟨[], .nil, nofun⟩
    | cons c t =>
      have hlt : t.length < n := by rw [← hl]; exact Nat.lt_succ_self _
      have hm := hrest.mode
      by_cases hq : isQuote c = true
      · exact continues_string hp ih hlt hm hq hr
      cases ho : Bracket.ofOpening? c with
      | some b =>
        obtain rfl := Bracket.opening_of_ofOpening? ho
        exact continues_opening hp ih hlt hm hr
      | none =>
        cases hc : Bracket.ofClosing? c with
        | some b =>
          obtain rfl := Bracket.closing_of_ofClosing? hc
          exact continues_closing hm hr
        | none =>
          by_cases hcomment : c = '/' ∧ t.head? = some '*'
          · obtain ⟨rfl, hh⟩ := hcomment
            obtain ⟨t, rfl⟩ := List.head?_eq_some_iff.mp hh
            exact continues_comment hp ih (by simp at hlt; omega) hm hr
          · exact continues_other hw hp ih hlt hrest (eq_false_of_ne_true hq) ho hc hcomment hr

end Reader

end CustomProperties.Syntax

import CustomProperties.Proofs.Syntax.ContainedNodes
import CustomProperties.Proofs.Text.Strip

/-! # Marks of importance

A reader that looks for marks of importance finds one at the end of a text exactly if it stands
outside of all brackets, strings and comments. Nodes without an exclamation mark of their own are
not written with such a mark, whatever stands in them.
-/

namespace CustomProperties.Syntax

namespace Reader

variable {marks : Bool} {s s' r : Reader} {c : Char} {t u : Text} {b : Bracket}

def isFinal (s : Reader) : Bool := s.brackets.isEmpty && (s.mode == .plain || s.mode == .mark [])

theorem of_isFinal (h : s.isFinal = true) :
    s.brackets = [] ∧ (s.mode = .plain ∨ s.mode = .mark []) := by
  simpa only [isFinal, Bool.and_eq_true, Bool.or_eq_true, List.isEmpty_iff, beq_iff_eq] using h

theorem not_isMarking_of_opening? (h : s.opening? b = some s') : ¬s'.IsMarking := by
  unfold opening? at h
  rintro ⟨rest, hm⟩
  split at h
  next => contradiction
  next =>
    cases h
    split at hm <;> contradiction
  next =>
    split at h
    next => contradiction
    next => cases h; contradiction
  next => cases h; contradiction

theorem not_isMarking_of_closing? (h : s.closing? b = some s') : ¬s'.IsMarking := by
  unfold closing? at h
  rintro ⟨rest, hm⟩
  split at h
  next => contradiction
  next =>
    split at h
    next => cases h; contradiction
    next => contradiction

theorem of_isMarking_step (h : s.step? marks c = some s') (hs : ¬s.IsMarking) (hs' : s'.IsMarking) :
    c = '!' ∧ s.mode = .plain ∧ s.brackets = [] ∧ s' = { s with mode := .mark "important" } := by
  cases hm : s.mode with
  | plain =>
    cases plainStep_of_step? hm h with
    | opening ho => exact absurd hs' (not_isMarking_of_opening? ho)
    | closing hc => exact absurd hs' (not_isMarking_of_closing? hc)
    | mark hb _ => exact ⟨rfl, rfl, hb, rfl⟩
    | ordinary => exact absurd hs' (not_isMarking_of_plain hm)
    | _ =>
      obtain ⟨rest, hr⟩ := hs'
      contradiction
  | address first =>
    rcases step_of_address hm h with ⟨-, hc⟩ | ⟨-, ⟨-, -, rfl⟩ | ⟨-, rfl⟩⟩
    · exact absurd hs' (not_isMarking_of_closing? hc)
    all_goals
      obtain ⟨rest, hr⟩ := hs'
      contradiction
  | string quote =>
    rcases step_of_string hm h with ⟨-, rfl⟩ | ⟨-, ⟨-, rfl⟩ | ⟨-, -, rfl⟩⟩
    · exact absurd hs' (not_isMarking_of_plain rfl)
    · obtain ⟨rest, hr⟩ := hs'
      contradiction
    · exact absurd hs' hs
  | escape quote =>
    obtain rfl := step_of_escape hm h
    obtain ⟨rest, hr⟩ := hs'
    contradiction
  | comment star =>
    rcases step_of_comment hm h with ⟨-, -, rfl⟩ | ⟨-, rfl⟩
    · exact absurd hs' (not_isMarking_of_plain rfl)
    · obtain ⟨rest, hr⟩ := hs'
      contradiction
  | mark rest => exact absurd ⟨rest, hm⟩ hs

theorem eq_of_mark {rest : Text} (hm : s.mode = .mark rest) (h : s.run? marks t = some s')
    (hs' : s'.mode = .mark []) : t = rest := by
  induction t generalizing s rest with
  | nil =>
    cases h
    rw [hm] at hs'
    cases hs'
    rfl
  | cons c t ih =>
    obtain ⟨r, hc, hr⟩ := exists_of_run?_cons h
    obtain ⟨hh, rfl⟩ := step_of_mark hm hc
    obtain ⟨rest, rfl⟩ := List.head?_eq_some_iff.mp hh
    exact congrArg (c :: ·) (ih rfl hr)

theorem exists_of_mark (h : s.run? marks t = some s') (hs : ¬s.IsMarking)
    (hs' : s'.mode = .mark []) : ∃ v r, t = v ++ "!important" ∧ s.run? marks v = some r ∧
      r.mode = .plain ∧ r.brackets = [] := by
  induction t generalizing s with
  | nil =>
    cases h
    exact absurd ⟨_, hs'⟩ hs
  | cons c t ih =>
    obtain ⟨r, hc, hr⟩ := exists_of_run?_cons h
    by_cases hm : r.IsMarking
    · obtain ⟨rfl, hp, hb, rfl⟩ := of_isMarking_step hc hs hm
      rw [eq_of_mark rfl hr hs']
      exact ⟨[], s, rfl, rfl, hp, hb⟩
    · obtain ⟨v, q, rfl, hv, hq⟩ := ih hr hm
      exact ⟨c :: v, q, rfl, by rw [run?_cons, hc]; exact hv, hq⟩

end Reader

/-! ### Texts without marks -/

/-- An exclamation mark with nothing but names and blanks behind it follows a character, which is
no blank. -/
def Unmarked (t : Text) : Prop := ∀ u x, t = u ++ '!' :: x →
  (∀ c ∈ x, isNameChar c = true ∨ Text.isBlank c = true) → u.getLast?.any (· ≠ ' ') = true

namespace Unmarked

variable {t u name : Text} {c : Char}

theorem of_not_mem (h : '!' ∉ t) : Unmarked t := by
  rintro u x rfl -
  exact absurd (List.mem_append_right u List.mem_cons_self) h

theorem append (h : Unmarked t) (h' : Unmarked u) : Unmarked (t ++ u) := by
  intro v x he hx
  rcases List.append_eq_append_iff.mp he with ⟨v, rfl, hv⟩ | ⟨v, rfl, hv⟩
  · have hl := h' v x hv hx
    cases v using List.reverseRecOn with
    | nil => contradiction
    | append_singleton v d =>
      rw [← List.append_assoc, List.getLast?_concat]
      rwa [List.getLast?_concat] at hl
  · cases v with
    | nil =>
      have hl := h' [] x hv.symm hx
      contradiction
    | cons d v =>
      obtain ⟨rfl, rfl⟩ := List.cons_eq_cons.mp hv
      exact h _ v rfl fun c hc => hx c (List.mem_append_left _ hc)

/-- What ends in a bracket, a quote or another mark ends in no name. -/
theorem concat (hn : isNameChar c = false) (hb : Text.isBlank c = false) (hc : c ≠ '!') (t : Text) :
    Unmarked (t ++ [c]) := by
  intro u x he hx
  have hl : ('!' :: x).getLast? = some c := by
    have h := congrArg List.getLast? he
    rw [List.getLast?_concat, List.getLast?_append_of_ne_nil _ (List.cons_ne_nil _ _)] at h
    exact h.symm
  rcases List.mem_cons.mp (List.mem_of_getLast? hl) with rfl | hm
  · contradiction
  · rcases hx c hm with h | h
    · rw [hn] at h; contradiction
    · rw [hb] at h; contradiction

theorem behind {d : Char} (hb : c ≠ ' ') (hc : c ≠ '!') (ht : '!' ∉ t) : Unmarked (c :: d :: t) := by
  intro u x he _
  match u, he with
  | [], he => exact absurd (List.cons_eq_cons.mp he).1 hc
  | [e], he =>
    obtain ⟨rfl, -⟩ := List.cons_eq_cons.mp he
    simpa using hb
  | e :: e' :: u, he =>
    obtain ⟨-, he⟩ := List.cons_eq_cons.mp he
    obtain ⟨-, rfl⟩ := List.cons_eq_cons.mp he
    exact absurd (List.mem_append_right u List.mem_cons_self) ht

theorem escaped (c : Char) : Unmarked ['\\', c] := behind (by decide) (by decide) nofun

theorem flatMap {f : Char → Text} (h : ∀ c, Unmarked (f c)) (t : Text) : Unmarked (t.flatMap f) := by
  induction t with
  | nil => exact of_not_mem nofun
  | cons c t ih => exact (h c).append ih

theorem of_isNameChar (h : isNameChar c = true) : Unmarked [c] := by
  refine of_not_mem fun hm => ?_
  obtain rfl := List.mem_singleton.mp hm
  contradiction

theorem breakEscape_getD (h : Unmarked u) : Unmarked ((breakEscape? c).getD u) := by
  unfold breakEscape?
  have hs {v : Text} (hv : '!' ∉ v) : Unmarked ((some v).getD u) := of_not_mem hv
  split
  next => exact hs (by decide)
  split
  next => exact hs (by decide)
  split
  next => exact hs (by decide)
  next => exact h

theorem writeName (name : Text) : Unmarked (writeName name) := by
  refine flatMap (fun c => ?_) name
  unfold writeNameChar
  split
  next h => exact of_isNameChar h
  next => exact breakEscape_getD (escaped c)

theorem hexDigits (n : Nat) : Unmarked (hexDigits n) := by
  refine of_not_mem fun hm => ?_
  have hh := (hexDigits_spec n).1 _ hm
  contradiction

theorem writeNameStart (c : Char) : Unmarked (writeNameStart c) := by
  unfold Syntax.writeNameStart
  split
  next h => exact of_isNameChar (by simp [isNameChar, h])
  split
  next =>
    have hb : Unmarked ['\\'] := of_not_mem (by decide)
    exact (hb.append (hexDigits _)).append (of_not_mem (by decide))
  next => exact breakEscape_getD (escaped c)

theorem writeIdent (name : Text) : Unmarked (writeIdent name) := by
  have hh : Unmarked ['-'] := of_not_mem (by decide)
  unfold Syntax.writeIdent
  split
  next => exact of_not_mem (by decide)
  next => exact hh.append (hh.append (writeName _))
  next => exact hh.append ((writeNameStart _).append (writeName _))
  next => exact (writeNameStart _).append (writeName _)
  next => exact of_not_mem nofun

theorem writeUnit (unit : Text) : Unmarked (Token.writeUnit unit) := by
  unfold Token.writeUnit
  split
  next => exact of_not_mem List.not_mem_nil
  next =>
    split
    next => exact (of_not_mem (by decide)).append (writeName _)
    next => exact writeIdent _

theorem writeRange (r : CodeRange) : Unmarked (Token.writeRange r) := by
  have hu : Unmarked "U+" := of_not_mem (by decide)
  unfold Token.writeRange
  split
  next => exact hu.append (hexDigits _)
  next => exact ((hu.append (hexDigits _)).append (of_not_mem (by decide))).append (hexDigits _)

theorem comment (t : Text) : Unmarked ("/*" ++ t ++ "*/") := by
  have he : ("/*" ++ t ++ "*/" : Text) = ("/*" ++ t ++ "*") ++ ['/'] := by simp
  rw [he]
  exact concat (by decide) (by decide) (by decide) _

theorem digits {rest : Text} (h : readNumber? t = some (u, rest)) : Unmarked u := by
  refine of_not_mem fun hm => ?_
  have hj := isJoining_readNumber? h _ hm
  contradiction

theorem not_isSuffix (h : Unmarked t) : ¬" !important" <:+ Text.strip t := by
  rintro ⟨u, he⟩
  obtain ⟨before, after, ht, hb⟩ := Text.exists_of_strip t
  have hs : t = (before ++ u ++ [' ']) ++ '!' :: ("important" ++ after) := by
    rw [ht, ← he]
    simp
  have hl := h _ _ hs fun c hc => by
    rcases List.mem_append.mp hc with hc | hc
    · have hn : ∀ c ∈ ("important" : Text), isNameChar c = true := by decide
      exact .inl (hn c hc)
    · exact .inr (hb c (List.mem_append_right _ hc))
  rw [List.getLast?_concat] at hl
  contradiction

end Unmarked

open Node (Parses Stands)

theorem Lexeme.Step.unmarked {c : Char} {t u p : Text} {tok : Token}
    (h : Step c t (.token tok) u) (hw : (Node.token p tok).isWhole = true)
    (hb : (Node.token p tok).isLiteral ['!'] = false) : Unmarked tok.write := by
  have hsingle (hc : c ≠ '!') : Unmarked [c] := .of_not_mem (by simpa using hc.symm)
  cases h with
  | whitespace hs =>
    refine .of_not_mem fun hm => ?_
    rcases List.mem_cons.mp hm with rfl | hm
    · contradiction
    · exact absurd (List.all_eq_true.mp List.all_takeWhile _ hm) (by decide)
  | codeRange => exact .writeRange _
  | closingMark => exact .of_not_mem (by decide)
  | ident => exact .writeIdent _
  | url => exact .concat (by decide) (by decide) (by decide) _
  | openUrl => contradiction
  | badUrl => exact .concat (t := "url([bad url]") (by decide) (by decide) (by decide)
  | number _ _ hn => exact .digits hn
  | percentage _ _ hn => exact .concat (by decide) (by decide) (by decide) _
  | dimension _ _ hn => exact (Unmarked.digits hn).append (.writeUnit _)
  | atKeyword =>
    have ha : Unmarked ['@'] := .of_not_mem (by decide)
    exact ha.append (.writeIdent _)
  | atSign => exact .of_not_mem (by decide)
  | hash =>
    have ha : Unmarked ['#'] := .of_not_mem (by decide)
    have hn {name : Text} (isIdent : Bool) :
        Unmarked (if isIdent then writeIdent name else writeName name) := by
      cases isIdent
      · exact .writeName name
      · exact .writeIdent name
    exact ha.append (hn _)
  | hashSign => exact .of_not_mem (by decide)
  | string => exact .concat (by decide) (by decide) (by decide) _
  | openString => contradiction
  | badString => exact .of_not_mem (by decide)
  | comment => exact .comment _
  | openComment => exact .comment _
  | openingMark =>
    have ho : Unmarked ('<' :: '!' :: "--") := .behind (by decide) (by decide) (by decide)
    exact ho
  | bars => exact .of_not_mem (by decide)
  | joined hj =>
    have hc : c ≠ '!' := by
      rintro rfl
      contradiction
    exact (hsingle hc).append (.of_not_mem (by decide))
  | sign =>
    refine hsingle ?_
    rintro rfl
    contradiction

namespace Node

variable {closer : Option Bracket} {s rest : Text} {ns : List Node}

theorem unmarked_between (k : Option Kind) (n : Node) : Unmarked (between k n) := by
  unfold between
  split
  next => exact .of_not_mem nofun
  next =>
    split
    next => exact .of_not_mem (by decide)
    next =>
      split
      next => exact .of_not_mem (by decide)
      next => exact .of_not_mem nofun

theorem unmarked_writeFrom (h : ∀ n ∈ ns, Unmarked n.write) (k : Option Kind) :
    Unmarked (writeFrom k ns) := by
  induction ns generalizing k with
  | nil => exact .of_not_mem nofun
  | cons n ns ih =>
    rw [List.forall_mem_cons] at h
    rw [writeFrom_cons]
    exact (unmarked_between k n).append (h.1.append (ih h.2 _))

theorem unmarked_comment {n : Node} (h : n.isComment = true) : Unmarked n.write := by
  unfold isComment at h
  split at h
  next => exact .comment _
  next => contradiction

theorem unmarked_node {o : Opener} {p : Text} {content : List Node}
    (h : (o.node p content).isWhole = true) : Unmarked (o.node p content).write := by
  cases o with
  | bracket b =>
    have hw : (block p b content).write = (b.opening :: writeFrom none content) ++ [b.closing] := by
      rw [write]
      rfl
    change Unmarked (block p b content).write
    rw [hw]
    cases b <;> exact .concat (by decide) (by decide) (by decide) _
  | function name =>
    have hc : lastIsCutOff content = false := not_isCutOff_of_isWhole h
    have hw : (function p name content).write =
        (writeIdent name ++ '(' :: writeFrom none content) ++ [')'] := by
      rw [write, hc]
      simp
    change Unmarked (function p name content).write
    rw [hw]
    exact .concat (by decide) (by decide) (by decide) _

/-- Nodes that are no exclamation marks are written without a mark. -/
theorem Parses.unmarked (h : Parses closer s ns rest) (hs : ∀ n ∈ ns, Stands true n) :
    ∀ n ∈ ns, Unmarked n.write := by
  induction h with
  | nil => exact nofun
  | @token _ c t _ _ tok _ hn _ ih =>
    obtain ⟨hfirst, hs⟩ := List.forall_mem_cons.mp hs
    have hst := Lexeme.Step.of_next hn
    exact List.forall_mem_cons.mpr ⟨hst.unmarked hfirst.whole (hfirst.unmarked rfl), ih hs⟩
  | @stray _ _ _ b _ _ _ ih =>
    obtain ⟨-, hs⟩ := List.forall_mem_cons.mp hs
    have hb : Unmarked [b.closing] := by cases b <;> exact .of_not_mem (by decide)
    exact List.forall_mem_cons.mpr ⟨hb, ih hs⟩
  | nested _ _ _ _ _ ih =>
    obtain ⟨hfirst, hs⟩ := List.forall_mem_cons.mp hs
    exact List.forall_mem_cons.mpr ⟨unmarked_node hfirst.whole, ih hs⟩

end Node

end CustomProperties.Syntax

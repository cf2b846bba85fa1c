import CustomProperties.Proofs.Syntax.Copied
import CustomProperties.Proofs.Syntax.Respelling

/-! # Tidy nodes are read back

What is written for tidy nodes is read as nodes that differ from them only in their places and in
the empty comments that the writer puts between neighbours.
-/

namespace CustomProperties.Syntax

namespace Node

mutual

/-- All tokens of a node are tidy, and but for blanks nothing that is written would be stripped. -/
def isTidy : Node → Bool
  | token place t =>
    t.isTidy place && ((token place t).isBlank || hasFirmEnds t.write)
  | block _ _ content => areTidy content
  | function place name arguments =>
    (writeIdent name).isPrefixOf place && !(writeIdent name).head?.any Text.isBlank &&
      areTidy arguments

def areTidy : List Node → Bool
  | [] => true
  | n :: ns => n.isTidy && areTidy ns

end

theorem areTidy_eq (ns : List Node) : areTidy ns = ns.all isTidy := by
  induction ns with
  | nil => rfl
  | cons n ns ih => rw [areTidy, ih, List.all_cons]

/-- The same nodes at other places, with the empty comments of the writer. -/
inductive Like : Option Kind → List Node → List Node → Prop

  | nil {k : Option Kind} : Like k [] []

  | token {k : Option Kind} {p q : Text} {t : Token} {ns ms : List Node} :
      between k (.token p t) = [] → Like (some t.kind) ns ms →
      Like k (.token p t :: ns) (.token q t :: ms)

  | nested {k : Option Kind} {p q : Text} {o : Opener} {content content' ns ms : List Node} :
      between k (o.node p content) = [] → Like none content content' →
      Like (some (o.node p content).kind) ns ms →
      Like k (o.node p content :: ns) (o.node q content' :: ms)

  | parted {k : Option Kind} {q : Text} {n : Node} {ns ms : List Node} :
      between k n = "/**/" → Like none (n :: ns) ms →
      Like k (n :: ns) (.token q (.comment []) :: ms)

theorem clash_other (a : Kind) : a.clash .other = false := by
  cases a <;> simp [Kind.clash, Kind.isNamed, Kind.isNumeric, Kind.isLiteral]

theorem clash_backslash (b : Kind) : (Kind.literal ['\\']).clash b = false := by
  simp [Kind.clash, Kind.isOpenEnded, Kind.endsInName, Kind.isLiteral]

@[simp] theorem between_other (n : Node) : between (some .other) n = [] := rfl

theorem writeFrom_other (ns : List Node) : writeFrom (some .other) ns = writeFrom none ns := by
  cases ns with
  | nil => rfl
  | cons n ns => rw [writeFrom_cons, writeFrom_cons, between_other]; rfl

theorem between_cases {k : Option Kind} (hk : k ≠ some (.literal ['\\'])) (n : Node) :
    between k n = [] ∨ between k n = "/**/" := by
  unfold between
  split
  next => exact .inl rfl
  next a =>
    split
    next => exact .inr rfl
    next => exact .inl (if_neg fun h => hk (congrArg some h.1))

theorem between_comment {k : Option Kind} (hk : k ≠ some (.literal ['\\'])) (q text : Text) :
    between k (.token q (.comment text)) = [] := by
  cases k with
  | none => rfl
  | some a =>
    unfold between
    dsimp only
    have hc : a.clash (token q (.comment text)).kind = false := clash_other a
    rw [hc, if_neg Bool.false_ne_true]
    exact if_neg fun h => hk (congrArg some h.1)

theorem ne_backslash_of_between {k : Option Kind} {n : Node} (h : between k n = "/**/") :
    k ≠ some (.literal ['\\']) := by
  rintro rfl
  have hb : between (some (.literal ['\\'])) n = if !n.startsWithBreak then ['\n'] else [] := by
    simp [between, clash_backslash]
  rw [hb] at h
  split at h <;> contradiction

theorem between_congr {n m : Node} (hk : n.kind = m.kind)
    (hb : n.startsWithBreak = m.startsWithBreak) (k : Option Kind) : between k n = between k m := by
  cases k with
  | none => rfl
  | some a =>
    unfold between
    simp only [hk, hb]

theorem between_token (k : Option Kind) (p q : Text) (t : Token) :
    between k (.token p t) = between k (.token q t) := by
  refine between_congr (n := .token p t) (m := .token q t) rfl ?_ k
  unfold startsWithBreak
  split <;> split <;> simp_all

theorem kind_node (o : Opener) (p q : Text) (content content' : List Node) :
    (o.node p content).kind = (o.node q content').kind := by
  cases o with
  | bracket b => cases b <;> rfl
  | function name => rfl

theorem between_node (k : Option Kind) (o : Opener) (p q : Text) (content content' : List Node) :
    between k (o.node p content) = between k (o.node q content') := by
  refine between_congr (kind_node o p q content content') ?_ k
  cases o <;> rfl

theorem isCutOff_token (p q : Text) (t : Token) : (token p t).isCutOff = (token q t).isCutOff := by
  cases t with
  | string _ closed => cases closed <;> rfl
  | _ => rfl

namespace Like

variable {k : Option Kind} {ns ms : List Node}

theorem eq_nil_iff (h : Like k ns ms) : ms = [] ↔ ns = [] := by
  cases h <;> simp

theorem lastIsCutOff_eq (h : Like k ns ms) : lastIsCutOff ms = lastIsCutOff ns := by
  induction h with
  | nil => rfl
  | @token _ p q t _ _ _ h ih =>
    simp only [lastIsCutOff_cons, h.eq_nil_iff, isCutOff_token q p, ih]
  | @nested _ p q o content content' _ _ _ _ h ihc ih =>
    have hn : (o.node q content').isCutOff = (o.node p content).isCutOff := by
      cases o with
      | bracket b => rfl
      | function name => exact ihc
    simp only [lastIsCutOff_cons, h.eq_nil_iff, hn, ih]
  | parted _ h ih =>
    rw [lastIsCutOff_cons, if_neg, ih]
    rw [h.eq_nil_iff]
    exact List.cons_ne_nil _ _

theorem writeFrom_eq (h : Like k ns ms) : writeFrom k ms = writeFrom k ns := by
  induction h with
  | nil => rfl
  | @token k p q t _ _ _ _ ih =>
    rw [writeFrom_cons, writeFrom_cons, between_token k q p]
    exact congrArg (fun u => between k (.token p t) ++ (t.write ++ u)) ih
  | @nested k p q o content content' _ _ _ hc _ ihc ih =>
    have hw : (o.node q content').write = (o.node p content).write := by
      cases o with
      | bracket b => exact congrArg (fun t => b.opening :: (t ++ [b.closing])) ihc
      | function name =>
        change writeIdent name ++ '(' :: (writeFrom none content' ++ _) =
          writeIdent name ++ '(' :: (writeFrom none content ++ _)
        rw [ihc, hc.lastIsCutOff_eq]
    rw [writeFrom_cons, writeFrom_cons, between_node k o q p content' content, hw,
      kind_node o q p content' content, ih]
  | @parted k q n ns ms hb _ ih =>
    have ho : (Node.token q (.comment [])).kind = .other := rfl
    have hw : (Node.token q (.comment [])).write = "/**/" := rfl
    rw [writeFrom_cons, between_comment (ne_backslash_of_between hb), ho, writeFrom_other, ih, hw, writeFrom_cons,
      writeFrom_cons, hb]
    rfl

end Like

/-! ### One node and another like it -/

inductive Alike : Node → Node → Prop

  | token {p q : Text} {t : Token} : Alike (.token p t) (.token q t)

  | nested {p q : Text} {o : Opener} {content content' : List Node} :
      Alike (o.node p content) (o.node q content')

namespace Alike

variable {n m : Node}

theorem body?_isSome (h : Alike n m) : m.body?.isSome = n.body?.isSome := by
  cases h with
  | token => rfl
  | @nested _ _ o =>
    cases o with
    | bracket b => cases b <;> rfl
    | function name => rfl

theorem isLiteral (h : Alike n m) (text : Text) : m.isLiteral text = n.isLiteral text := by
  cases h with
  | @token _ _ t => cases t <;> rfl
  | @nested _ _ o => cases o <;> rfl

theorem kind (h : Alike n m) : m.kind = n.kind := by
  cases h with
  | token => rfl
  | @nested p q o content content' => exact kind_node o q p content' content

end Alike

namespace Like

variable {k : Option Kind} {ns ms ns' : List Node} {n m : Node}

theorem alike_of_mem (h : Like k ns ms) (hm : m ∈ ms) :
    (∃ q, m = .token q (.comment [])) ∨ ∃ n ∈ ns, Alike n m := by
  induction h with
  | nil => contradiction
  | token _ _ ih =>
    rcases List.mem_cons.mp hm with rfl | hm
    · exact .inr ⟨_, List.mem_cons_self, .token⟩
    · exact (ih hm).imp_right fun ⟨n, hn, ha⟩ => ⟨n, List.mem_cons_of_mem _ hn, ha⟩
  | nested _ _ _ _ ih =>
    rcases List.mem_cons.mp hm with rfl | hm
    · exact .inr ⟨_, List.mem_cons_self, .nested⟩
    · exact (ih hm).imp_right fun ⟨n, hn, ha⟩ => ⟨n, List.mem_cons_of_mem _ hn, ha⟩
  | @parted _ q _ _ _ _ _ ih =>
    rcases List.mem_cons.mp hm with rfl | hm
    · exact .inl ⟨q, rfl⟩
    · exact ih hm

theorem exists_of_cons (h : Like none (n :: ns) ms) :
    ∃ m ms', ms = m :: ms' ∧ Alike n m ∧ Like (some n.kind) ns ms' := by
  cases h with
  | token _ h => exact ⟨_, _, rfl, .token, h⟩
  | nested _ _ h => exact ⟨_, _, rfl, .nested, h⟩
  | parted hb => contradiction

theorem exists_of_append (h : Like k (ns ++ ns') ms) :
    ∃ ms₁ ms₂ k', ms = ms₁ ++ ms₂ ∧ Like k ns ms₁ ∧ Like k' ns' ms₂ := by
  generalize he : ns ++ ns' = all at h
  induction h generalizing ns with
  | nil =>
    obtain ⟨rfl, rfl⟩ := List.append_eq_nil_iff.mp he
    exact ⟨[], [], none, rfl, .nil, .nil⟩
  | token hb h ih =>
    rcases ns with _ | ⟨n, ns⟩
    · obtain rfl : ns' = _ := he
      exact ⟨[], _, _, rfl, .nil, .token hb h⟩
    · obtain ⟨rfl, hns⟩ := List.cons_eq_cons.mp he
      obtain ⟨ms₁, ms₂, k', rfl, h₁, h₂⟩ := ih hns
      exact ⟨_ :: ms₁, ms₂, k', rfl, .token hb h₁, h₂⟩
  | nested hb hc h _ ih =>
    rcases ns with _ | ⟨n, ns⟩
    · obtain rfl : ns' = _ := he
      exact ⟨[], _, _, rfl, .nil, .nested hb hc h⟩
    · obtain ⟨rfl, hns⟩ := List.cons_eq_cons.mp he
      obtain ⟨ms₁, ms₂, k', rfl, h₁, h₂⟩ := ih hns
      exact ⟨_ :: ms₁, ms₂, k', rfl, .nested hb hc h₁, h₂⟩
  | parted hb h ih =>
    rcases ns with _ | ⟨n, ns⟩
    · obtain rfl : ns' = _ := he
      exact ⟨[], _, _, rfl, .nil, .parted hb h⟩
    · obtain ⟨ms₁, ms₂, k', rfl, h₁, h₂⟩ := ih he
      obtain ⟨rfl, -⟩ := List.cons_eq_cons.mp he
      exact ⟨_ :: ms₁, ms₂, k', rfl, .parted hb h₁, h₂⟩

theorem exists_of_concat (h : Like k (ns ++ [n]) ms) :
    ∃ ms' m, ms = ms' ++ [m] ∧ Alike n m ∧
      ∀ l ∈ ms', (∃ q, l = .token q (.comment [])) ∨ ∃ n ∈ ns, Alike n l := by
  obtain ⟨ms₁, ms₂, k', rfl, h₁, h₂⟩ := h.exists_of_append
  have hnil {k : Option Kind} {ms : List Node} (h : Like k [] ms) : ms = [] := by
    cases h
    rfl
  cases h₂ with
  | token _ hr =>
    obtain rfl := hnil hr
    exact ⟨ms₁, _, rfl, .token, fun _ => h₁.alike_of_mem⟩
  | nested _ _ hr =>
    obtain rfl := hnil hr
    exact ⟨ms₁, _, rfl, .nested, fun _ => h₁.alike_of_mem⟩
  | @parted _ q _ _ _ _ hr =>
    obtain ⟨m, ms', rfl, ha, hr⟩ := hr.exists_of_cons
    obtain rfl := hnil hr
    refine ⟨ms₁ ++ [.token q (.comment [])], m, by simp, ha, fun l hl => ?_⟩
    rcases List.mem_append.mp hl with hl | hl
    · exact h₁.alike_of_mem hl
    · exact .inl ⟨q, List.mem_singleton.mp hl⟩

end Like

/-! ### Cut-off nodes -/

mutual

theorem isCutOff_of_isTidy (n : Node) (h : n.isTidy = true) : n.isCutOff = false := by
  cases n with
  | token p t =>
    cases t with
    | string value closed =>
      cases closed with
      | true => rfl
      | false => simp [isTidy, Token.isTidy] at h
    | _ => rfl
  | block p b content => rfl
  | function p name arguments =>
    rw [isTidy, Bool.and_eq_true] at h
    exact lastIsCutOff_of_areTidy arguments h.2

theorem lastIsCutOff_of_areTidy (ns : List Node) (h : areTidy ns = true) :
    lastIsCutOff ns = false := by
  cases ns with
  | nil => rfl
  | cons n ns =>
    rw [areTidy, Bool.and_eq_true] at h
    rw [lastIsCutOff_cons]
    split
    next => exact isCutOff_of_isTidy n h.1
    next => exact lastIsCutOff_of_areTidy ns h.2

end

theorem write_node {o : Opener} {content : List Node} (h : lastIsCutOff content = false) (p : Text) :
    (o.node p content).write = o.written ++ (writeFrom none content ++ [o.closer.closing]) := by
  cases o with
  | bracket b => rfl
  | function name =>
    change writeIdent name ++ '(' :: (writeFrom none content ++ if lastIsCutOff content then [] else [')']) = _
    rw [h, Opener.written, List.append_assoc]
    rfl

theorem isTidy_node {o : Opener} {p : Text} {content : List Node}
    (h : (o.node p content).isTidy = true) : o.isTidy p = true ∧ areTidy content = true := by
  cases o with
  | bracket b => exact ⟨rfl, h⟩
  | function name =>
    simp only [Opener.node, isTidy, Bool.and_eq_true] at h
    exact ⟨h.1.1, h.2⟩

theorem closing_mem_stops (b : Bracket) : b.closing ∈ stops := by
  cases b <;> decide

theorem isBlank_of_isSpace {c : Char} (h : isSpace c = true) : Text.isBlank c = true := by
  rcases isSpace_cases h with rfl | rfl | rfl <;> decide

theorem not_isSpace_of_not_isBlank {c : Char} (h : Text.isBlank c = false) : isSpace c = false :=
  eq_false_of_ne_true fun hs => by
    rw [isBlank_of_isSpace hs] at h
    contradiction

theorem exists_write {n : Node} (ht : n.isTidy = true) (hb : n.isBlank = false) :
    ∃ c u, n.write = c :: u ∧ Text.isBlank c = false := by
  cases n with
  | token p tok =>
    simp only [isTidy, hb, Bool.false_or, hasFirmEnds, Bool.and_eq_true] at ht
    have hf := ht.2.1
    have hw : (token p tok).write = tok.write := rfl
    cases h : tok.write with
    | nil =>
      rw [h] at hf
      contradiction
    | cons c u =>
      rw [h] at hf
      exact ⟨c, u, hw.trans h, by simpa using hf⟩
  | block p b content => exact ⟨b.opening, _, rfl, by cases b <;> decide⟩
  | function p name arguments =>
    have hf : (writeIdent name).head?.any Text.isBlank = false := by
      simp only [isTidy, Bool.and_eq_true] at ht
      simpa using ht.1.2
    obtain ⟨v, hw⟩ : ∃ v, (function p name arguments).write = writeIdent name ++ '(' :: v := ⟨_, rfl⟩
    rw [hw]
    cases h : writeIdent name with
    | nil => exact ⟨'(', _, rfl, by decide⟩
    | cons c u =>
      rw [h] at hf
      exact ⟨c, _, rfl, hf⟩

theorem head?_writeFrom {k : Option Kind} {n : Node} (hk : k ≠ some (.literal ['\\']))
    (ht : n.isTidy = true) (hb : n.isBlank = false) (ns : List Node) (w : Text) :
    (writeFrom k (n :: ns) ++ w).head?.any isSpace = false := by
  rw [writeFrom_cons]
  rcases between_cases hk n with hn | hn
  · obtain ⟨c, u, hc, hf⟩ := exists_write ht hb
    rw [hn, hc]
    exact not_isSpace_of_not_isBlank hf
  · rw [hn]
    rfl

theorem isBlank_eq_false {closer : Option Bracket} {u v : Text} {n : Node} {ns : List Node}
    (h : Parses closer u (n :: ns) v) (hu : u.head?.any isSpace = false) : n.isBlank = false := by
  cases h with
  | @token _ c t _ _ tok _ hn _ =>
    have hst := Lexeme.Step.of_next hn
    cases tok with
    | whitespace text =>
      cases hst with
      | whitespace hs =>
        rw [List.head?_cons, Option.any_some, hs] at hu
        contradiction
    | _ => rfl
  | stray => rfl
  | @nested _ _ _ _ _ _ _ o => cases o <;> rfl

theorem endsRange_of_symbolic {c : Char} {t : Text} (h : Lexeme.Symbolic c t) (hq : c ≠ '?') :
    EndsRange (c :: t) := by
  have hb : ¬isHexDigit '\\' = true ∧ ¬isHexDigit '-' = true := by decide
  have hhex {d : Char} (hd : isHexDigit d = true) : isNameStart d = true ∨ d.isDigit = true := by
    refine Decidable.byContradiction fun hn => ?_
    simp only [not_or, Bool.not_eq_true] at hn
    rw [isHexDigit_eq_false hn.1 hn.2] at hd
    contradiction
  have hm := readNumber?_eq_none_iff.mp h.number
  refine ⟨?_, fun hh => ?_⟩
  · rw [List.head?_cons, Option.any_some, Bool.or_eq_false_iff]
    refine ⟨eq_false_of_ne_true fun hd => ?_, by simpa using hq⟩
    have hs : ¬(c = '+' ∨ c = '-') := by
      rintro (rfl | rfl) <;> exact absurd hd (by decide)
    rw [readSign, if_neg hs] at hm
    rcases hhex hd with hn | hn
    · have hi := h.ident
      rw [Agree.startsIdent_cons (fun he => hb.2 (he ▸ hd)) (fun he => hb.1 (he ▸ hd)), hn] at hi
      cases hi
    · simp [startsMantissa, hn] at hm
  · obtain rfl : c = '-' := Option.some.inj hh
    cases t with
    | nil => rfl
    | cons d t =>
      refine eq_false_of_ne_true fun hd => ?_
      rcases hhex hd with hn | hn
      · have hi := h.ident
        rw [Agree.startsIdent_hyphen] at hi
        simp [hn] at hi
      · simp [readSign, startsMantissa, hn] at hm

theorem endsRange_cons {c : Char} (h : (isHexDigit c || c == '?' || c == '-') = false) (t : Text) :
    EndsRange (c :: t) := by
  rw [Bool.or_eq_false_iff] at h
  exact ⟨h.1, fun hh => absurd (Option.some.inj hh) (by simpa using h.2)⟩

theorem not_isHexDigit_of_toLower {c : Char} (h : c.toLower = 'u') :
    (isHexDigit c || c == '?' || c == '-') = false := by
  have hall : ∀ n < 128, (Char.ofNat n).toLower = 'u' →
      (isHexDigit (Char.ofNat n) || Char.ofNat n == '?' || Char.ofNat n == '-') = false := by
    decide +kernel
  by_cases hc : c.toNat < 128
  · have hn := hall c.toNat hc
    rw [Char.ofNat_toNat] at hn
    exact hn h
  · rw [Text.toLower_of_not_ascii (Nat.le_of_not_lt hc)] at h
    rw [h] at hc
    exact absurd (by decide) hc

theorem endsRange_of_opensUrl {c : Char} {t name arguments : Text}
    (h : Lexeme.OpensUrl c t name arguments) : EndsRange (c :: t) := by
  have hl := h.name
  have hr := h.read
  by_cases hc : isNameChar c = true
  · rw [readName_nameChar hc] at hr
    obtain ⟨rfl, -⟩ := Prod.mk.inj hr
    exact endsRange_cons (not_isHexDigit_of_toLower (List.head_eq_of_cons_eq hl)) t
  · by_cases hb : c = '\\'
    · rw [hb]
      exact endsRange_cons (by decide) t
    · rw [readName, if_neg hc, if_neg (fun h => hb h.1)] at hr
      obtain ⟨rfl, -⟩ := Prod.mk.inj hr
      contradiction

theorem endsRange_of_clash {closer : Option Bracket} {u v : Text} {n : Node} {ns : List Node}
    (h : Parses closer u (n :: ns) v) (hc : Kind.codeRange.clash n.kind = false) : EndsRange u := by
  cases h with
  | @token _ c t _ _ tok _ hn _ =>
    have hst := Lexeme.Step.of_next hn
    cases hst with
    | whitespace hs =>
      rcases isSpace_cases hs with rfl | rfl | rfl <;> exact endsRange_cons (by decide) t
    | codeRange hs hr =>
      rcases Agree.readRange?_cases hr with rfl | rfl <;> exact endsRange_cons (by decide) t
    | closingMark => exact ⟨rfl, fun _ => rfl⟩
    | ident => contradiction
    | url ho => exact endsRange_of_opensUrl ho
    | openUrl ho => exact endsRange_of_opensUrl ho
    | badUrl ho => exact endsRange_of_opensUrl ho
    | number => contradiction
    | percentage => contradiction
    | dimension => contradiction
    | string hq =>
      rcases Lexeme.isQuote_cases hq with rfl | rfl <;> exact endsRange_cons (by decide) t
    | openString hq =>
      rcases Lexeme.isQuote_cases hq with rfl | rfl <;> exact endsRange_cons (by decide) t
    | badString hq =>
      rcases Lexeme.isQuote_cases hq with rfl | rfl <;> exact endsRange_cons (by decide) t
    | joined hj =>
      rcases Lexeme.joinsEquals_cases hj with rfl | rfl | rfl | rfl | rfl <;> exact endsRange_cons (by decide) _
    | sign hs =>
      refine endsRange_of_symbolic hs ?_
      rintro rfl
      contradiction
    | _ => exact endsRange_cons (by decide) _
  | @stray _ _ _ b => exact endsRange_cons (by cases b <;> decide) _
  | @nested _ c t _ _ _ _ o _ _ hn _ _ _ =>
    have hst := Lexeme.Step.of_next hn
    cases hst with
    | function => contradiction
    | @opening b => exact endsRange_cons (by cases b <;> decide) _

theorem endsRange_writeFrom {closer : Option Bracket} {u v w : Text} {ns : List Node}
    (h : Parses closer u ns v) (hw : Stopped w)
    (ha : Agree u (writeFrom (some .codeRange) ns ++ w)) :
    EndsRange (writeFrom (some .codeRange) ns ++ w) := by
  cases ns with
  | nil => exact .of_stopped hw
  | cons n ns =>
    cases hc : Kind.codeRange.clash n.kind with
    | false => exact (endsRange_of_clash h hc).of_agree ha
    | true =>
      have hb : between (some .codeRange) n = "/**/" := if_pos hc
      rw [writeFrom_cons, hb]
      exact .of_stopped (Lexeme.stopped_cons (by decide) _)

theorem isBareUrl_of_quote {c : Char} {gap : Text} (hg : ∀ d ∈ gap, isSpace d = true)
    (hc : Lexeme.isQuote c = true) (t : Text) : Lexeme.isBareUrl (gap ++ c :: t) = false := by
  have hs : isSpace c = false := by
    rcases Lexeme.isQuote_cases hc with rfl | rfl <;> rfl
  rw [Lexeme.isBareUrl, List.dropWhile_append_of_pos hg, List.dropWhile_cons_of_neg (by simp [hs])]
  simp [hc]

theorem exists_writeFrom_of_quote {closer : Option Bracket} {b : Bracket} {c : Char} {t v w : Text}
    {ns : List Node} (h : Parses closer (c :: t) ns v) (he : Ends b v w) (ht : areTidy ns = true)
    (hc : Lexeme.isQuote c = true) : ∃ u, writeFrom none ns = '"' :: u := by
  have hcl (b : Bracket) : Lexeme.isQuote b.closing = false := by cases b <;> rfl
  cases h with
  | nil =>
    cases he
    rw [hcl] at hc
    contradiction
  | @token _ _ _ _ _ tok ns hn _ =>
    rw [Lexeme.next_quote hc] at hn
    rw [areTidy, Bool.and_eq_true] at ht
    cases hs : readString c t with
    | complete value rest =>
      rw [hs] at hn
      cases hn
      exact ⟨_, rfl⟩
    | unfinished value =>
      rw [hs] at hn
      cases hn
      exact absurd ht.1 (by simp [isTidy, Token.isTidy])
    | bad rest =>
      rw [hs] at hn
      cases hn
      exact absurd ht.1 (by simp [isTidy, Token.isTidy])
  | stray =>
    rw [hcl] at hc
    contradiction
  | nested hn =>
    rw [Lexeme.next_quote hc] at hn
    cases hs : readString c t <;>
      · rw [hs] at hn
        cases hn

theorem Parses.cases_of_isSpace {closer : Option Bracket} {c : Char} {t v : Text} {ns : List Node}
    (h : Parses closer (c :: t) ns v) (hs : isSpace c = true) :
    ns = [] ∧ v = c :: t ∨
      ∃ ms, ns = .token (c :: t) (.whitespace (c :: t.takeWhile isSpace)) :: ms ∧
        Parses closer (t.dropWhile isSpace) ms v := by
  have hw := (Lexeme.Step.whitespace (t := t) hs).eq
  cases h with
  | nil => exact .inl ⟨rfl, rfl⟩
  | token hn h =>
    rw [hw] at hn
    cases hn
    exact .inr ⟨_, rfl, h⟩
  | @stray _ _ _ b => cases b <;> contradiction
  | nested hn =>
    rw [hw] at hn
    cases hn

theorem cases_of_not_isBareUrl {c : Char} {t : Text} (h : Lexeme.isBareUrl (c :: t) = false) :
    Lexeme.isQuote c = true ∨
      isSpace c = true ∧ ∃ d r, t.dropWhile isSpace = d :: r ∧ Lexeme.isQuote d = true := by
  rw [Lexeme.isBareUrl] at h
  by_cases hs : isSpace c = true
  · rw [List.dropWhile_cons_of_pos hs] at h
    refine .inr ⟨hs, ?_⟩
    split at h
    next => contradiction
    next d r hd => exact ⟨d, r, hd, by simpa using h⟩
  · rw [List.dropWhile_cons_of_neg hs] at h
    exact .inl (by simpa using h)

theorem isBareUrl_writeFrom {closer : Option Bracket} {b : Bracket} {u v w : Text}
    {ns : List Node} (h : Parses closer u ns v) (he : Ends b v w) (ht : areTidy ns = true)
    (hu : Lexeme.isBareUrl u = false) (x : Text) :
    Lexeme.isBareUrl (writeFrom none ns ++ x) = false := by
  cases u with
  | nil => contradiction
  | cons c t =>
    rcases cases_of_not_isBareUrl hu with hq | ⟨hs, d, r, hd, hq⟩
    · obtain ⟨y, hy⟩ := exists_writeFrom_of_quote h he ht hq
      rw [hy]
      exact isBareUrl_of_quote (List.forall_mem_nil _) (by decide) _
    · rcases h.cases_of_isSpace hs with ⟨-, rfl⟩ | ⟨ms, rfl, hms⟩
      · cases he
        cases b <;> contradiction
      · rw [hd] at hms
        rw [areTidy, Bool.and_eq_true] at ht
        obtain ⟨y, hy⟩ := exists_writeFrom_of_quote hms he ht.2 hq
        have hg : ∀ e ∈ c :: t.takeWhile isSpace, isSpace e = true :=
          List.forall_mem_cons.mpr ⟨hs, List.all_eq_true.mp List.all_takeWhile⟩
        have hw := isBareUrl_of_quote hg (by decide : Lexeme.isQuote '"' = true) (y ++ x)
        rw [writeFrom_cons]
        change Lexeme.isBareUrl ((c :: t.takeWhile isSpace ++ writeFrom (some .other) ms) ++ x) = false
        rw [writeFrom_other, hy, List.append_assoc]
        exact hw

theorem Parses.of_lexes {closer : Option Bracket} {s t rest : Text} {tok : Token} {ms : List Node}
    (h : Lexeme.Lexes s (.token tok) t) (hp : Parses closer t ms rest) :
    Parses closer s (.token s tok :: ms) rest := by
  obtain ⟨c, u, rfl, hn⟩ := h
  exact .token hn hp

theorem head?_writeFrom_of_whitespace {closer : Option Bracket} {c : Char} {t u v w text : Text}
    {ns : List Node} (hn : Lexeme.next c t = (.token (.whitespace text), u))
    (h : Parses closer u ns v) (ht : areTidy ns = true)
    (hw : ns = [] → w.head?.any isSpace = false) :
    (writeFrom (some .other) ns ++ w).head?.any isSpace = false := by
  cases ns with
  | nil => exact hw rfl
  | cons n ns =>
    have hst := Lexeme.Step.of_next hn
    have hu : u.head?.any isSpace = false := by
      cases hst
      exact Text.head?_dropWhile isSpace t
    rw [areTidy, Bool.and_eq_true] at ht
    exact head?_writeFrom (by decide) ht.1 (isBlank_eq_false h hu) ns w

/-! ### Written nodes -/

/-- What is written for the nodes is read as nodes like them, and goes on as their own text does. -/
structure Respelled (closer : Option Bracket) (k : Option Kind) (u : Text) (ns : List Node)
    (w : Text) : Prop where
  read : ∃ ms, Like k ns ms ∧ Parses closer (writeFrom k ns ++ w) ms w
  agree : Agree u (writeFrom k ns ++ w)

namespace Respelled

variable {closer : Option Bracket} {k : Option Kind} {c : Char} {t u v w rest : Text} {n : Node}
  {ns content : List Node}

/-- A comment may be put in front of a first node that is read back without one. -/
theorem of_alone (hk : k ≠ some (.literal ['\\']))
    (h : ∀ k, between k n = [] →
      ∃ ms, Like k (n :: ns) ms ∧ Parses closer (n.write ++ (writeFrom (some n.kind) ns ++ w)) ms w)
    (ha : Agree u (n.write ++ (writeFrom (some n.kind) ns ++ w))) :
    Respelled closer k u (n :: ns) w := by
  have hw : writeFrom k (n :: ns) ++ w =
      between k n ++ (n.write ++ (writeFrom (some n.kind) ns ++ w)) := by
    rw [writeFrom_cons, List.append_assoc, List.append_assoc]
  rcases between_cases hk n with hn | hn
  · rw [hn, List.nil_append] at hw
    exact ⟨hw ▸ h k hn, hw ▸ ha⟩
  · obtain ⟨ms, hl, hp⟩ := h none rfl
    have hc := Lexeme.lexes_comment (rfl : Text.occurs "*/" [] = false)
      (n.write ++ (writeFrom (some n.kind) ns ++ w))
    rw [hn] at hw
    refine ⟨⟨_, .parted (q := "/**/" ++ (n.write ++ (writeFrom (some n.kind) ns ++ w))) hn hl, ?_⟩, ?_⟩
    · rw [hw]
      exact .of_lexes hc hp
    · rw [hw]
      exact .stop (Lexeme.stopped_cons (by decide) _)

theorem token {tok : Token} (h : Respelled closer (some tok.kind) u ns w)
    (hk : k ≠ some (.literal ['\\'])) (hn : Lexeme.next c t = (.token tok, u))
    (ht : tok.isTidy (c :: t) = true)
    (hblank : ∀ text, tok = .whitespace text →
      (writeFrom (some .other) ns ++ w).head?.any isSpace = false)
    (hrange : ∀ r, tok = .codeRange r → EndsRange (writeFrom (some .codeRange) ns ++ w)) :
    Respelled closer k (c :: t) (.token (c :: t) tok :: ns) w := by
  have hst := Lexeme.Step.of_next hn
  obtain ⟨⟨ms, hl, hp⟩, ha⟩ := h
  have hx := Lexeme.lexes_token hst ht ha (fun text he => by subst he; exact hblank text rfl)
    (fun r he => by subst he; exact hrange r rfl)
  exact of_alone hk (fun k hb => ⟨_, .token hb hl, .of_lexes hx hp⟩) (Lexeme.agree_token hst ht ha)

theorem stray {b : Bracket} (h : Respelled closer (some .other) t ns w)
    (hk : k ≠ some (.literal ['\\'])) (hb : closer ≠ some b) :
    Respelled closer k (b.closing :: t) (.token (b.closing :: t) (.stray b) :: ns) w := by
  obtain ⟨ms, hl, hp⟩ := h.read
  exact of_alone hk (fun k hn => ⟨_, .token hn hl, .stray hb hp⟩)
    (.stop (Lexeme.stopped_cons (closing_mem_stops b) _))

theorem nested {o : Opener} (h : Respelled closer (some (o.node (c :: t) content).kind) rest ns w)
    (hc : Respelled (some o.closer) none u content
      (o.closer.closing :: (writeFrom (some (o.node (c :: t) content).kind) ns ++ w)))
    (hk : k ≠ some (.literal ['\\'])) (hn : Lexeme.next c t = (.opening o, u))
    (ht : o.isTidy (c :: t) = true) (hcut : lastIsCutOff content = false)
    (hbare : Lexeme.isBareUrl u = false → ∀ x, Lexeme.isBareUrl (writeFrom none content ++ x) = false) :
    Respelled closer k (c :: t) (o.node (c :: t) content :: ns) w := by
  obtain ⟨ms, hl, hp⟩ := h.read
  obtain ⟨cs, hlc, hpc⟩ := hc.read
  obtain ⟨⟨d, x, hdx, hnx⟩, ha⟩ :=
    Lexeme.lexes_opening (Lexeme.Step.of_next hn) ht fun hu => hbare hu (o.closer.closing ::
      (writeFrom (some (o.node (c :: t) content).kind) ns ++ w))
  have hw (y : Text) : (o.node (c :: t) content).write ++ y =
      o.written ++ (writeFrom none content ++ o.closer.closing :: y) := by
    rw [write_node hcut]
    simp
  refine of_alone hk (fun k hb => ⟨_, .nested (q := d :: x) hb hlc hl, ?_⟩) ?_
  · rw [hw, hdx]
    exact .nested hnx hpc .closed hp
  · rw [hw]
    exact ha

end Respelled

theorem any_getLast?_of_cons {n : Node} {ns : List Node} {w : Text}
    (h : (n :: ns).getLast?.any isBlank = true → w.head?.any isSpace = false) :
    ns.getLast?.any isBlank = true → w.head?.any isSpace = false := by
  cases ns with
  | nil => exact nofun
  | cons => simpa using h

/-- What is written for tidy nodes is read back, in front of a text that continues none of them. -/
theorem Parses.respelled {closer : Option Bracket} {u v w : Text} {ns : List Node}
    (h : Parses closer u ns v) (ht : areTidy ns = true) (hs : Stopped w)
    (hb : ns.getLast?.any isBlank = true → w.head?.any isSpace = false) {k : Option Kind}
    (hk : k ≠ some (.literal ['\\'])) : Respelled closer k u ns w := by
  induction h generalizing w k with
  | nil => exact ⟨⟨[], .nil, .nil⟩, .stop hs⟩
  | @token closer c t u rest tok ns hn h ih =>
    rw [areTidy, Bool.and_eq_true] at ht
    have htok : tok.isTidy (c :: t) = true := ((Bool.and_eq_true _ _).mp ht.1).1
    have hkind : some tok.kind ≠ some (.literal ['\\']) := by
      intro he
      cases tok <;> cases he
      contradiction
    have hr := ih ht.2 hs (any_getLast?_of_cons hb) hkind
    refine hr.token hk hn htok ?_ ?_
    · rintro text rfl
      refine head?_writeFrom_of_whitespace hn h ht.2 fun hns => hb ?_
      rw [hns]
      rfl
    · rintro r rfl
      exact endsRange_writeFrom h hs hr.agree
  | stray hcl _ ih =>
    rw [areTidy, Bool.and_eq_true] at ht
    have hr := ih ht.2 hs (any_getLast?_of_cons hb) (k := some .other) nofun
    exact hr.stray hk hcl
  | @nested closer c t u v _ rest o content ns hn hc he _ ihc ih =>
    rw [areTidy, Bool.and_eq_true] at ht
    obtain ⟨hto, htc⟩ := isTidy_node ht.1
    -- the closing bracket stops the contents, whatever follows it
    have hcontent (x : Text) : Respelled (some o.closer) none u content (o.closer.closing :: x) :=
      ihc htc (Lexeme.stopped_cons (closing_mem_stops _) _)
        (fun _ => by cases o.closer <;> rfl) nofun
    have hr := ih ht.2 hs (any_getLast?_of_cons hb) (kind_node_ne_backslash o (c :: t) content)
    exact hr.nested (hcontent _) hk hn hto (lastIsCutOff_of_areTidy content htc)
      fun hu => isBareUrl_writeFrom hc he htc hu

end Node

end CustomProperties.Syntax

import CustomProperties.Proofs.Syntax.Reads
import CustomProperties.Proofs.Text.Copy
import CustomProperties.Syntax.Written

/-! # Written nodes as copies of their text

What is written of nodes is a copy of the text they are read from: names keep their characters,
and quotes, addresses, ends that the text lacks and the comments between neighbours are the pieces
that change. Each of these starts with a character that no name and no blank has.
-/

namespace CustomProperties.Syntax

open Text (Copies)
open Lexeme (Scans)
open Node (Reads Ends)

def respelledStarts : Text := "/*\")]\x7duU\\"

/-- What the writer may put in place of a piece of text. -/
def Respells (_piece other : Text) : Prop :=
  (∃ c ∈ other.head?, c ∈ respelledStarts) ∧ 'v' ∉ other

variable {s t u v rest w w' name piece other used : Text} {c : Char}

theorem respells_cons (hc : c ∈ respelledStarts) (ho : 'v' ∉ other) (hv : 'v' ≠ c) :
    Respells piece (c :: other) :=
  ⟨⟨c, rfl, hc⟩, by simp [hv, ho]⟩

theorem of_mem_respelledStarts {q : Char → Bool} (h : respelledStarts.all q = true)
    (hc : c ∈ respelledStarts) : q c = true :=
  List.all_eq_true.mp h c hc

/-! ### Names, strings and addresses -/

theorem toUpper_ne (c : Char) : c.toUpper ≠ 'v' := by
  unfold Char.toUpper
  split
  next h =>
    intro hv
    have hn : (c.val + ('A'.val - 'a'.val)).toNat = 'v'.val.toNat := congrArg (·.val.toNat) hv
    have hd : ('A'.val - 'a'.val).toNat = 4294967264 := by decide +kernel
    have hc : 'v'.val.toNat = 118 := by decide +kernel
    have hl : 97 ≤ c.val.toNat := h.1
    have hu : c.val.toNat ≤ 122 := h.2
    rw [UInt32.toNat_add, hd, hc] at hn
    omega
  next h =>
    rintro rfl
    exact h (by decide)

theorem not_mem_hexDigits (n : Nat) : 'v' ∉ hexDigits n := by
  intro h
  obtain ⟨c, -, hc⟩ := List.mem_map.mp h
  exact toUpper_ne c hc

theorem copies_escaped (c : Char) : Copies Respells [c] ['\\', c] := by
  have hs : Respells [] ['\\'] := respells_cons (by decide) (by simp) (by decide)
  exact .insert hs (.refl [c])

theorem respells_break (h : breakEscape? c = some other) : Respells piece other := by
  unfold breakEscape? at h
  split at h
  · cases h
    exact respells_cons (by decide) (by decide) (by decide)
  split at h
  · cases h
    exact respells_cons (by decide) (by decide) (by decide)
  split at h
  · cases h
    exact respells_cons (by decide) (by decide) (by decide)
  · contradiction

theorem copies_break_getD (h : Copies Respells [c] other) :
    Copies Respells [c] ((breakEscape? c).getD other) := by
  cases hb : breakEscape? c with
  | none => exact h
  | some e => exact .of_swap (respells_break hb)

theorem copies_writeNameChar (c : Char) : Copies Respells [c] (writeNameChar c) := by
  unfold writeNameChar
  split
  · exact .refl [c]
  · exact copies_break_getD (copies_escaped c)

theorem copies_writeName (name : Text) : Copies Respells name (writeName name) :=
  .flatMap copies_writeNameChar name

theorem copies_writeNameStart (c : Char) : Copies Respells [c] (writeNameStart c) := by
  unfold writeNameStart
  split
  · exact .refl [c]
  split
  · have hd := not_mem_hexDigits c.toNat
    rw [List.cons_append]
    exact .of_swap (respells_cons (by decide) (by simp [hd]) (by decide))
  · exact copies_break_getD (copies_escaped c)

theorem copies_writeIdent (name : Text) : Copies Respells name (writeIdent name) := by
  unfold writeIdent
  split
  · exact copies_escaped '-'
  · next rest => exact .keep '-' (.keep '-' (copies_writeName rest))
  · next c rest _ => exact .keep '-' ((copies_writeNameStart c).append (copies_writeName rest))
  · next c rest _ _ _ => exact (copies_writeNameStart c).append (copies_writeName rest)
  · exact .nil

theorem copies_writeUnit (unit : Text) : Copies Respells unit (Token.writeUnit unit) := by
  unfold Token.writeUnit
  split
  · exact .nil
  · next c rest =>
    split
    · have hs : Copies Respells [c] "\\65 " :=
        .of_swap (respells_cons (by decide) (by decide) (by decide))
      exact hs.append (copies_writeName rest)
    · exact copies_writeIdent _

theorem copies_writeString (value : Text) : Copies Respells value (writeString value) := by
  refine .flatMap (fun c => ?_) value
  unfold writeStringChar
  split
  · exact copies_escaped c
  · exact copies_break_getD (.refl [c])

theorem copies_writeUrl (value : Text) : Copies Respells value (writeUrl value) := by
  refine .flatMap (fun c => ?_) value
  unfold writeUrlChar
  split
  · exact copies_escaped c
  split
  · exact .of_swap (respells_cons (by decide) (by decide) (by decide))
  · exact copies_break_getD (.refl [c])

theorem respells_writeRange (piece : Text) (r : CodeRange) : Respells piece (Token.writeRange r) := by
  have hu : ("U+" : Text) = 'U' :: ['+'] := rfl
  have hd := not_mem_hexDigits r.first
  have hl := not_mem_hexDigits r.last
  unfold Token.writeRange
  split
  · rw [hu, List.cons_append]
    exact respells_cons (by decide) (by simp [hd]) (by decide)
  · rw [hu, List.cons_append, List.cons_append, List.cons_append]
    exact respells_cons (by decide) (by simp [hd, hl]) (by decide)

/-! ### Tokens -/

/-- The text up to `rest` has been copied. At its end some of it may be left out. -/
def CopiedUpTo (s rest w : Text) : Prop :=
  ∃ used left, s = used ++ (left ++ rest) ∧ (left = [] ∨ rest = []) ∧ Copies Respells used w

namespace CopiedUpTo

theorem of_copies (h : Copies Respells used w) (rest : Text) : CopiedUpTo (used ++ rest) rest w :=
  ⟨used, [], rfl, .inl rfl, h⟩

theorem nil (t : Text) : CopiedUpTo t t [] := of_copies .nil t

theorem append (h : CopiedUpTo s t w) (h' : CopiedUpTo t rest w') :
    CopiedUpTo s rest (w ++ w') := by
  obtain ⟨used, left, rfl, hl, hc⟩ := h
  obtain ⟨used', left', rfl, hl', hc'⟩ := h'
  rcases hl with rfl | hl
  · exact ⟨used ++ used', left', by simp, hl', hc.append hc'⟩
  · -- nothing was left to copy after the first part
    obtain ⟨rfl, hr⟩ := List.append_eq_nil_iff.mp hl
    obtain ⟨rfl, rfl⟩ := List.append_eq_nil_iff.mp hr
    exact ⟨used ++ [], left, by simp, .inr rfl, hc.append hc'⟩

theorem prepend (hc : Copies Respells used w) (h : CopiedUpTo t rest w') :
    CopiedUpTo (used ++ t) rest (w ++ w') :=
  (of_copies hc t).append h

theorem close {b : Bracket} (h : CopiedUpTo t u w) (he : Ends b u v) :
    CopiedUpTo t v (w ++ [b.closing]) := by
  cases he with
  | closed => exact h.append (of_copies (.refl [b.closing]) v)
  | cut =>
    obtain ⟨used, left, rfl, -, hc⟩ := h
    have hs : Respells left [b.closing] := by
      cases b <;> exact respells_cons (by decide) (by simp) (by decide)
    exact ⟨used ++ left, [], by simp, .inl rfl, hc.append (.of_swap hs)⟩

end CopiedUpTo

theorem copied_of_scans {tok : Token} (h : Scans s (.token tok) rest) :
    CopiedUpTo s rest tok.write := by
  have hopen : Copies Respells "/*" "/*" := .refl _
  have hclose : Copies Respells "*/" "*/" := .refl _
  have hend (t : Text) : Copies Respells t (t ++ "*/") := by
    have hs : Respells [] "*/" := respells_cons (by decide) (by decide) (by decide)
    have hc := (Copies.refl t).append (.of_swap hs)
    rwa [List.append_nil] at hc
  have hquote (piece : Text) : Copies Respells piece ['"'] :=
    .of_swap (respells_cons (by decide) (by simp) (by decide))
  have hurl (piece : Text) : Copies Respells piece "url(" :=
    .of_swap (respells_cons (by decide) (by decide) (by decide))
  have hw (t : Text) : Token.write (.comment t) = "/*" ++ (t ++ "*/") := List.append_assoc ..
  cases h with
  | whitespace => exact .of_copies (.refl _) rest
  | @comment t =>
    rw [hw]
    exact .prepend hopen (.prepend (.refl t) (.of_copies hclose rest))
  | @openComment t =>
    have hs := CopiedUpTo.prepend hopen (.of_copies (hend t) [])
    rwa [List.append_nil, ← hw] at hs
  | literal => exact .of_copies (.refl _) rest
  | ident => exact .of_copies (copies_writeIdent _) rest
  | atKeyword => exact .of_copies ((copies_writeIdent _).keep '@') rest
  | @hash name _ isIdent =>
    cases isIdent with
    | true => exact .of_copies ((copies_writeIdent name).keep '#') rest
    | false => exact .of_copies ((copies_writeName name).keep '#') rest
  | @string quote value =>
    exact .prepend (hquote [quote]) (.prepend (copies_writeString value)
      (.of_copies (hquote [quote]) rest))
  | @openString quote value =>
    have hc := (hquote [quote]).append (copies_writeString value)
    have hv : Token.write (.string value false) = ['"'] ++ writeString value := List.append_nil _
    exact ⟨quote :: value, [], (List.append_nil _).symm, .inl rfl, hv ▸ hc⟩
  | @url before value blanks =>
    have hp : Copies Respells (blanks ++ [')']) [')'] :=
      .of_swap (respells_cons (by decide) (by simp) (by decide))
    have hs := CopiedUpTo.prepend (hurl before)
      (.prepend (copies_writeUrl value) (.of_copies hp rest))
    rwa [List.append_assoc] at hs
  | @openUrl before value blanks =>
    have hc := (hurl before).append (copies_writeUrl value)
    have hv : Token.write (.url value false) = "url(" ++ writeUrl value := List.append_nil _
    exact ⟨before ++ value, blanks, by simp, .inr rfl, hv ▸ hc⟩
  | @codeRange t _ range => exact .of_copies (.of_swap (respells_writeRange t range)) rest
  | number => exact .of_copies (.refl _) rest
  | @percentage digits =>
    exact .prepend (.refl digits) (.of_copies (.refl ['%']) rest)
  | @dimension digits unit =>
    exact .prepend (.refl digits) (.of_copies (copies_writeUnit unit) rest)
  | @badString t =>
    have hs : Respells t "\"[bad string]\n" := respells_cons (by decide) (by decide) (by decide)
    exact .of_copies (.of_swap hs) rest
  | @badUrl t =>
    have hs : Respells t "url([bad url])" := respells_cons (by decide) (by decide) (by decide)
    exact .of_copies (.of_swap hs) rest

/-! ### Nodes -/

namespace Node

theorem lastIsCutOff_cons (n : Node) (ns : List Node) :
    lastIsCutOff (n :: ns) = if ns = [] then n.isCutOff else lastIsCutOff ns := by
  cases ns <;> rfl

/-- Nothing follows a string that the end of the text cut off. -/
theorem Reads.eq_nil_of_lastIsCutOff {ns : List Node} (h : Reads s ns rest)
    (hc : lastIsCutOff ns = true) : rest = [] := by
  have hl {n : Node} {ns : List Node} {v rest : Text} (h : Reads v ns rest)
      (hn : n.isCutOff = true → v = []) (ih : lastIsCutOff ns = true → rest = [])
      (hc : lastIsCutOff (n :: ns) = true) : rest = [] := by
    rw [lastIsCutOff_cons] at hc
    split at hc
    next hns =>
      subst hns
      cases h
      exact hn hc
    next => exact ih hc
  induction h with
  | nil => contradiction
  | @token s t rest place tok ns hs h ih =>
    refine hl h (fun hn => ?_) ih hc
    cases hs <;> first | rfl | contradiction
  | stray h ih => exact hl h (fun hn => by contradiction) ih hc
  | @nested t u v rest place o content ns _ he h ihc ih =>
    refine hl h (fun hn => ?_) ih hc
    cases o with
    | bracket b => contradiction
    | function name =>
      rw [ihc hn] at he
      cases he
      rfl

theorem writeFrom_cons (previous : Option Kind) (n : Node) (ns : List Node) :
    writeFrom previous (n :: ns) = between previous n ++ (n.write ++ writeFrom (some n.kind) ns) := by
  rw [writeFrom, List.append_assoc]

theorem copies_between {previous : Option Kind} (h : previous ≠ some (.literal ['\\'])) (n : Node) :
    Copies Respells [] (between previous n) := by
  unfold between
  split
  · exact .nil
  · next a =>
    split
    · exact .of_swap (respells_cons (by decide) (by decide) (by decide))
    · have ha : ¬(a = .literal ['\\'] ∧ (!n.startsWithBreak) = true) := fun hc => h (by rw [hc.1])
      rw [if_neg ha]
      exact .nil

theorem copied_nested {o : Opener} {place : Text} {content : List Node}
    (h : CopiedUpTo t u (writeAll content)) (he : Ends o.closer u v)
    (hc : lastIsCutOff content = true → u = []) :
    CopiedUpTo (o.text ++ t) v (o.node place content).write := by
  cases o with
  | bracket b => exact .prepend (.refl [b.opening]) (h.close he)
  | function name =>
    have ho : Copies Respells (name ++ ['(']) (writeIdent name ++ ['(']) :=
      (copies_writeIdent name).append (.refl ['('])
    have hw : (Opener.node place content (.function name)).write = writeIdent name ++ ['('] ++
        (writeAll content ++ if lastIsCutOff content then [] else [')']) := by
      rw [List.append_assoc]
      rfl
    rw [hw]
    refine .prepend ho ?_
    split
    next hl =>
      rw [hc hl] at h he
      cases he
      rwa [List.append_nil]
    next => exact h.close he

theorem kind_node_ne_backslash (o : Opener) (place : Text) (content : List Node) :
    some (o.node place content).kind ≠ some (.literal ['\\']) := by
  cases o with
  | bracket b => cases b <;> exact nofun
  | function name => exact nofun

/-- What is written of nodes is a copy of the text they are read from. -/
theorem Reads.copied {ns : List Node} {previous : Option Kind} (h : Reads s ns rest)
    (hs : '\\' ∉ s) (hp : previous ≠ some (.literal ['\\'])) :
    CopiedUpTo s rest (writeFrom previous ns) := by
  induction h generalizing previous with
  | @nil t =>
    rw [writeFrom]
    exact .nil t
  | @token s t rest place tok ns ht h ih =>
    have hk : some tok.kind ≠ some (.literal ['\\']) := by
      cases ht with
      | @literal t => exact fun he => hs (by simp_all [Token.kind])
      | _ => exact nofun
    rw [writeFrom_cons]
    have hn := ih (fun hm => hs (ht.suffix.mem hm)) hk
    exact .prepend (copies_between hp _) ((copied_of_scans ht).append hn)
  | @stray t rest place b ns h ih =>
    have hk : some Kind.other ≠ some (.literal ['\\']) := nofun
    rw [writeFrom_cons]
    have hn := ih (fun hm => hs (List.mem_cons_of_mem _ hm)) hk
    exact .prepend (copies_between hp _) (.prepend (.refl [b.closing]) hn)
  | @nested t u v rest place o content ns hc he h ihc ih =>
    have ht : '\\' ∉ t := fun hm => hs (List.mem_append_right _ hm)
    have hv : '\\' ∉ v := fun hm => ht (hc.suffix.mem (he.suffix.mem hm))
    have hk := kind_node_ne_backslash o place content
    rw [writeFrom_cons]
    have hb : CopiedUpTo (o.text ++ t) v (o.node place content).write :=
      copied_nested (ihc ht nofun) he hc.eq_nil_of_lastIsCutOff
    have hn := CopiedUpTo.prepend (copies_between hp (o.node place content)) (hb.append (ih hv hk))
    exact hn

end Node

end CustomProperties.Syntax

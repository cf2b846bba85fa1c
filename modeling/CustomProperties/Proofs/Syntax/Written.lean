import CustomProperties.Proofs.Syntax.Copied
import CustomProperties.Proofs.Syntax.Respelling
import CustomProperties.Proofs.Syntax.Standard

/-! # Written nodes are standard

No escape denotes NUL, and the writer escapes all other characters that standardizing would
change. So what is written for the nodes of a standard text is standard too.
-/

namespace CustomProperties.Syntax

variable {c : Char} {t u w name : Text}

/-! ### What is read of a standard text -/

theorem charOfCode_ne_nul (n : Nat) : charOfCode n ≠ '\x00' := by
  unfold charOfCode
  split
  next h =>
    intro he
    have hn : (Char.ofNat n).toNat = 0 := congrArg Char.toNat he
    rw [Char.ofNat, dif_pos h.2] at hn
    exact h.1 hn
  next => decide

theorem isStandard_dropSpace (h : IsStandard t) : IsStandard (dropSpace t) := by
  cases t with
  | nil => exact h
  | cons c t =>
    rw [dropSpace]
    split
    next => exact (IsStandard.cons_iff.mp h).2
    next => exact h

theorem readEscape_standard (h : IsStandard t) :
    (readEscape t).1 ≠ '\x00' ∧ IsStandard (readEscape t).2 := by
  unfold readEscape
  split
  next => exact ⟨by decide, .nil⟩
  next =>
    rw [IsStandard.cons_iff] at h
    exact ⟨h.1.2.2, h.2⟩
  next => exact ⟨charOfCode_ne_nul _, isStandard_dropSpace (h.of_suffix (List.drop_suffix _ _))⟩

theorem readName_standard (h : IsStandard t) :
    '\x00' ∉ (readName t).1 ∧ IsStandard (readName t).2 := by
  fun_induction readName t with
  | case1 => exact ⟨List.not_mem_nil, h⟩
  | case2 c t _ name rest hr ih =>
    rw [IsStandard.cons_iff] at h
    rw [hr] at ih
    obtain ⟨hn, hs⟩ := ih h.2
    exact ⟨by simp [hn, Ne.symm h.1.2.2], hs⟩
  | case3 c t _ _ name rest hr ih =>
    rw [IsStandard.cons_iff] at h
    rw [hr] at ih
    obtain ⟨he, ht⟩ := readEscape_standard h.2
    obtain ⟨hn, hs⟩ := ih ht
    exact ⟨by simp [hn, Ne.symm he], hs⟩
  | case4 c t => exact ⟨List.not_mem_nil, h⟩

def Reading.IsStandard : Reading → Prop
  | complete value rest => '\x00' ∉ value ∧ Syntax.IsStandard rest
  | unfinished value => '\x00' ∉ value
  | bad rest => Syntax.IsStandard rest

theorem Reading.IsStandard.cons {r : Reading} (h : r.IsStandard) (hc : c ≠ '\x00') :
    (r.cons c).IsStandard := by
  cases r with
  | complete value rest => exact ⟨by simp [h.1, Ne.symm hc], h.2⟩
  | unfinished value =>
    have hv : '\x00' ∉ value := h
    exact fun hm => (List.mem_cons.mp hm).elim (Ne.symm hc) hv
  | bad rest => exact h

theorem readString_standard (quote : Char) (h : IsStandard t) :
    (readString quote t).IsStandard := by
  fun_induction readString quote t with
  | case1 => exact List.not_mem_nil
  | case2 => exact ⟨List.not_mem_nil, (IsStandard.cons_iff.mp h).2⟩
  | case3 => exact List.not_mem_nil
  | case4 t _ ih => exact ih (h.of_suffix ((List.suffix_cons _ _).trans (List.suffix_cons _ _)))
  | case5 d t _ _ ih =>
    obtain ⟨he, ht⟩ := readEscape_standard (IsStandard.cons_iff.mp h).2
    exact (ih ht).cons he
  | case6 => exact h
  | case7 c t _ _ _ ih =>
    rw [IsStandard.cons_iff] at h
    exact (ih h.2).cons h.1.2.2

theorem closeUrl_standard (h : IsStandard t) : (closeUrl t).IsStandard := by
  have hd := h.of_suffix (List.dropWhile_suffix isSpace)
  unfold closeUrl
  split
  next => exact List.not_mem_nil
  next c rest he =>
    rw [he] at hd
    split
    next => exact ⟨nofun, (IsStandard.cons_iff.mp hd).2⟩
    next => exact hd.of_suffix (skipBadUrl_suffix _)

theorem readUrlBody_standard (h : IsStandard t) : (readUrlBody t).IsStandard := by
  fun_induction readUrlBody t with
  | case1 => exact List.not_mem_nil
  | case2 => exact ⟨List.not_mem_nil, (IsStandard.cons_iff.mp h).2⟩
  | case3 => exact closeUrl_standard (IsStandard.cons_iff.mp h).2
  | case4 c t _ _ _ ih =>
    obtain ⟨he, ht⟩ := readEscape_standard (IsStandard.cons_iff.mp h).2
    exact (ih ht).cons he
  | case5 => exact (IsStandard.cons_iff.mp h).2.of_suffix (skipBadUrl_suffix _)
  | case6 c t _ _ _ _ ih =>
    rw [IsStandard.cons_iff] at h
    exact (ih h.2).cons h.1.2.2

/-! ### What is written -/

theorem isStandard_breakEscape {e : Text} (h : breakEscape? c = some e) : IsStandard e := by
  unfold breakEscape? at h
  split at h
  · cases h; decide
  split at h
  · cases h; decide
  split at h
  · cases h; decide
  · contradiction

theorem isStandard_break_getD (hc : c ≠ '\x00') (h : IsStandard [c] → IsStandard t) :
    IsStandard ((breakEscape? c).getD t) := by
  cases hb : breakEscape? c with
  | some e => exact isStandard_breakEscape hb
  | none =>
    refine h ?_
    unfold breakEscape? at hb
    split at hb
    · contradiction
    split at hb
    · contradiction
    split at hb
    · contradiction
    next hr hf => exact IsStandard.cons_iff.mpr ⟨⟨hr, hf, hc⟩, .nil⟩

theorem isStandard_of_isNameChar (h : isNameChar c = true) : IsStandard [c] := by
  refine IsStandard.cons_iff.mpr ⟨⟨?_, ?_, ?_⟩, .nil⟩ <;>
    · rintro rfl
      contradiction

theorem isStandard_escaped (h : IsStandard [c]) : IsStandard ['\\', c] :=
  IsStandard.cons_iff.mpr ⟨by decide, h⟩

theorem isStandard_writeNameChar (hc : c ≠ '\x00') : IsStandard (writeNameChar c) := by
  unfold writeNameChar
  split
  next h => exact isStandard_of_isNameChar h
  next => exact isStandard_break_getD hc isStandard_escaped

theorem isStandard_flatMap {f : Char → Text} (hf : ∀ c, c ≠ '\x00' → IsStandard (f c))
    (h : '\x00' ∉ t) : IsStandard (t.flatMap f) := by
  intro d hd
  obtain ⟨c, hc, hd⟩ := List.mem_flatMap.mp hd
  exact hf c (fun he => h (he ▸ hc)) d hd

theorem isStandard_writeName (h : '\x00' ∉ name) : IsStandard (writeName name) :=
  isStandard_flatMap (fun _ => isStandard_writeNameChar) h

theorem isStandard_hexDigits (n : Nat) : IsStandard (hexDigits n) := by
  intro d hd
  have hh := (hexDigits_spec n).1 d hd
  refine ⟨?_, ?_, ?_⟩ <;>
    · rintro rfl
      contradiction

theorem isStandard_writeNameStart (hc : c ≠ '\x00') : IsStandard (writeNameStart c) := by
  unfold writeNameStart
  split
  next h => exact isStandard_of_isNameChar (by simp [isNameChar, h])
  split
  next => exact (IsStandard.cons_iff.mpr ⟨by decide, isStandard_hexDigits _⟩).append (by decide)
  next => exact isStandard_break_getD hc isStandard_escaped

theorem isStandard_writeIdent (h : '\x00' ∉ name) : IsStandard (writeIdent name) := by
  unfold writeIdent
  split
  · decide
  · simp only [List.mem_cons, not_or] at h
    exact IsStandard.append (t := ['-', '-']) (by decide) (isStandard_writeName h.2.2)
  · simp only [List.mem_cons, not_or] at h
    exact IsStandard.cons_iff.mpr ⟨by decide,
      (isStandard_writeNameStart (Ne.symm h.2.1)).append (isStandard_writeName h.2.2)⟩
  · simp only [List.mem_cons, not_or] at h
    exact (isStandard_writeNameStart (Ne.symm h.1)).append (isStandard_writeName h.2)
  · exact .nil

theorem isStandard_writeUnit (h : '\x00' ∉ name) : IsStandard (Token.writeUnit name) := by
  unfold Token.writeUnit
  split
  · exact .nil
  · split
    · exact IsStandard.append (by decide) (isStandard_writeName fun hm => h (List.mem_cons_of_mem _ hm))
    · exact isStandard_writeIdent h

theorem isStandard_writeString (h : '\x00' ∉ t) : IsStandard (writeString t) := by
  refine isStandard_flatMap (fun c hc => ?_) h
  unfold writeStringChar
  split
  next hq => rcases hq with rfl | rfl <;> decide
  next => exact isStandard_break_getD hc id

theorem isStandard_writeUrl (h : '\x00' ∉ t) : IsStandard (writeUrl t) := by
  refine isStandard_flatMap (fun c hc => ?_) h
  unfold writeUrlChar
  split
  next hq => rcases hq with rfl | rfl | rfl | rfl | rfl | rfl <;> decide
  split
  next => decide
  next => exact isStandard_break_getD hc id

theorem isStandard_writeRange (r : CodeRange) : IsStandard (Token.writeRange r) := by
  unfold Token.writeRange
  have hu : IsStandard "U+" := by decide
  split
  · exact hu.append (isStandard_hexDigits _)
  · exact ((hu.append (isStandard_hexDigits _)).append (by decide)).append (isStandard_hexDigits _)

/-! ### Lexemes -/

namespace Lexeme

/-- What the mark stands for is written in a standard way. -/
def IsStandardMark : Mark → Prop
  | .token tok => IsStandard tok.write
  | .opening o => IsStandard o.written
  | .closing _ => True

theorem isStandard_comment {text : Text} (h : IsStandard text) :
    IsStandard (Token.comment text).write :=
  (IsStandard.append (by decide) h).append (by decide)

theorem isStandard_url {text : Text} (h : '\x00' ∉ text) (closed : Bool) :
    IsStandard (Token.url text closed).write := by
  have hu : IsStandard "url(" := by decide
  refine (hu.append (isStandard_writeUrl h)).append ?_
  cases closed <;> decide

theorem isStandard_string {text : Text} (h : '\x00' ∉ text) (closed : Bool) :
    IsStandard (Token.string text closed).write := by
  refine IsStandard.append (IsStandard.cons_iff.mpr ⟨by decide, isStandard_writeString h⟩) ?_
  cases closed <;> decide

theorem OpensUrl.standard {arguments : Text} {r : Reading} (h : OpensUrl c t name arguments)
    (hr : readUrl arguments = r) (hs : IsStandard (c :: t)) : r.IsStandard := by
  have hn := (readName_standard hs).2
  rw [h.read, IsStandard.cons_iff] at hn
  rw [← hr]
  exact readUrlBody_standard (hn.2.of_suffix (List.dropWhile_suffix _))

theorem Step.standard {m : Mark} (h : Step c t m u) (hs : IsStandard (c :: t)) :
    IsStandardMark m ∧ IsStandard u := by
  have ht := (IsStandard.cons_iff.mp hs).2
  have hc : IsStandard [c] := hs.of_subset (by simp)
  have hname {name rest : Text} (hr : readName (c :: t) = (name, rest)) :
      '\x00' ∉ name ∧ IsStandard rest := by
    have hn := readName_standard hs
    rwa [hr] at hn
  have hnumber {digits rest : Text} (hn : readNumber? (c :: t) = some (digits, rest)) :
      IsStandard digits ∧ IsStandard rest := by
    rw [← (readNumber?_append hn).1] at hs
    exact IsStandard.append_iff.mp hs
  have hstring {r : Reading} (hr : readString c t = r) : r.IsStandard :=
    hr ▸ readString_standard c ht
  cases h with
  | whitespace =>
    exact ⟨IsStandard.cons_iff.mpr ⟨(IsStandard.cons_iff.mp hs).1,
      ht.of_subset (List.takeWhile_prefix _).subset⟩, ht.of_suffix (List.dropWhile_suffix _)⟩
  | codeRange _ hr => exact ⟨isStandard_writeRange _, hs.of_suffix (readRange?_suffix hr)⟩
  | closingMark => exact ⟨(by decide : IsStandard "-->"), by simpa using ht⟩
  | ident _ _ hr => exact ⟨isStandard_writeIdent (hname hr).1, (hname hr).2⟩
  | function _ _ hr =>
    refine ⟨(isStandard_writeIdent (hname hr).1).append (by decide), ?_⟩
    exact (IsStandard.cons_iff.mp (hname hr).2).2
  | url ho hv =>
    have hu := ho.standard hv hs
    exact ⟨isStandard_url hu.1 true, hu.2⟩
  | openUrl ho hv =>
    have hu := ho.standard hv hs
    exact ⟨isStandard_url hu false, .nil⟩
  | badUrl ho hv =>
    have hu := ho.standard hv hs
    exact ⟨(by decide : IsStandard "url([bad url])"), hu⟩
  | number _ _ hn => exact hnumber hn
  | percentage _ _ hn =>
    refine ⟨(hnumber hn).1.append (by decide), ?_⟩
    exact (IsStandard.cons_iff.mp (hnumber hn).2).2
  | dimension _ _ hn =>
    obtain ⟨hu, hr⟩ := readName_standard (hnumber hn).2
    exact ⟨(hnumber hn).1.append (isStandard_writeUnit hu), hr⟩
  | atKeyword =>
    obtain ⟨hu, hr⟩ := readName_standard ht
    exact ⟨IsStandard.cons_iff.mpr ⟨by decide, isStandard_writeIdent hu⟩, hr⟩
  | atSign => exact ⟨hc, ht⟩
  | hash =>
    obtain ⟨hu, hr⟩ := readName_standard ht
    refine ⟨IsStandard.cons_iff.mpr ⟨by decide, ?_⟩, hr⟩
    split
    · exact isStandard_writeIdent hu
    · exact isStandard_writeName hu
  | hashSign => exact ⟨hc, ht⟩
  | @opening b =>
    refine ⟨?_, ht⟩
    have hb : IsStandard [b.opening] := by cases b <;> decide
    exact hb
  | closing => exact ⟨trivial, ht⟩
  | string hq hv =>
    have hu := hstring hv
    exact ⟨isStandard_string hu.1 true, hu.2⟩
  | openString hq hv =>
    have hu := hstring hv
    exact ⟨isStandard_string hu false, .nil⟩
  | badString hq hv =>
    have hu := hstring hv
    exact ⟨(by decide : IsStandard "\"[bad string]\n"), hu⟩
  | comment hb =>
    have hu := (IsStandard.cons_iff.mp ht).2
    rw [Text.breakOn_append hb, IsStandard.append_iff, IsStandard.append_iff] at hu
    exact ⟨isStandard_comment hu.1.1, hu.2⟩
  | openComment => exact ⟨isStandard_comment (IsStandard.cons_iff.mp ht).2, .nil⟩
  | openingMark => exact ⟨(by decide : IsStandard "<!--"), by simpa using ht⟩
  | bars => exact ⟨(by decide : IsStandard "||"), by simpa using ht⟩
  | joined =>
    exact ⟨IsStandard.append (t := [c]) hc (by decide), (IsStandard.cons_iff.mp ht).2⟩
  | sign => exact ⟨hc, ht⟩

end Lexeme

/-! ### Nodes -/

namespace Node

theorem isStandard_between (k : Option Kind) (n : Node) : IsStandard (between k n) := by
  unfold between
  split
  · exact .nil
  · split
    · decide
    · split <;> decide

theorem isStandard_closing (b : Bracket) : IsStandard [b.closing] := by
  cases b <;> decide

theorem Parses.standard {closer : Option Bracket} {s rest : Text} {ns : List Node}
    (h : Parses closer s ns rest) (hs : IsStandard s) (k : Option Kind) :
    IsStandard (writeFrom k ns) ∧ IsStandard rest := by
  induction h generalizing k with
  | nil => exact ⟨.nil, hs⟩
  | @token _ c t _ _ tok _ hn _ ih =>
    have hst := Lexeme.Step.of_next hn
    obtain ⟨hw, hu⟩ := hst.standard hs
    obtain ⟨hns, hr⟩ := ih hu (some tok.kind)
    rw [writeFrom_cons]
    exact ⟨(isStandard_between _ _).append (IsStandard.append hw hns), hr⟩
  | @stray _ _ _ b _ _ _ ih =>
    obtain ⟨hns, hr⟩ := ih (IsStandard.cons_iff.mp hs).2 (some .other)
    rw [writeFrom_cons]
    exact ⟨(isStandard_between _ _).append (IsStandard.append (isStandard_closing b) hns), hr⟩
  | @nested _ c t _ _ _ _ o content _ hn _ he _ ihc ih =>
    have hst := Lexeme.Step.of_next hn
    obtain ⟨hw, hu⟩ := hst.standard hs
    obtain ⟨hcs, hv⟩ := ihc hu none
    obtain ⟨hns, hr⟩ := ih (hv.of_suffix he.suffix) (some (o.node (c :: t) content).kind)
    have hnode : IsStandard (o.node (c :: t) content).write := by
      cases o with
      | bracket b => exact IsStandard.append (t := [b.opening]) hw (hcs.append (isStandard_closing b))
      | function name =>
        have hx : (Opener.node (c :: t) content (.function name)).write = Opener.written (.function name) ++
            (writeFrom none content ++ if lastIsCutOff content then [] else [')']) := by
          rw [Opener.written, List.append_assoc]
          rfl
        rw [hx]
        refine IsStandard.append hw (hcs.append ?_)
        split <;> decide
    rw [writeFrom_cons]
    exact ⟨(isStandard_between _ _).append (hnode.append hns), hr⟩

end Node

end CustomProperties.Syntax

import CustomProperties.Sheet.Read
import CustomProperties.Proofs.Syntax.Standard

/-! # The context of an error

The line of an error is counted by the line breaks of the grammar, but its context is cut from the
line of that number when any line break ends a line. Both are the same line as long as no line
break that the grammar does not know stands in it or before it.
-/

namespace CustomProperties

namespace Syntax

/-- The lines of a text as the grammar counts them. The last one is what follows the last line
break, and may be empty. -/
def lines : Text → List Text
  | [] => [[]]
  | '\r' :: '\n' :: t => [] :: lines t
  | c :: t =>
    if c = '\n' ∨ c = '\r' ∨ c = '\x0C' then [] :: lines t else (lines t).modifyHead (c :: ·)

variable {t : Text} {n : Nat}

theorem lines_ne_nil (t : Text) : lines t ≠ [] := by
  fun_induction lines t with
  | case1 => exact List.cons_ne_nil _ _
  | case2 => exact List.cons_ne_nil _ _
  | case3 => exact List.cons_ne_nil _ _
  | case4 c t _ _ ih =>
    obtain ⟨line, others, h⟩ := List.exists_cons_of_ne_nil ih
    simp [h]

theorem count_standardizeOnto (done t : Text) :
    (standardizeOnto done t).count '\n' + 1 = done.count '\n' + (lines t).length := by
  fun_induction standardizeOnto done t with
  | case1 done => simp [lines]
  | case2 done t ih =>
    rw [ih]
    simp [lines]
    omega
  | case3 done c t hc d ih =>
    rw [ih, lines.eq_3 c t hc]
    by_cases hb : c = '\n' ∨ c = '\r' ∨ c = '\x0C'
    · have hd : d = '\n' := by
        rcases hb with rfl | rfl | rfl <;> rfl
      simp [hd, hb]
      omega
    · have hd : d ≠ '\n' := by
        unfold d
        split
        next h => exact absurd (.inr h) hb
        next =>
          split
          next => decide
          next => exact fun h => hb (.inl h)
      simp [hd, hb]

theorem length_lines (t : Text) : (lines t).length = (standardize t).count '\n' + 1 := by
  rw [standardize, count_standardizeOnto]
  simp

theorem getElem?_lines_eq
    (h : ∀ line ∈ (lines t).take (n + 1), ∀ c ∈ line, Text.isLineBreak c = false) :
    (Text.lines t)[n]?.getD [] = (lines t)[n]?.getD [] := by
  fun_induction lines t generalizing n with
  | case1 => cases n <;> rfl
  | case2 t ih =>
    cases n with
    | zero => rfl
    | succ n => exact ih fun line hl => h line (List.mem_cons_of_mem _ hl)
  | case3 c t hc hb ih =>
    have hl : Text.isLineBreak c = true := by
      rcases hb with rfl | rfl | rfl <;> decide
    rw [Text.lines.eq_3 c t hc, if_pos hl]
    cases n with
    | zero => rfl
    | succ n => exact ih fun line hl => h line (List.mem_cons_of_mem _ hl)
  | case4 c t hc hb ih =>
    obtain ⟨line, others, hl⟩ := List.exists_cons_of_ne_nil (lines_ne_nil t)
    rw [hl, List.modifyHead_cons] at h ⊢
    rw [hl] at ih
    rw [List.take_succ_cons, List.forall_mem_cons] at h
    obtain ⟨hc', hline⟩ := List.forall_mem_cons.mp h.1
    have hi := @ih n (by
      rw [List.take_succ_cons, List.forall_mem_cons]
      exact ⟨hline, h.2⟩)
    rw [Text.lines.eq_3 c t hc, hc']
    cases ht : Text.lines t with
    | nil =>
      rw [ht] at hi
      cases n <;> simp_all
    | cons line' others' =>
      rw [ht] at hi
      cases n <;> simp_all

end Syntax

open Syntax

theorem Position.ofRest_line_le (source rest : Text) :
    (Position.ofRest (standardize source) rest).line ≤ (lines source).length := by
  rw [length_lines]
  exact Nat.succ_le_succ ((List.take_sublist _ _).count_le '\n')

theorem Position.context_eq {source : Text} {p : Position} {line : Text}
    (hl : (Text.lines source)[p.line - 1]?.getD [] = line) (hc : 0 < p.column) :
    p.context source = Text.strip ((line.take (p.column + 29)).drop (p.column - 31)) := by
  have hs : p.column - 1 - contextRadius = p.column - 31 := by
    rw [contextRadius]; omega
  have ht : p.column - 1 + contextRadius - (p.column - 31) = p.column + 29 - (p.column - 31) := by
    rw [contextRadius]; omega
  unfold context
  cases h : (Text.lines source)[p.line - 1]? with
  | none =>
    rw [h] at hl
    rw [← hl]
    simp [Text.strip, Text.stripLeft, Text.stripRight]
  | some l =>
    rw [h] at hl
    dsimp only
    rw [hs, ht, List.drop_take, ← hl]
    rfl

theorem Sheet.exists_of_read_error {source : Text} {e : ParseError}
    (h : Sheet.read source = .error e) : ∃ f : Failure, e = f.error source := by
  unfold Sheet.read at h
  cases hr : readRules true (Node.readAll (standardize source)) with
  | ok s => rw [hr] at h; contradiction
  | error f =>
    rw [hr] at h
    cases h
    exact ⟨f, rfl⟩

/-- An error has a line and a column, and if no line break that the grammar does not know stands in
the lines up to this one, then the context is what lies around the column in this line. -/
theorem context_of_read_error {source : Text} {e : ParseError} (h : Sheet.read source = .error e) :
    ∃ l c : Nat, 0 < l ∧ 0 < c ∧ e.line = some l ∧ e.column = some c ∧
      ∃ line, (lines source)[l - 1]? = some line ∧
        ((∀ line ∈ (lines source).take l, ∀ d ∈ line, Text.isLineBreak d = false) →
          e.context = Text.strip ((line.take (c + 29)).drop (c - 31))) := by
  obtain ⟨f, rfl⟩ := Sheet.exists_of_read_error h
  have hle := Position.ofRest_line_le source f.place
  have hl : 0 < (Position.ofRest (standardize source) f.place).line := Nat.succ_pos _
  have hc : 0 < (Position.ofRest (standardize source) f.place).column := Nat.succ_pos _
  unfold Sheet.Failure.error ParseError.ofPosition
  generalize Position.ofRest (standardize source) f.place = p at hle hl hc
  refine ⟨p.line, p.column, hl, hc, rfl, rfl, _, List.getElem?_eq_getElem (by omega), fun hb => ?_⟩
  refine Position.context_eq ?_ hc
  rw [← Nat.sub_add_cancel hl] at hb
  rw [getElem?_lines_eq hb, List.getElem?_eq_getElem (by omega)]
  rfl

/-- Two kinds of line breaks around the line, and an error in the middle of it. -/
theorem context_of_read_error_in_second_line :
    let line : Text := "/* a comment longer than thirty characters */b\x7bc\x7b\x7d\x7d" ++
      "/* and a second one of this length */"
    let source : Text := "a\x7b\x7d\r\n" ++ line ++ "\rd\x7b\x7d"
    let e : ParseError := ⟨"nested rules inside a declaration block are not supported", some 2,
      some 48, "er than thirty characters */b\x7bc\x7b\x7d\x7d/* and a second one of thi"⟩
    (Sheet.read source = .error e ∧
      ∀ line ∈ (lines source).take 2, ∀ d ∈ line, Text.isLineBreak d = false) ∧
    (lines source)[1]? = some line ∧ e.context = Text.strip ((line.take 77).drop 17) := by
  intro line source e
  have hr : Sheet.read source = .error e := by decide +kernel
  have hb : ∀ line ∈ (lines source).take 2, ∀ d ∈ line, Text.isLineBreak d = false := by
    decide +kernel
  obtain ⟨l, c, -, -, hl, hc, line', hline, hctx⟩ := context_of_read_error hr
  have hl' : (2 : Int) = l := Option.some.inj hl
  have hc' : (48 : Int) = c := Option.some.inj hc
  obtain rfl : l = 2 := by omega
  obtain rfl : c = 48 := by omega
  have hs : (lines source)[1]? = some line := by decide +kernel
  obtain rfl : line' = line := Option.some.inj (hline.symm.trans hs)
  exact ⟨⟨hr, hb⟩, hs, hctx hb⟩

/-- A line break of another script ends the line of the context, but not that of the error. -/
theorem context_of_read_error_misses_line :
    let source : Text := "/*\u2028*/a b"
    ∃ e, Sheet.read source = .error e ∧ e.line = some 1 ∧ e.column = some 8 ∧
      (lines source)[0]? = some source ∧ e.context = "/*" ∧
      e.context ≠ Text.strip ((source.take 37).drop 0) := by
  intro source
  refine ⟨⟨"EOF reached before \x7b\x7d block for a qualified rule.", some 1, some 8, "/*"⟩, ?_⟩
  decide +kernel

end CustomProperties

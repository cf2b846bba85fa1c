import CustomProperties.Proofs.Resolution.Nodes
import CustomProperties.Proofs.Syntax.Roundtrip
import CustomProperties.Proofs.Syntax.Written
import CustomProperties.Sheet.Read
import Mathlib.Data.List.DropRight

/-! # Tidy nodes of a text

Any consecutive tidy nodes of a text can be written on their own and are read back. Stripping what
is written for them takes off the blanks around them and nothing else.
-/

namespace CustomProperties.Syntax.Node

variable {closer : Option Bracket} {ns ms : List Node} {n : Node} {k : Option Kind}

/-- Tidy nodes that are read from a standard text. -/
structure Tidied (closer : Option Bracket) (ns : List Node) : Prop where
  tidy : areTidy ns = true
  parsed : ∃ u v, Parses closer u ns v ∧ IsStandard u

namespace Tidied

theorem of_isInfix (h : Tidied closer ms) (hi : ns <:+: ms) : Tidied closer ns := by
  obtain ⟨before, after, rfl⟩ := hi
  obtain ⟨u, v, hp, hs⟩ := h.parsed
  obtain ⟨y, hp, -⟩ := hp.exists_of_append
  obtain ⟨x, hb, hn⟩ := hp.exists_of_append
  refine ⟨?_, x, y, hn, (hb.standard hs none).2⟩
  have ht := h.tidy
  simp only [areTidy_eq, List.all_append, Bool.and_eq_true] at ht ⊢
  exact ht.1.2

theorem singleton (h : Tidied closer ns) (hm : n ∈ ns) : Tidied closer [n] := by
  obtain ⟨before, after, rfl⟩ := List.append_of_mem hm
  exact h.of_isInfix ⟨before, after, by simp⟩

theorem isTidy (h : Tidied closer ns) (hm : n ∈ ns) : n.isTidy = true := by
  have ht := h.tidy
  rw [areTidy_eq] at ht
  exact List.all_eq_true.mp ht n hm

theorem standard (h : Tidied closer ns) (k : Option Kind) : IsStandard (writeFrom k ns) := by
  obtain ⟨u, v, hp, hs⟩ := h.parsed
  exact (hp.standard hs k).1

theorem content {content : List Node} (h : Tidied closer ns) (hm : n ∈ ns)
    (hb : n.body? = some content) : Tidied (some .curly) content := by
  obtain ⟨u, v, hp, hs⟩ := (h.singleton hm).parsed
  have ht := h.isTidy hm
  cases hp with
  | token => contradiction
  | stray => contradiction
  | @nested _ c t _ _ _ _ o content' _ hn hc _ _ =>
    have hst := Lexeme.Step.of_next hn
    cases o with
    | function name => contradiction
    | bracket b =>
      cases b with
      | curly =>
        cases hb
        exact ⟨(isTidy_node ht).2, _, _, hc, (hst.standard hs).2⟩
      | round => contradiction
      | square => contradiction

/-- What is written for tidy nodes is read back in front of what continues none of them. -/
theorem exists_like (h : Tidied closer ns) {w : Text} (hw : Stopped w)
    (hb : ns.getLast?.any isBlank = true → w.head?.any isSpace = false) :
    ∃ ms, Like none ns ms ∧ Parses closer (writeAll ns ++ w) ms w := by
  obtain ⟨u, v, hp, -⟩ := h.parsed
  exact (hp.respelled h.tidy hw hb (k := none) nofun).1

theorem kind_ne (h : Tidied closer ns) (hm : n ∈ ns) : n.kind ≠ .literal ['\\'] := by
  have ht := h.isTidy hm
  cases n with
  | token p tok =>
    rw [Node.isTidy, Bool.and_eq_true] at ht
    intro hk
    have hl : tok = .literal ['\\'] := by
      cases tok <;> cases hk
      rfl
    rw [hl, Token.isTidy, bne_self_eq_false] at ht
    exact absurd ht.1 Bool.false_ne_true
  | block p b content => cases b <;> exact nofun
  | function p name arguments => exact nofun

theorem isBlank_write (h : Tidied closer ns) (hm : n ∈ ns) (hb : n.isBlank = true) :
    ∀ c ∈ n.write, Text.isBlank c = true := by
  obtain ⟨u, v, hp, -⟩ := (h.singleton hm).parsed
  cases hp with
  | @token _ c t _ _ tok _ hn _ =>
    have hst := Lexeme.Step.of_next hn
    cases hst with
    | whitespace hs =>
      have hall : ∀ d ∈ c :: t.takeWhile isSpace, isSpace d = true :=
        List.forall_mem_cons.mpr ⟨hs, List.all_eq_true.mp List.all_takeWhile⟩
      exact fun d hd => isBlank_of_isSpace (hall d hd)
    | _ => contradiction
  | stray => contradiction
  | @nested _ _ _ _ _ _ _ o => cases o <;> contradiction

end Tidied

/-! ### Written blanks -/

def AreBlank (ns : List Node) : Prop :=
  ∀ n ∈ ns, n.isBlank = true ∧ ∀ c ∈ n.write, Text.isBlank c = true

theorem kind_of_isBlank (h : n.isBlank = true) : n.kind = .other := by
  unfold isBlank at h
  split at h
  next => rfl
  next => contradiction

theorem AreBlank.isBlank_writeFrom (h : AreBlank ns) (k : Option Kind) :
    ∀ c ∈ writeFrom k ns, Text.isBlank c = true := by
  induction ns generalizing k with
  | nil => exact nofun
  | cons n ns ih =>
    obtain ⟨hn, hns⟩ := List.forall_mem_cons.mp h
    have hb : ∀ c ∈ between k n, Text.isBlank c = true := by
      unfold between
      split
      next => exact nofun
      next a =>
        rw [kind_of_isBlank hn.1, clash_other, if_neg Bool.false_ne_true]
        split
        next => decide
        next => exact nofun
    rw [writeFrom_cons, List.forall_mem_append, List.forall_mem_append]
    exact ⟨hb, hn.2, ih hns _⟩

theorem AreBlank.writeFrom_append (h : AreBlank ns) (ms : List Node) :
    writeFrom none (ns ++ ms) = writeFrom none ns ++ writeFrom none ms := by
  rw [Node.writeFrom_append]
  cases hl : ns.getLast? with
  | none => rfl
  | some n =>
    have hk := kind_of_isBlank (h n (List.mem_of_getLast? hl)).1
    rw [Option.map_some, hk, Option.some_or, writeFrom_other]

theorem firm_write (ht : n.isTidy = true) (hb : n.isBlank = false) :
    n.write ≠ [] ∧ n.write.head?.any Text.isBlank = false ∧
      n.write.getLast?.any Text.isBlank = false := by
  obtain ⟨c, u, hw, hc⟩ := exists_write ht hb
  refine ⟨by rw [hw]; exact List.cons_ne_nil _ _, by rw [hw]; exact hc, ?_⟩
  have hclose (b : Bracket) : Text.isBlank b.closing = false := by cases b <;> decide
  cases n with
  | token p tok =>
    simp only [isTidy, hb, Bool.false_or, hasFirmEnds, Bool.and_eq_true] at ht
    have hl := ht.2.2
    change tok.write.getLast?.any Text.isBlank = false
    cases hg : tok.write.getLast? with
    | none => rfl
    | some d =>
      rw [hg] at hl
      simpa using hl
  | block p b content =>
    have hx : (block p b content).write = b.opening :: writeFrom none content ++ [b.closing] := rfl
    rw [hx, List.getLast?_concat]
    exact hclose b
  | function p name arguments =>
    have hcut := lastIsCutOff_of_areTidy arguments (isTidy_node (o := .function name) ht).2
    have hx := write_node (o := .function name) hcut p
    change (Opener.node p arguments (.function name)).write.getLast?.any Text.isBlank = false
    rw [hx, ← List.append_assoc, List.getLast?_concat]
    exact hclose .round

/-! ### Trimmed nodes -/

def trim (ns : List Node) : List Node := (ns.dropWhile isBlank).rdropWhile isBlank

theorem exists_of_trim (ns : List Node) : ∃ before after, ns = before ++ (trim ns ++ after) ∧
    (∀ n ∈ before, n.isBlank = true) ∧ ∀ n ∈ after, n.isBlank = true := by
  refine ⟨ns.takeWhile isBlank, (ns.dropWhile isBlank).rtakeWhile isBlank, ?_,
    List.all_eq_true.mp List.all_takeWhile, fun n hn => List.mem_rtakeWhile_imp hn⟩
  rw [trim, List.rdropWhile_append_rtakeWhile, List.takeWhile_append_dropWhile]

theorem isInfix_trim (ns : List Node) : trim ns <:+: ns := by
  obtain ⟨before, after, h, -⟩ := exists_of_trim ns
  exact ⟨before, after, by rw [List.append_assoc]; exact h.symm⟩

theorem firm_trim (ns : List Node) :
    (trim ns).head?.any isBlank = false ∧ (trim ns).getLast?.any isBlank = false := by
  constructor
  · obtain ⟨after, ha⟩ : trim ns <+: ns.dropWhile isBlank := List.rdropWhile_prefix isBlank _
    have hd := Text.head?_dropWhile isBlank ns
    rw [← ha] at hd
    cases ht : trim ns with
    | nil => rfl
    | cons n ms =>
      rw [ht] at hd
      exact hd
  · cases hl : (trim ns).getLast? with
    | none => rfl
    | some n =>
      have hne : trim ns ≠ [] := by
        rintro he
        rw [he] at hl
        contradiction
      have hn := List.rdropWhile_last_not isBlank (ns.dropWhile isBlank) hne
      rw [List.getLast?_eq_some_getLast hne] at hl
      obtain rfl := Option.some.inj hl
      exact eq_false_of_ne_true hn

theorem firm_writeAll (h : areTidy ns = true) (hh : ns.head?.any isBlank = false)
    (hl : ns.getLast?.any isBlank = false) : Text.strip (writeAll ns) = writeAll ns := by
  cases ns with
  | nil => rfl
  | cons n ns =>
    have ht : ∀ m ∈ n :: ns, m.isTidy = true := by
      rw [areTidy_eq] at h
      exact List.all_eq_true.mp h
    obtain ⟨-, hn, -⟩ := firm_write (ht n List.mem_cons_self) hh
    refine Text.strip_eq_self ?_ ?_
    · obtain ⟨c, u, hw, hc⟩ := exists_write (ht n List.mem_cons_self) hh
      rw [writeAll, writeFrom_cons, hw]
      exact hc
    · obtain ⟨before, m, he⟩ := List.eq_nil_or_concat (n :: ns) |>.resolve_left (List.cons_ne_nil _ _)
      rw [he] at hl ht ⊢
      rw [List.concat_eq_append] at hl ht ⊢
      rw [List.getLast?_concat] at hl
      obtain ⟨hne, -, hm⟩ := firm_write (ht m (by simp)) hl
      rw [writeAll, writeFrom_append, writeFrom_cons, writeFrom, List.append_nil,
        List.getLast?_append_of_ne_nil _ (List.append_ne_nil_of_right_ne_nil _ hne),
        List.getLast?_append_of_ne_nil _ hne]
      exact hm

theorem Tidied.writtenText_eq (h : Tidied closer ns) : Sheet.writtenText ns = writeAll (trim ns) := by
  obtain ⟨before, after, he, hb, ha⟩ := exists_of_trim ns
  have hm : ∀ n ∈ before ++ after, n ∈ ns := by
    rw [he]
    simp only [List.mem_append]
    tauto
  have hbefore : AreBlank before := fun n hn =>
    ⟨hb n hn, h.isBlank_write (hm n (List.mem_append_left _ hn)) (hb n hn)⟩
  have hafter : AreBlank after := fun n hn =>
    ⟨ha n hn, h.isBlank_write (hm n (List.mem_append_right _ hn)) (ha n hn)⟩
  have hw : writeAll ns = writeFrom none before ++ (writeAll (trim ns) ++
      writeFrom (((trim ns).getLast?.map kind).or none) after) := by
    rw [writeAll, congrArg (writeFrom none) he, hbefore.writeFrom_append, writeFrom_append]
    rfl
  have ht := (h.of_isInfix (isInfix_trim ns)).tidy
  rw [Sheet.writtenText, hw, Text.strip_blank_append (hbefore.isBlank_writeFrom none),
    Text.strip_append_of_blank _ (hafter.isBlank_writeFrom _),
    firm_writeAll ht (firm_trim ns).1 (firm_trim ns).2]

end CustomProperties.Syntax.Node

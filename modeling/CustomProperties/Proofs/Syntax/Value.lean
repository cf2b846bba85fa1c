import CustomProperties.Proofs.Syntax.Item
import CustomProperties.Proofs.Syntax.Roundtrip
import Mathlib.Data.List.Induction

/-! # Values and what they are read as

Whether nodes are read as a value, and with or without a mark of importance, depends on a few
things about each of them and on no filler. So nodes that are alike are read alike, and comments
behind a value without a mark become a part of it.
-/

namespace CustomProperties.Syntax

namespace Node

/-- A node that neither ends a value nor is a block in curly brackets. -/
def isPlain (n : Node) : Bool := !n.isLiteral [';'] && n.body?.isNone

def isComment : Node → Bool
  | token _ (.comment _) => true
  | _ => false

theorem isFiller_of_isComment {n : Node} (h : n.isComment = true) : n.isFiller = true := by
  unfold isComment at h
  split at h
  next => rfl
  next => contradiction

theorem isPlain_of_isFiller {n : Node} (h : n.isFiller = true) : n.isPlain = true := by
  unfold isFiller at h
  split at h
  next => rfl
  next => rfl
  next => contradiction

end Node

namespace Item

open Node

/-! ### Taking a value -/

theorem takeValue_append {ns : List Node} (h : ∀ n ∈ ns, n.isPlain = true) (rest : List Node) :
    takeValue (ns ++ rest) = (ns ++ (takeValue rest).1, (takeValue rest).2) := by
  induction ns with
  | nil => rfl
  | cons n ns ih =>
    rw [List.forall_mem_cons] at h
    have hn := h.1
    simp only [isPlain, Bool.and_eq_true, Bool.not_eq_true', Option.isNone_iff_eq_none] at hn
    rw [List.cons_append, takeValue, hn.1, hn.2, ih h.2]
    rfl

theorem takeValue_semicolon {n : Node} (h : n.isLiteral [';'] = true) (rest : List Node) :
    takeValue (n :: rest) = ([], rest) := by
  rw [takeValue, if_pos h]

theorem takeValue_body {n : Node} (h : n.body?.isSome = true) (rest : List Node) :
    takeValue (n :: rest) = ([n], rest) := by
  have hl : n.isLiteral [';'] = false := by
    cases n with
    | token => contradiction
    | block => rfl
    | function => rfl
  rw [takeValue, hl, h]
  rfl

/-- Plain nodes, behind which one block in curly brackets may stand. -/
def IsTaken (ns : List Node) : Prop :=
  (∀ n ∈ ns, n.isPlain = true) ∨
    ∃ before n, ns = before ++ [n] ∧ (∀ m ∈ before, m.isPlain = true) ∧ n.body?.isSome = true

theorem isTaken_takeValue (ns : List Node) : IsTaken (takeValue ns).1 := by
  induction ns with
  | nil => exact .inl (List.forall_mem_nil _)
  | cons n ns ih =>
    rw [takeValue]
    split
    next => exact .inl (List.forall_mem_nil _)
    next hl =>
      split
      next hb => exact .inr ⟨[], n, rfl, List.forall_mem_nil _, hb⟩
      next hb =>
        have hn : n.isPlain = true := by
          simpa [isPlain, hl] using hb
        rcases ih with h | ⟨before, m, he, hm, hmb⟩
        · exact .inl (List.forall_mem_cons.mpr ⟨hn, h⟩)
        · exact .inr ⟨n :: before, m, congrArg (n :: ·) he, List.forall_mem_cons.mpr ⟨hn, hm⟩, hmb⟩

theorem IsTaken.of_isInfix {ns ms : List Node} (h : IsTaken ms) (hi : ns <:+: ms) : IsTaken ns := by
  rcases h with h | ⟨before, n, rfl, hb, hn⟩
  · exact .inl fun n hm => h n (hi.subset hm)
  · rcases List.infix_concat_iff.mp hi with hs | hi
    · rcases List.suffix_concat_iff.mp hs with rfl | ⟨ms, rfl, hms⟩
      · exact .inl nofun
      · exact .inr ⟨ms, n, rfl, fun m hm => hb m (hms.subset hm), hn⟩
    · exact .inl fun m hm => hb m (hi.subset hm)

theorem isPlain_of_alike {n m : Node} (h : Alike n m) : m.isPlain = n.isPlain := by
  have hb : m.body?.isNone = n.body?.isNone := by
    rw [← Option.not_isSome, ← Option.not_isSome, h.body?_isSome]
  rw [isPlain, isPlain, h.isLiteral, hb]

theorem isPlain_of_like {k : Option Kind} {ns ms : List Node} (h : ∀ n ∈ ns, n.isPlain = true)
    (hl : Like k ns ms) : ∀ m ∈ ms, m.isPlain = true := by
  intro m hm
  rcases hl.alike_of_mem hm with ⟨q, rfl⟩ | ⟨n, hn, ha⟩
  · rfl
  · rw [isPlain_of_alike ha]
    exact h n hn

theorem IsTaken.of_like {k : Option Kind} {ns ms : List Node} (h : IsTaken ns) (hl : Like k ns ms) :
    IsTaken ms := by
  rcases h with h | ⟨before, n, rfl, hb, hn⟩
  · exact .inl (isPlain_of_like h hl)
  · obtain ⟨ms', m, rfl, ha, hms⟩ := hl.exists_of_concat
    refine .inr ⟨ms', m, rfl, fun l hl => ?_, ha.body?_isSome.trans hn⟩
    rcases hms l hl with ⟨q, rfl⟩ | ⟨n, hn, ha⟩
    · rfl
    · rw [isPlain_of_alike ha]
      exact hb n hn

/-! ### The scan of a value -/

namespace ValueScan

def initial : ValueScan := ⟨[], .plain, false, false⟩

/-- How far a mark of importance has been read. -/
inductive Phase
  | plain
  | bang
  | important
  deriving DecidableEq

def phase (s : ValueScan) : Phase :=
  match s.ending with
  | .plain => .plain
  | .bang _ => .bang
  | .important _ => .important

/-- The scans differ in the nodes that they have seen only. -/
structure Similar (s t : ValueScan) : Prop where
  phase : s.phase = t.phase
  content : s.hasContent = t.hasContent
  block : s.misplacedBlock = t.misplacedBlock

theorem Similar.refl (s : ValueScan) : Similar s s := ⟨rfl, rfl, rfl⟩

theorem Similar.trans {s t u : ValueScan} (h : Similar s t) (h' : Similar t u) : Similar s u :=
  ⟨h.phase.trans h'.phase, h.content.trans h'.content, h.block.trans h'.block⟩

theorem Similar.symm {s t : ValueScan} (h : Similar s t) : Similar t s :=
  ⟨h.phase.symm, h.content.symm, h.block.symm⟩

theorem similar_filler {n : Node} (h : n.isFiller = true) (s : ValueScan) : Similar (s.step n) s := by
  unfold step
  dsimp only
  rw [if_pos h]
  exact ⟨rfl, rfl, rfl⟩

theorem similar_fillers {ns : List Node} (h : ∀ n ∈ ns, n.isFiller = true) (s : ValueScan) :
    Similar (ns.foldl step s) s := by
  induction ns generalizing s with
  | nil => exact .refl s
  | cons n ns ih =>
    rw [List.forall_mem_cons] at h
    exact (ih h.2 (s.step n)).trans (similar_filler h.1 s)

structure SameRole (n m : Node) : Prop where
  filler : n.isFiller = m.isFiller
  bang : n.isLiteral ['!'] = m.isLiteral ['!']
  name : isImportantName n = isImportantName m
  body : n.body?.isSome = m.body?.isSome

theorem Similar.step {s t : ValueScan} {n m : Node} (h : Similar s t) (hr : SameRole n m) :
    Similar (s.step n) (t.step m) := by
  obtain ⟨hp, hc, hb⟩ := h
  unfold ValueScan.step
  dsimp only
  rw [hr.filler]
  split
  next => exact ⟨hp, hc, hb⟩
  next =>
    rw [hr.bang, hr.name, hr.body, hc, hb]
    obtain ⟨seen, ending, content, block⟩ := s
    obtain ⟨seen', ending', content', block'⟩ := t
    cases ending <;> cases ending' <;> first | contradiction | skip
    all_goals
      dsimp only
      first
      | exact ⟨rfl, rfl, rfl⟩
      | split <;> first | exact ⟨rfl, hc, rfl⟩ | exact ⟨rfl, rfl, rfl⟩

theorem Similar.foldl {s t : ValueScan} (h : Similar s t) (ns : List Node) :
    Similar (ns.foldl ValueScan.step s) (ns.foldl ValueScan.step t) := by
  induction ns generalizing s t with
  | nil => exact h
  | cons n ns ih => exact ih (h.step ⟨rfl, rfl, rfl, rfl⟩)

theorem sameRole_token (p q : Text) (t : Token) : SameRole (.token p t) (.token q t) := by
  cases t <;> exact ⟨rfl, rfl, rfl, rfl⟩

theorem Similar.of_like {k : Option Kind} {ns ms : List Node} (h : Like k ns ms) {s t : ValueScan}
    (hs : Similar s t) : Similar (ns.foldl ValueScan.step s) (ms.foldl ValueScan.step t) := by
  induction h generalizing s t with
  | nil => exact hs
  | @token _ p q tok _ _ _ _ ih => exact ih (hs.step (sameRole_token p q tok))
  | @nested _ p q o content content' _ _ _ _ _ _ ih =>
    refine ih (hs.step ?_)
    cases o with
    | bracket b => cases b <;> exact ⟨rfl, rfl, rfl, rfl⟩
    | function name => exact ⟨rfl, rfl, rfl, rfl⟩
  | parted _ _ ih => exact ih (hs.trans (similar_filler rfl t).symm)

end ValueScan

def scan (ns : List Node) : ValueScan := ns.foldl ValueScan.step .initial

open ValueScan (Similar)

theorem scan_append (ns ms : List Node) : scan (ns ++ ms) = ms.foldl ValueScan.step (scan ns) :=
  List.foldl_append ..

theorem scan_seen (ns : List Node) : (scan ns).seen = ns.reverse := by
  have h := (ValueScan.foldl_spec (s := .initial) nofun ns).1
  rwa [ValueScan.initial, List.append_nil] at h

theorem scan_concat (ns : List Node) (n : Node) : scan (ns ++ [n]) = (scan ns).step n :=
  scan_append ns [n]

theorem readValue?_eq (ns : List Node) : readValue? ns =
    if (scan ns).misplacedBlock then none
    else
      match (scan ns).ending with
      | .important before => some (before.reverse, true)
      | _ => some (ns, false) := by
  have hs := scan_seen ns
  unfold readValue?
  change (if (scan ns).misplacedBlock = true then none
    else match (scan ns).ending with
      | .important before => some (before.reverse, true)
      | _ => some ((scan ns).seen.reverse, false)) = _
  rw [hs, List.reverse_reverse]

theorem similar_scan {before after : List Node} (hb : ∀ n ∈ before, n.isFiller = true)
    (ha : ∀ n ∈ after, n.isFiller = true) (ns : List Node) :
    Similar (scan ns) (scan (before ++ (ns ++ after))) := by
  rw [scan_append, List.foldl_append]
  refine .trans ?_ (ValueScan.similar_fillers ha _).symm
  exact Similar.foldl (ValueScan.similar_fillers hb .initial).symm ns

theorem similar_of_like {ns ms : List Node} (h : Like none ns ms) : Similar (scan ns) (scan ms) :=
  .of_like h (.refl _)

theorem readValue?_of_phase {ns : List Node} (hb : (scan ns).misplacedBlock = false)
    (hp : (scan ns).phase ≠ .important) : readValue? ns = some (ns, false) := by
  rw [readValue?_eq, hb, if_neg Bool.false_ne_true]
  split
  next he => exact absurd (by rw [ValueScan.phase, he]) hp
  next => rfl

theorem phase_of_readValue? {ns value : List Node} (h : readValue? ns = some (value, false)) :
    value = ns ∧ (scan ns).misplacedBlock = false ∧ (scan ns).phase ≠ .important := by
  rw [readValue?_eq] at h
  split at h
  next => contradiction
  next hb =>
    split at h
    next => simp at h
    next he =>
      cases h
      refine ⟨rfl, eq_false_of_ne_true hb, fun hp => ?_⟩
      unfold ValueScan.phase at hp
      split at hp
      next => contradiction
      next => contradiction
      next before hi => exact he before hi

theorem scan_before (ns : List Node) : ∀ before, (scan ns).ending.before? = some before →
    (scan before.reverse).phase = .plain ∧
      ((scan before.reverse).misplacedBlock = true → (scan ns).misplacedBlock = true) := by
  induction ns using List.reverseRecOn with
  | nil => exact nofun
  | append_singleton ns n ih =>
    intro before hb
    have hs := scan_seen ns
    rw [scan_concat] at hb ⊢
    generalize hsn : scan ns = s at *
    unfold ValueScan.step at hb ⊢
    dsimp only at hb ⊢
    by_cases hf : n.isFiller = true
    · rw [if_pos hf] at hb ⊢
      exact ih before hb
    · rw [if_neg hf] at hb ⊢
      cases he : s.ending with
      | plain =>
        simp only [he] at hb ⊢
        by_cases hl : n.isLiteral ['!'] = true
        · rw [if_pos hl] at hb ⊢
          obtain rfl := Option.some.inj hb
          rw [hs, List.reverse_reverse, hsn]
          exact ⟨by rw [ValueScan.phase, he], id⟩
        · rw [if_neg hl] at hb
          contradiction
      | bang mark =>
        simp only [he] at hb ⊢
        by_cases hi : isImportantName n = true
        · rw [if_pos hi] at hb ⊢
          exact ih before (he ▸ hb)
        · rw [if_neg hi] at hb
          contradiction
      | important mark =>
        simp only [he] at hb
        contradiction

theorem phase_of_readValue?_important {ns value : List Node}
    (h : readValue? ns = some (value, true)) :
    (scan value).phase = .plain ∧ (scan value).misplacedBlock = false := by
  rw [readValue?_eq] at h
  split at h
  next => contradiction
  next hb =>
    split at h
    next before he =>
      cases h
      obtain ⟨hp, hm⟩ := scan_before ns before (by rw [he]; rfl)
      exact ⟨hp, eq_false_of_ne_true fun h => hb (hm h)⟩
    next => simp at h

theorem foldl_fillers {ns : List Node} (h : ∀ n ∈ ns, n.isFiller = true) (s : ValueScan) :
    ns.foldl ValueScan.step s = { s with seen := ns.reverse ++ s.seen } := by
  induction ns generalizing s with
  | nil => rfl
  | cons n ns ih =>
    rw [List.forall_mem_cons] at h
    have hn : s.step n = { s with seen := n :: s.seen } := by
      unfold ValueScan.step
      dsimp only
      rw [if_pos h.1]
    rw [List.foldl_cons, hn, ih h.2, List.reverse_cons, List.append_assoc]
    rfl

/-- Nodes with a mark behind them, and fillers behind the mark, are the value in front of it. -/
theorem readValue?_mark {ns after : List Node} {bang name : Node}
    (hp : (scan ns).phase = .plain) (hb : (scan ns).misplacedBlock = false)
    (hl : bang.isLiteral ['!'] = true) (hn : isImportantName name = true)
    (ha : ∀ n ∈ after, n.isFiller = true) :
    readValue? (ns ++ bang :: name :: after) = some (ns, true) := by
  have hlf : bang.isFiller = false := by
    unfold Node.isLiteral at hl
    split at hl
    next => rfl
    next => contradiction
  have hnf : name.isFiller = false := by
    unfold isImportantName at hn
    split at hn
    next => rfl
    next => contradiction
  have hpl : (scan ns).ending = .plain := by
    unfold ValueScan.phase at hp
    split at hp
    next h => exact h
    next => contradiction
    next => contradiction
  have hs : scan (ns ++ bang :: name :: after) =
      ⟨after.reverse ++ name :: bang :: ns.reverse, .important ns.reverse, (scan ns).hasContent,
        false⟩ := by
    rw [scan_append]
    have h₁ : (scan ns).step bang =
        ⟨bang :: ns.reverse, .bang ns.reverse, (scan ns).hasContent, false⟩ := by
      unfold ValueScan.step
      dsimp only
      rw [hlf, if_neg Bool.false_ne_true, hpl, scan_seen]
      dsimp only
      rw [if_pos hl, hb]
    have h₂ : (⟨bang :: ns.reverse, .bang ns.reverse, (scan ns).hasContent, false⟩ :
        ValueScan).step name = ⟨name :: bang :: ns.reverse, .important ns.reverse,
          (scan ns).hasContent, false⟩ := by
      unfold ValueScan.step
      dsimp only
      rw [hnf, if_neg Bool.false_ne_true]
      exact if_pos hn
    rw [List.foldl_cons, h₁, List.foldl_cons, h₂, foldl_fillers ha]
  rw [readValue?_eq, hs, if_neg Bool.false_ne_true]
  simp

theorem phase_of_unmarked {ns : List Node} (h : ∀ n ∈ ns, n.isLiteral ['!'] = false) :
    (scan ns).phase = .plain := by
  have he : (scan ns).ending = .plain := by
    induction ns using List.reverseRecOn with
    | nil => rfl
    | append_singleton ns n ih =>
      rw [List.forall_mem_append, List.forall_mem_singleton] at h
      rw [scan_concat]
      unfold ValueScan.step
      dsimp only
      rw [ih h.1, h.2]
      split
      next => rfl
      next => rfl
  rw [ValueScan.phase, he]

theorem readValue?_append_comments {ns cs : List Node} (h : readValue? ns = some (ns, false))
    (hc : ∀ c ∈ cs, c.isComment = true) : readValue? (ns ++ cs) = some (ns ++ cs, false) := by
  obtain ⟨-, hb, hp⟩ := phase_of_readValue? h
  have hs := ValueScan.similar_fillers (fun c hm => isFiller_of_isComment (hc c hm)) (scan ns)
  rw [← scan_append] at hs
  exact readValue?_of_phase (hs.block.trans hb) fun he => hp (hs.phase ▸ he)

theorem misplacedBlock_of_plain {ns : List Node} (h : ∀ n ∈ ns, n.isPlain = true) :
    (scan ns).misplacedBlock = false := by
  have hstep {n : Node} (hn : n.body?.isSome = false) (s : ValueScan) :
      (s.step n).misplacedBlock = s.misplacedBlock := by
    unfold ValueScan.step
    dsimp only
    rw [hn, Bool.and_false, Bool.or_false]
    split
    next => rfl
    next => split <;> first | rfl | (split <;> rfl)
  induction ns using List.reverseRecOn with
  | nil => rfl
  | append_singleton ns n ih =>
    rw [List.forall_mem_append] at h
    have hn : n.body?.isSome = false := by
      have hp := h.2 n List.mem_cons_self
      simp only [isPlain, Bool.and_eq_true] at hp
      simpa using hp.2
    rw [scan_concat, hstep hn]
    exact ih h.1

theorem isSome_readValue?_of_plain {ns : List Node} (h : ∀ n ∈ ns, n.isPlain = true) :
    (readValue? ns).isSome = true := by
  rw [readValue?_eq, misplacedBlock_of_plain h, if_neg Bool.false_ne_true]
  split <;> rfl

theorem readValue?_concat_body {ns : List Node} {n : Node} (hn : n.body?.isSome = true)
    {value : List Node} {important : Bool} (h : readValue? (ns ++ [n]) = some (value, important)) :
    important = false := by
  have hf : n.isFiller = false ∧ n.isLiteral ['!'] = false ∧ isImportantName n = false := by
    cases n with
    | token => contradiction
    | block => exact ⟨rfl, rfl, rfl⟩
    | function => contradiction
  cases important with
  | false => rfl
  | true =>
    rw [readValue?_eq, scan_concat] at h
    have he : ((scan ns).step n).ending = .plain := by
      unfold ValueScan.step
      dsimp only
      rw [hf.1, if_neg Bool.false_ne_true, hf.2.1, hf.2.2]
      split <;> rfl
    rw [he] at h
    split at h <;> simp at h

theorem exists_of_declaration {ns value rest : List Node} {name : Text} {important : Bool}
    (h : nextDeclaration? ns = some (.declaration name value important, rest)) :
    ∃ place taken, .token place (.ident name) ∈ ns ∧ taken <:+: ns ∧ IsTaken taken ∧
      readValue? taken = some (value, important) := by
  obtain ⟨n, ms, hs, ho⟩ := exists_of_nextDeclaration? h
  unfold ofDeclaration at ho
  split at ho
  next place name' =>
    dsimp only at ho
    split at ho
    next hr =>
      cases ho
      unfold readDeclaration? at hr
      split at hr
      next => contradiction
      next m taken hd =>
        split at hr
        next =>
          have ht : taken <:+ (takeValue ms).1 :=
            (List.suffix_cons m taken).trans (hd ▸ List.dropWhile_suffix isFiller)
          have hi : taken <:+: ms := ht.isInfix.trans (prefix_takeValue ms).isInfix
          exact ⟨place, taken, hs.mem List.mem_cons_self,
            hi.trans ((List.suffix_cons _ ms).trans hs).isInfix,
            (isTaken_takeValue ms).of_isInfix ht.isInfix, hr⟩
        next => contradiction
    next => simp at ho
  next => simp at ho

end Item

end CustomProperties.Syntax

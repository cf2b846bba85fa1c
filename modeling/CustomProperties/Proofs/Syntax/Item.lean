import CustomProperties.Proofs.Syntax.Reads
import CustomProperties.Syntax.Item

/-! # Where items come from

The prelude of a rule and the value of a declaration are consecutive nodes of the list that the
item is taken from, and the content of a rule is the content of a block in it.
-/

namespace CustomProperties.Syntax

namespace Item

theorem exists_of_ofRule {stops : Bool} {place : Text} {n : Node} {ns prelude content rest : List Node}
    (h : ofRule stops n ns = (.rule place prelude content, rest)) :
    ∃ m, n :: ns = prelude ++ m :: rest ∧ m.body? = some content := by
  unfold ofRule at h
  split at h
  · simp at h
  · simp at h
  · rcases takeRule_cases stops n.place [] (n :: ns) with ⟨_, _, _, he⟩ | ⟨_, m, _, _, he, hn, hb⟩
    · simp [he] at h
    · rw [he] at h
      cases h
      exact ⟨m, hn, hb⟩

theorem prefix_takeValue (ns : List Node) : (takeValue ns).1 <+: ns := by
  induction ns with
  | nil => simp [takeValue]
  | cons n ns ih =>
    rw [takeValue]
    split
    · exact List.nil_prefix
    · split
      · exact ⟨ns, rfl⟩
      · exact (List.prefix_cons_inj n).mpr ih

def Ending.before? : Ending → Option (List Node)
  | plain => none
  | bang before => some before
  | important before => some before

namespace ValueScan

/-- A step notes the node, and a mark that it starts has the nodes seen so far before it. -/
theorem step_spec (s : ValueScan) (n : Node) :
    (s.step n).seen = n :: s.seen ∧ ∀ before, (s.step n).ending.before? = some before →
      before = s.seen ∨ s.ending.before? = some before := by
  unfold step
  dsimp only
  split
  next => exact ⟨rfl, fun _ h => .inr h⟩
  next =>
    cases s.ending with
    | plain =>
      dsimp only
      split
      · exact ⟨rfl, fun _ h => .inl (Option.some.inj h).symm⟩
      · exact ⟨rfl, nofun⟩
    | bang before =>
      dsimp only
      split
      · exact ⟨rfl, fun _ h => .inr h⟩
      · exact ⟨rfl, nofun⟩
    | important before => exact ⟨rfl, nofun⟩

theorem foldl_spec {s : ValueScan}
    (hs : ∀ before, s.ending.before? = some before → before <:+ s.seen) (ns : List Node) :
    (ns.foldl step s).seen = ns.reverse ++ s.seen ∧
      ∀ before, (ns.foldl step s).ending.before? = some before →
        before <:+ (ns.foldl step s).seen := by
  induction ns generalizing s with
  | nil => exact ⟨rfl, hs⟩
  | cons n ns ih =>
    obtain ⟨hseen, hending⟩ := s.step_spec n
    have hs' : ∀ before, (s.step n).ending.before? = some before → before <:+ (s.step n).seen := by
      intro before hb
      rw [hseen]
      rcases hending before hb with rfl | hb
      · exact List.suffix_cons n _
      · exact (hs before hb).trans (List.suffix_cons n _)
    obtain ⟨hf, he⟩ := ih hs'
    refine ⟨?_, he⟩
    rw [List.foldl_cons, hf, hseen]
    simp

end ValueScan

theorem prefix_of_readValue? {ns value : List Node} {important : Bool}
    (h : readValue? ns = some (value, important)) : value <+: ns := by
  obtain ⟨hseen, hending⟩ := ValueScan.foldl_spec (s := ⟨[], .plain, false, false⟩) nofun ns
  rw [List.append_nil] at hseen
  unfold readValue? at h
  dsimp only at h
  split at h
  · contradiction
  split at h
  next before he =>
    cases h
    have hb := hending before (by rw [he]; rfl)
    rw [hseen] at hb
    rw [← List.reverse_reverse ns]
    exact List.reverse_prefix.mpr hb
  next =>
    cases h
    rw [hseen]
    simp

theorem infix_of_readDeclaration? {ns value : List Node} {important : Bool}
    (h : readDeclaration? ns = some (value, important)) : value <:+: ns := by
  unfold readDeclaration? at h
  have hd := List.dropWhile_suffix Node.isFiller (l := ns)
  split at h
  · contradiction
  · next n ms he =>
    rw [he] at hd
    split at h
    · exact (prefix_of_readValue? h).isInfix.trans ((List.suffix_cons n ms).trans hd).isInfix
    · contradiction

theorem ofDeclaration_eq {n : Node} {ns value rest : List Node} {name : Text} {important : Bool}
    (h : ofDeclaration n ns = (.declaration name value important, rest)) :
    (∃ place, n = .token place (.ident name)) ∧ value <:+: ns := by
  unfold ofDeclaration at h
  split at h
  next place name' =>
    dsimp only at h
    split at h
    next hr =>
      cases h
      exact ⟨⟨place, rfl⟩, (infix_of_readDeclaration? hr).trans (prefix_takeValue ns).isInfix⟩
    next => simp at h
  next => simp at h

theorem of_nextDeclaration? {ns value rest : List Node} {name : Text} {important : Bool}
    (h : nextDeclaration? ns = some (.declaration name value important, rest)) :
    (∃ place, .token place (.ident name) ∈ ns) ∧ value <:+: ns := by
  obtain ⟨n, ms, hs, ho⟩ := exists_of_nextDeclaration? h
  obtain ⟨⟨place, rfl⟩, hv⟩ := ofDeclaration_eq ho
  exact ⟨⟨place, hs.mem List.mem_cons_self⟩,
    (hv.trans (List.suffix_cons _ ms).isInfix).trans hs.isInfix⟩

theorem nextDeclaration?_suffix {ns rest : List Node} {item : BlockItem}
    (h : nextDeclaration? ns = some (item, rest)) : rest <:+ ns := by
  obtain ⟨n, ms, hs, ho⟩ := exists_of_nextDeclaration? h
  have hr := ofDeclaration_suffix n ms
  rw [ho] at hr
  exact (hr.trans (List.suffix_cons n ms)).trans hs

theorem nextRule?_suffix {whole : Bool} {ns rest : List Node} {item : Item}
    (h : nextRule? whole ns = some (item, rest)) : rest <:+ ns := by
  obtain ⟨n, ms, hs, ho⟩ := exists_of_nextRule? h
  have hr := ofRule_suffix false n ms
  rw [ho] at hr
  exact (hr.trans (List.suffix_cons n ms)).trans hs

theorem of_nextRule? {whole : Bool} {place : Text} {ns prelude content rest : List Node}
    (h : nextRule? whole ns = some (.rule place prelude content, rest)) :
    ∃ n, prelude ++ n :: rest <:+ ns ∧ n.body? = some content := by
  obtain ⟨n, ms, hs, ho⟩ := exists_of_nextRule? h
  obtain ⟨m, he, hb⟩ := exists_of_ofRule ho
  exact ⟨m, he ▸ hs, hb⟩

theorem takeRule_ne_comment (stops : Bool) (place : Text) (before ns rest : List Node) (text : Text) :
    takeRule stops place before ns ≠ (.comment text, rest) := by
  intro h
  rcases takeRule_cases stops place before ns with ⟨_, _, _, he⟩ | ⟨_, _, _, _, he, -⟩ <;>
    · rw [he] at h
      cases h

theorem ofRule_eq_comment {stops : Bool} {n : Node} {ns rest : List Node} {text : Text}
    (h : ofRule stops n ns = (.comment text, rest)) : ∃ place, n = .token place (.comment text) := by
  unfold ofRule at h
  split at h
  next place text' =>
    cases h
    exact ⟨place, rfl⟩
  next => simp at h
  next => exact (takeRule_ne_comment _ _ _ _ _ _ h).elim

theorem mem_of_comment {whole : Bool} {ns rest : List Node} {text : Text}
    (h : nextRule? whole ns = some (.comment text, rest)) :
    ∃ place, .token place (.comment text) ∈ ns := by
  obtain ⟨n, ms, hs, ho⟩ := exists_of_nextRule? h
  obtain ⟨place, rfl⟩ := ofRule_eq_comment ho
  exact ⟨place, hs.mem List.mem_cons_self⟩

theorem mem_of_comment_in_block {ns rest : List Node} {text : Text}
    (h : nextDeclaration? ns = some (.item (.comment text), rest)) :
    ∃ place, .token place (.comment text) ∈ ns := by
  obtain ⟨n, ms, hs, ho⟩ := exists_of_nextDeclaration? h
  have hr : ofRule true n ms = (.comment text, rest) := by
    unfold ofDeclaration at ho
    split at ho
    next =>
      dsimp only at ho
      split at ho
      next => simp at ho
      next => simpa [Prod.ext_iff] using ho
    next => simpa [Prod.ext_iff] using ho
  obtain ⟨place, rfl⟩ := ofRule_eq_comment hr
  exact ⟨place, hs.mem List.mem_cons_self⟩

end Item

namespace Node.Within

variable {s : Text} {ns rest : List Node} {whole : Bool}

theorem afterRule {item : Item} (h : Within s ns) (hi : Item.nextRule? whole ns = some (item, rest)) :
    Within s rest :=
  h.of_infix (Item.nextRule?_suffix hi).isInfix

end Node.Within

end CustomProperties.Syntax

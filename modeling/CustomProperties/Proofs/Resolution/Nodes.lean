import CustomProperties.Proofs.Parens.Balance
import CustomProperties.Proofs.Resolution.Derivation
import CustomProperties.Proofs.Split.Parts
import CustomProperties.Proofs.Text.Occurrence
import CustomProperties.Proofs.Text.Strip
import CustomProperties.Syntax.Written

/-! # References as function blocks

The grammar knows a reference as a function named `var`. Resolving the nodes of a value puts
something in the place of these functions and copies all else. Resolving the written text does the
same as long as the text is legible: it shows its references to a reader who looks only for
`var(`, for parentheses and for commas.
-/

namespace CustomProperties

open Syntax

namespace Syntax.Node

def nameNodes (arguments : List Node) : List Node :=
  arguments.takeWhile (!·.isLiteral [','])

def afterComma? (arguments : List Node) : Option (List Node) :=
  match arguments.dropWhile (!·.isLiteral [',']) with
  | [] => none
  | _ :: rest => some rest

def fallback? (arguments : List Node) : Option (List Node) :=
  (afterComma? arguments).map (·.dropWhile isBlank)

theorem nameNodes_of_afterComma? {arguments : List Node} (h : afterComma? arguments = none) :
    nameNodes arguments = arguments := by
  unfold afterComma? at h
  split at h
  next hd =>
    have ha := List.takeWhile_append_dropWhile (p := (!·.isLiteral [','])) (l := arguments)
    rwa [hd, List.append_nil] at ha
  next => contradiction

theorem exists_of_isLiteral {n : Node} {text : Text} (h : n.isLiteral text = true) :
    ∃ place, n = .token place (.literal text) := by
  unfold isLiteral at h
  split at h
  · exact ⟨_, by rw [eq_of_beq h]⟩
  · contradiction

theorem exists_of_afterComma? {arguments rest : List Node} (h : afterComma? arguments = some rest) :
    ∃ place, arguments = nameNodes arguments ++ .token place (.literal [',']) :: rest := by
  unfold afterComma? at h
  split at h
  next => contradiction
  next comma after hd =>
    cases h
    have hc : comma.isLiteral [','] = true := by
      simpa [hd] using List.head?_dropWhile_not (!·.isLiteral [',']) arguments
    obtain ⟨place, rfl⟩ := exists_of_isLiteral hc
    exact ⟨place, by rw [nameNodes, ← hd, List.takeWhile_append_dropWhile]⟩

theorem fallback?_suffix {arguments fallback : List Node}
    (h : fallback? arguments = some fallback) : fallback <:+ arguments := by
  obtain ⟨rest, hr, rfl⟩ := Option.map_eq_some_iff.mp h
  obtain ⟨place, he⟩ := exists_of_afterComma? hr
  rw [he]
  exact ((List.dropWhile_suffix isBlank).trans (List.suffix_cons _ rest)).trans
    (List.suffix_append _ _)

theorem sizeOf_le_of_suffix {ms ns : List Node} (h : ms <:+ ns) : sizeOf ms ≤ sizeOf ns := by
  obtain ⟨before, rfl⟩ := h
  induction before with
  | nil => exact Nat.le_refl _
  | cons n before ih =>
    rw [List.cons_append, List.cons.sizeOf_spec]
    omega

/-- What stands between the parentheses of a reference is closed, its parentheses match, its name
ends at the first comma and only whitespace is stripped from its fallback. -/
structure Orderly (arguments : List Node) : Prop where
  closed : lastIsCutOff arguments = false
  balanced : Parens.balanced 0 (writeAll arguments) = true
  name : Split.seals [','] Split.start (writeAll (nameNodes arguments)) = true
  fallback : ∀ rest ∈ afterComma? arguments,
    Text.stripLeft (writeAll rest) = writeAll (rest.dropWhile isBlank)

instance (arguments : List Node) : Decidable (Orderly arguments) :=
  decidable_of_iff (lastIsCutOff arguments = false ∧
      Parens.balanced 0 (writeAll arguments) = true ∧
      Split.seals [','] Split.start (writeAll (nameNodes arguments)) = true ∧
      ∀ rest ∈ afterComma? arguments,
        Text.stripLeft (writeAll rest) = writeAll (rest.dropWhile isBlank))
    ⟨fun ⟨hc, hb, hn, hf⟩ => ⟨hc, hb, hn, hf⟩, fun ⟨hc, hb, hn, hf⟩ => ⟨hc, hb, hn, hf⟩⟩

mutual

/-- The text of a node, where a reference leaves only its closing parenthesis. -/
def outline : Node → Text
  | token _ t => t.write
  | block _ b content => b.opening :: (outlineFrom none content ++ [b.closing])
  | function _ name arguments =>
    if name = "var" then [')']
    else
      writeIdent name ++ '(' ::
        (outlineFrom none arguments ++ if lastIsCutOff arguments then [] else [')'])

def outlineFrom : (previous : Option Kind) → List Node → Text
  | _, [] => []
  | previous, n :: ns => between previous n ++ n.outline ++ outlineFrom (some n.kind) ns

end

mutual

/-- Whether all references in a node are orderly and no fallback shows an opening but where a
reference stands. -/
def isLegible : Node → Bool
  | token _ _ => true
  | block _ _ content => areLegible content
  | function _ name arguments =>
    if name = "var" then
      decide (Orderly arguments) &&
        match _ : fallback? arguments with
        | some fallback => !Reference.occursIn (outlineFrom none fallback) && areLegible fallback
        | none => true
    else areLegible arguments
termination_by n => sizeOf n
decreasing_by
  · decreasing_tactic
  · have := sizeOf_le_of_suffix (fallback?_suffix ‹_›)
    decreasing_tactic
  · decreasing_tactic

def areLegible : List Node → Bool
  | [] => true
  | n :: ns => n.isLegible && areLegible ns
termination_by ns => sizeOf ns

end

/-- An opening stands in the text only where a function named `var` does. -/
def Legible (ns : List Node) : Prop :=
  Reference.occursIn (outlineFrom none ns) = false ∧ areLegible ns = true

instance (ns : List Node) : Decidable (Legible ns) := inferInstanceAs (Decidable (_ ∧ _))

theorem between_comma (previous : Option Kind) (place : Text) :
    between previous (.token place (.literal [','])) = [] ∨
      between previous (.token place (.literal [','])) = ['\n'] := by
  cases previous with
  | none => exact .inl rfl
  | some k =>
    have hc : k.clash (.literal [',']) = false := by
      cases k <;> simp [Kind.clash, Kind.isLiteral, Kind.isNamed, Kind.isNumeric]
    simp only [between, kind, Token.kind, hc]
    split
    · contradiction
    · split
      · exact .inr rfl
      · exact .inl rfl

theorem writeFrom_comma (ns : List Node) : writeFrom (some (.literal [','])) ns = writeAll ns := by
  cases ns with
  | nil => rfl
  | cons n ns =>
    have hc : (Kind.literal [',']).clash n.kind = false := by
      simp [Kind.clash, Kind.isOpenEnded, Kind.endsInName, Kind.isLiteral]
    simp [writeAll, writeFrom, between, hc]

theorem writeFrom_append (previous : Option Kind) (ms ns : List Node) :
    writeFrom previous (ms ++ ns) =
      writeFrom previous ms ++ writeFrom ((ms.getLast?.map kind).or previous) ns := by
  induction ms generalizing previous with
  | nil => simp [writeFrom]
  | cons m ms ih =>
    rw [List.cons_append, writeFrom, writeFrom, ih, List.append_assoc _ _ (writeFrom _ ns)]
    cases ms <;> simp [List.getLast?_cons]

theorem writeAll_append_comma (ms ns : List Node) (place : Text) :
    writeAll (ms ++ .token place (.literal [',']) :: ns) =
      writeAll ms ++ between (ms.getLast?.map kind) (.token place (.literal [','])) ++
        ',' :: writeAll ns := by
  rw [writeAll, writeFrom_append, Option.or_none, writeFrom, kind, Token.kind, writeFrom_comma]
  have hw : (token place (.literal [','])).write = [','] := rfl
  rw [hw]
  simp only [writeAll, List.append_assoc, List.singleton_append]

theorem writeAll_of_afterComma? {arguments rest : List Node}
    (h : afterComma? arguments = some rest) :
    ∃ gap, (gap = [] ∨ gap = ['\n']) ∧
      writeAll arguments = writeAll (nameNodes arguments) ++ gap ++ ',' :: writeAll rest := by
  obtain ⟨place, he⟩ := exists_of_afterComma? h
  have hw := writeAll_append_comma (nameNodes arguments) rest place
  rw [← he] at hw
  exact ⟨_, between_comma _ place, hw⟩

theorem Orderly.ofBody?_writeAll {arguments : List Node} (h : Orderly arguments)
    (hb : (writeAll arguments).all Text.isBlank = false) :
    Reference.ofBody? (writeAll arguments) =
      some ⟨Text.strip (writeAll (nameNodes arguments)), (fallback? arguments).map writeAll⟩ := by
  rw [Reference.ofBody?, hb, if_neg (Bool.false_ne_true), Split.split]
  cases hr : afterComma? arguments with
  | none =>
    have hn := h.name
    rw [nameNodes_of_afterComma? hr] at hn ⊢
    rw [Split.splitFrom_of_seals hn, fallback?, hr]
    rfl
  | some rest =>
    obtain ⟨gap, hg, he⟩ := writeAll_of_afterComma? hr
    have hs : Split.seals [','] Split.start (writeAll (nameNodes arguments) ++ gap) = true := by
      refine Split.seals_append h.name ?_
      rcases hg with rfl | rfl <;> decide
    have hk : Text.strip (writeAll (nameNodes arguments) ++ gap) =
        Text.strip (writeAll (nameNodes arguments)) := by
      refine Text.strip_append_of_blank _ ?_
      rcases hg with rfl | rfl <;> decide
    rw [he, Split.splitFrom_of_seals_append hs (by decide)]
    simp [hk, fallback?, hr, h.fallback rest hr]

end Syntax.Node

namespace Resolution

def join (first second : Resolution) : Resolution :=
  ⟨first.text ++ second.text, first.warnings ++ second.warnings⟩

def copied (t : Text) : Resolution := ⟨t, []⟩

theorem join_assoc (r s t : Resolution) : (r.join s).join t = r.join (s.join t) := by
  simp [join]

mutual

def resolveNode (b : Bindings) (chain : List Text) : Node → Resolution
  | .token _ t => copied t.write
  | .block _ bracket content =>
    (copied [bracket.opening]).join ((resolveNodes b chain none content).join
      (copied [bracket.closing]))
  | .function place name arguments =>
    if name = "var" then
      let kept := Node.write (.function place name arguments)
      if (Node.writeAll arguments).all Text.isBlank then ⟨kept, [.blank]⟩
      else
        let key := Text.strip (Node.writeAll (Node.nameNodes arguments))
        if key ∈ chain then ⟨kept, [.circular key]⟩
        else
          match b.find? key with
          | some v => resolveFrom b (key :: chain) v v
          | none =>
            match _ : Node.fallback? arguments with
            | some fallback => resolveNodes b chain none fallback
            | none => ⟨kept, [.undefined key]⟩
    else
      (copied (writeIdent name ++ ['('])).join ((resolveNodes b chain none arguments).join
        (copied (if Node.lastIsCutOff arguments then [] else [')'])))
termination_by n => sizeOf n
decreasing_by
  · decreasing_tactic
  · have := Node.sizeOf_le_of_suffix (Node.fallback?_suffix ‹_›)
    decreasing_tactic
  · decreasing_tactic

/-- Resolve the nodes that follow one of kind `previous`. -/
def resolveNodes (b : Bindings) (chain : List Text) : Option Kind → List Node → Resolution
  | _, [] => copied []
  | previous, n :: ns =>
    (copied (Node.between previous n)).join
      ((resolveNode b chain n).join (resolveNodes b chain (some n.kind) ns))
termination_by _ ns => sizeOf ns

end

/-- A text resolves to `r` whatever text without references it follows, given that its outline
shows no opening either. -/
def Resolves (b : Bindings) (chain : List Text) (value outline text : Text) (r : Resolution) : Prop :=
  ∀ before, Reference.occursIn (before ++ outline) = false →
    resolveFrom b chain value (before ++ text) = (copied before).join r

section Steps

variable {b : Bindings} {chain : List Text} {value outline text : Text} {r : Resolution}

theorem resolves_nil : Resolves b chain value [] [] (copied []) := by
  intro before h
  rw [List.append_nil] at h ⊢
  rw [resolveFrom_of_none (Text.breakOn_eq_none_iff.mpr h)]
  simp [join, copied]

theorem Resolves.copy (h : Resolves b chain value outline text r) (t : Text) :
    Resolves b chain value (t ++ outline) (t ++ text) ((copied t).join r) := by
  intro before ho
  rw [← List.append_assoc] at ho ⊢
  rw [h (before ++ t) ho]
  simp [join, copied]

theorem Resolves.eq (h : Resolves b chain value outline text r)
    (ho : Reference.occursIn outline = false) : resolveFrom b chain value text = r :=
  h [] ho

theorem Resolves.reference (h : Resolves b chain value outline text r) {body : Text}
    (hb : Parens.balanced 0 body = true) :
    Resolves b chain value (')' :: outline) (Reference.opening ++ (body ++ ')' :: text))
      ((substitute b chain ⟨body, true, text⟩).join r) := by
  intro before ho
  have hi (t : Text) (ht : t <:+: before ++ ')' :: outline) : Reference.occursIn t = false :=
    Text.occurs_eq_false_iff.mpr fun hm => Text.occurs_eq_false_iff.mp ho (hm.trans ht)
  have hc : Text.breakOn Reference.opening (before ++ (Reference.opening ++ (body ++ ')' :: text))) =
      some (before, body ++ ')' :: text) :=
    Text.breakOn_of_not_occurs (by decide) _ (hi before (List.prefix_append _ _).isInfix)
  rw [resolveFrom_of_some hc, Parens.group_of_balanced hb,
    h.eq (hi outline ⟨before ++ [')'], [], by simp⟩)]
  simp [splice, join, copied]

end Steps

theorem write_reference (place : Text) {arguments : List Node}
    (h : Node.lastIsCutOff arguments = false) :
    (Node.function place "var" arguments).write =
      Reference.opening ++ (Node.writeAll arguments ++ [')']) := by
  have hw : (Node.function place "var" arguments).write = writeIdent "var" ++ '(' ::
      (Node.writeAll arguments ++ if Node.lastIsCutOff arguments then [] else [')']) := rfl
  rw [hw, h]
  rfl

theorem join_copied_nil (r : Resolution) : r.join (copied []) = r := by simp [join, copied]

/-- The two readings of a reference agree as soon as they agree on its fallback. -/
theorem substitute_writeAll {b : Bindings} {chain : List Text} (place rest : Text)
    {arguments : List Node} (h : Node.Orderly arguments)
    (hf : ∀ fallback, Node.fallback? arguments = some fallback →
      resolveFrom b chain (Node.writeAll fallback) (Node.writeAll fallback) =
        resolveNodes b chain none fallback) :
    substitute b chain ⟨Node.writeAll arguments, true, rest⟩ =
      resolveNode b chain (.function place "var" arguments) := by
  have hk : Reference.opening ++ Parens.Group.tail ⟨Node.writeAll arguments, true, rest⟩ =
      (Node.function place "var" arguments).write := (write_reference place h.closed).symm
  rw [resolveNode, if_pos rfl, substitute, hk]
  dsimp only
  split
  next hn =>
    have hb : (Node.writeAll arguments).all Text.isBlank = true := by
      by_contra hb
      rw [h.ofBody?_writeAll (Bool.not_eq_true _ ▸ hb)] at hn
      contradiction
    rw [if_pos hb]
  next reference hs =>
    have hb : ¬(Node.writeAll arguments).all Text.isBlank = true := by
      intro hb
      rw [Reference.ofBody?, if_pos hb] at hs
      contradiction
    rw [h.ofBody?_writeAll (Bool.not_eq_true _ ▸ hb)] at hs
    cases hs
    rw [if_neg hb]
    split
    · rfl
    · cases b.find? (Text.strip (Node.writeAll (Node.nameNodes arguments))) with
      | some v => rfl
      | none =>
        dsimp only
        split
        next hsome => contradiction
        next fallback hm =>
          obtain ⟨ns, hns, rfl⟩ := Option.map_eq_some_iff.mp hm
          rw [hf ns hns]
          split <;> simp_all
        next hm =>
          rw [Option.map_eq_none_iff] at hm
          split <;> simp_all

mutual

theorem resolves_node {b : Bindings} {chain : List Text} {value outline text : Text}
    {r : Resolution} (n : Node) (hn : n.isLegible = true)
    (h : Resolves b chain value outline text r) :
    Resolves b chain value (n.outline ++ outline) (n.write ++ text)
      ((resolveNode b chain n).join r) := by
  cases n with
  | token place t =>
    rw [resolveNode]
    exact h.copy t.write
  | block place bracket content =>
    rw [Node.isLegible] at hn
    have hc := (resolves_nodes none content hn (h.copy [bracket.closing])).copy [bracket.opening]
    have hw : (Node.block place bracket content).write =
      bracket.opening :: (Node.writeAll content ++ [bracket.closing]) := rfl
    rw [resolveNode, hw, Node.outline]
    simpa [join_assoc, Node.writeAll] using hc
  | function place name arguments =>
    rw [Node.isLegible] at hn
    split at hn
    · next hv =>
      obtain rfl := hv
      rw [Bool.and_eq_true, decide_eq_true_eq] at hn
      obtain ⟨ho, hl⟩ := hn
      have hf : ∀ fallback, Node.fallback? arguments = some fallback →
          resolveFrom b chain (Node.writeAll fallback) (Node.writeAll fallback) =
            resolveNodes b chain none fallback := by
        intro fallback hf
        have hlt : sizeOf fallback < sizeOf (Node.function place "var" arguments) := by
          have := Node.sizeOf_le_of_suffix (Node.fallback?_suffix hf)
          rw [Node.function.sizeOf_spec]
          omega
        split at hl
        next found hfound =>
          obtain rfl : fallback = found := Option.some.inj (hf.symm.trans hfound)
          rw [Bool.and_eq_true, Bool.not_eq_true'] at hl
          have hc := resolves_nodes none fallback hl.2
            (resolves_nil : Resolves b chain (Node.writeAll fallback) [] [] _)
          rw [List.append_nil, List.append_nil, join_copied_nil] at hc
          exact hc.eq hl.1
        next hn => rw [hf] at hn; contradiction
      rw [← substitute_writeAll place text ho hf, write_reference place ho.closed, Node.outline,
        if_pos rfl, List.append_assoc, List.append_assoc]
      exact h.reference ho.balanced
    · next hv =>
      have hc := (resolves_nodes none arguments hn
        (h.copy (if Node.lastIsCutOff arguments then [] else [')']))).copy (writeIdent name ++ ['('])
      have hw : (Node.function place name arguments).write = writeIdent name ++ '(' ::
          (Node.writeAll arguments ++ if Node.lastIsCutOff arguments then [] else [')']) := rfl
      rw [resolveNode, if_neg hv, hw, Node.outline, if_neg hv]
      simpa [join_assoc, Node.writeAll] using hc
termination_by sizeOf n

theorem resolves_nodes {b : Bindings} {chain : List Text} {value outline text : Text}
    {r : Resolution} (previous : Option Kind) (ns : List Node) (hns : Node.areLegible ns = true)
    (h : Resolves b chain value outline text r) :
    Resolves b chain value (Node.outlineFrom previous ns ++ outline)
      (Node.writeFrom previous ns ++ text) ((resolveNodes b chain previous ns).join r) := by
  cases ns with
  | nil =>
    rw [resolveNodes]
    exact h.copy []
  | cons n ns =>
    rw [Node.areLegible, Bool.and_eq_true] at hns
    have hc := (resolves_node n hns.1 (resolves_nodes (some n.kind) ns hns.2 h)).copy
      (Node.between previous n)
    rw [resolveNodes, Node.writeFrom, Node.outlineFrom]
    simpa [join_assoc] using hc
termination_by sizeOf ns

end

theorem resolveFrom_writeAll (b : Bindings) (chain : List Text) (value : Text) {ns : List Node}
    (h : Node.Legible ns) :
    resolveFrom b chain value (Node.writeAll ns) = resolveNodes b chain none ns := by
  have hc := resolves_nodes none ns h.2 (resolves_nil : Resolves b chain value [] [] _)
  rw [List.append_nil, List.append_nil, join_copied_nil] at hc
  exact hc.eq h.1

end Resolution

/-- References are recognised as function blocks: in a legible value exactly the functions named
`var` are replaced. -/
theorem resolve_eq_resolveNodes (b : Bindings) {ns : List Node} (h : Node.Legible ns) :
    resolve b (Node.writeAll ns) = Resolution.resolveNodes b [] none ns :=
  Resolution.resolveFrom_writeAll b [] (Node.writeAll ns) h

theorem resolve_eq_resolveNodes_nested :
    Node.Legible (Node.readAll "calc(1px + var(--x, f(\"a, b\", var(--y)))) \"var\"") ∧
      resolve (.ofList [("--y", "2")])
          (Node.writeAll (Node.readAll "calc(1px + var(--x, f(\"a, b\", var(--y)))) \"var\"")) =
        ⟨"calc(1px + f(\"a, b\", 2)) \"var\"", []⟩ :=
  ⟨by decide +kernel, (resolve_eq_resolveNodes _ (by decide +kernel)).trans (by decide +kernel)⟩

/-- Without legibility the end of another name, the content of a string and a parenthesis in one
are taken for parts of references. -/
theorem resolve_ne_resolveNodes :
    resolve (.ofList [("--x", "1px")]) (Node.writeAll (Node.readAll "my-var(--x)")) =
        ⟨"my-1px", []⟩ ∧
      Resolution.resolveNodes (.ofList [("--x", "1px")]) [] none (Node.readAll "my-var(--x)") =
        ⟨"my-var(--x)", []⟩ ∧
      resolve (.ofList [("--x", "1px")]) (Node.writeAll (Node.readAll "\"var(--x)\"")) =
        ⟨"\"1px\"", []⟩ ∧
      Resolution.resolveNodes (.ofList [("--x", "1px")]) [] none (Node.readAll "\"var(--x)\"") =
        ⟨"\"var(--x)\"", []⟩ ∧
      resolve .empty (Node.writeAll (Node.readAll "var(--u,\")\")")) = ⟨"\"\")", []⟩ ∧
      Resolution.resolveNodes .empty [] none (Node.readAll "var(--u,\")\")") = ⟨"\")\"", []⟩ := by
  decide +kernel

end CustomProperties

import CustomProperties.Syntax.Node

/-! # Items

A list of nodes holds rules, or the declarations of a block. Each step takes the next item and
leaves the nodes after it, so that the first fault in document order is met first.
-/

namespace CustomProperties.Syntax

/-- Why a style sheet has no rule tree. -/
inductive Fault
  | unfinishedRule
  | interruptedRule
  | ruleInKeyframes (keyword : Text)
  | nestedRule
  deriving DecidableEq, Repr

def Fault.reason : Fault → Text
  | .unfinishedRule => "EOF reached before \x7b\x7d block for a qualified rule."
  | .interruptedRule => "Stop token reached before \x7b\x7d block for a qualified rule."
  | .ruleInKeyframes keyword => "unexpected @" ++ keyword ++ " inside @keyframes"
  | .nestedRule => "nested rules inside a declaration block are not supported"

/-- What stands in a list of rules. -/
inductive Item
  | comment (text : Text)
  | atRule (place : Text) (keyword : Text) (prelude : List Node) (content : Option (List Node))
  | rule (place : Text) (prelude content : List Node)
  | fault (place : Text) (fault : Fault)
  deriving Repr

/-- What stands in a block of declarations. -/
inductive BlockItem
  | declaration (name : Text) (value : List Node) (important : Bool)
  | item (item : Item)
  deriving Repr

namespace Item

/-- The content of a rule. -/
def content? : Item → Option (List Node)
  | atRule _ _ _ content => content
  | rule _ _ content => some content
  | _ => none

/-- The prelude and content of a rule after its keyword, and the nodes that follow it. -/
def takeAtRule : List Node → List Node × Option (List Node) × List Node
  | [] => ([], none, [])
  | n :: ns =>
    match n.body? with
    | some content => ([], some content, ns)
    | none =>
      if n.isLiteral [';'] then ([], none, ns)
      else (n :: (takeAtRule ns).1, (takeAtRule ns).2)

/-- A rule with a prelude, of which the nodes `before` have been read, the last one first. A
semicolon interrupts it if `stops`. -/
def takeRule (stops : Bool) (place : Text) (before : List Node) : List Node → Item × List Node
  | [] => (.fault ((before.head?.map Node.place).getD place) .unfinishedRule, [])
  | n :: ns =>
    match n.body? with
    | some content => (.rule place before.reverse content, ns)
    | none =>
      if stops && n.isLiteral [';'] then (.fault n.place .interruptedRule, ns)
      else takeRule stops place (n :: before) ns

/-- The nodes of a declaration after its name: up to a semicolon or with the first block. -/
def takeValue : List Node → List Node × List Node
  | [] => ([], [])
  | n :: ns =>
    if n.isLiteral [';'] then ([], ns)
    else if n.body?.isSome then ([n], ns)
    else (n :: (takeValue ns).1, (takeValue ns).2)

/-- How far the end of a value has become a mark of importance; with the mark, the nodes before
it, the last one first. -/
inductive Ending
  | plain
  | bang (before : List Node)
  | important (before : List Node)
  deriving Repr

/-- A scan of a value: the nodes seen, the last one first, whether one of them had content, and
whether a block followed such a one. -/
structure ValueScan where
  seen : List Node
  ending : Ending
  hasContent : Bool
  misplacedBlock : Bool
  deriving Repr

def isImportantName : Node → Bool
  | .token _ (.ident name) => Text.lowerAscii name == "important"
  | _ => false

def ValueScan.step (s : ValueScan) (n : Node) : ValueScan :=
  let seen := n :: s.seen
  let content : ValueScan :=
    ⟨seen, .plain, true, s.misplacedBlock || (s.hasContent && n.body?.isSome)⟩
  if n.isFiller then { s with seen }
  else
    match s.ending with
    | .plain => if n.isLiteral ['!'] then { s with seen, ending := .bang s.seen } else content
    | .bang before =>
      if isImportantName n then { s with seen, ending := .important before } else content
    | .important _ => content

/-- The nodes of a value without its mark of importance, and whether it had one. A block may only
stand first. -/
def readValue? (ns : List Node) : Option (List Node × Bool) :=
  let s := ns.foldl ValueScan.step ⟨[], .plain, false, false⟩
  if s.misplacedBlock then none
  else
    match s.ending with
    | .important before => some (before.reverse, true)
    | _ => some (s.seen.reverse, false)

/-- The value of a declaration, after its name. -/
def readDeclaration? (ns : List Node) : Option (List Node × Bool) :=
  match ns.dropWhile Node.isFiller with
  | [] => none
  | n :: ns => if n.isLiteral [':'] then readValue? ns else none

/-- A rule that starts with a node, and the nodes that follow it. -/
def ofRule (stops : Bool) (n : Node) (ns : List Node) : Item × List Node :=
  match n with
  | .token _ (.comment text) => (.comment text, ns)
  | .token place (.atKeyword keyword) =>
    let (prelude, content, rest) := takeAtRule ns
    (.atRule place keyword prelude content, rest)
  | n => takeRule stops n.place [] (n :: ns)

/-- A declaration that starts with a node, or else a rule. -/
def ofDeclaration (n : Node) (ns : List Node) : BlockItem × List Node :=
  match n with
  | .token _ (.ident name) =>
    let (taken, rest) := takeValue ns
    match readDeclaration? taken with
    | some (value, important) => (.declaration name value important, rest)
    | none => (.item (ofRule true n ns).1, (ofRule true n ns).2)
  | n => (.item (ofRule true n ns).1, (ofRule true n ns).2)

/-- Marks that once hid style sheets from readers who did not know them. -/
def isHidingMark (n : Node) : Bool := n.isLiteral "<!--" || n.isLiteral "-->"

/-- The next rule of a list. Hiding marks are skipped between the rules of a whole sheet only. -/
def nextRule? (whole : Bool) : List Node → Option (Item × List Node)
  | [] => none
  | n :: ns =>
    if n.isBlank || (whole && isHidingMark n) then nextRule? whole ns
    else some (ofRule false n ns)

/-- The next item of a block of declarations. -/
def nextDeclaration? : List Node → Option (BlockItem × List Node)
  | [] => none
  | n :: ns =>
    if n.isBlank || n.isLiteral [';'] then nextDeclaration? ns
    else some (ofDeclaration n ns)

theorem sizeOf_le_of_suffix {ns ms : List Node} (h : ns <:+ ms) : sizeOf ns ≤ sizeOf ms := by
  obtain ⟨before, rfl⟩ := h
  induction before with
  | nil => simp
  | cons n before ih => simp; omega

theorem sizeOf_body? {n : Node} {content : List Node} (h : n.body? = some content) :
    sizeOf content < sizeOf n := by
  unfold Node.body? at h
  split at h
  · cases h; simp
  · contradiction

theorem takeAtRule_suffix (ns : List Node) : (takeAtRule ns).2.2 <:+ ns := by
  induction ns with
  | nil => simp [takeAtRule]
  | cons n ns ih =>
    rw [takeAtRule]
    split
    · simp
    · split
      · simp
      · exact ih.trans (List.suffix_cons n ns)

theorem takeRule_suffix (stops : Bool) (place : Text) (before : List Node) (n : Node)
    (ns : List Node) : (takeRule stops place before (n :: ns)).2 <:+ ns := by
  induction ns generalizing before n with
  | nil =>
    rw [takeRule]
    split
    · simp
    · split <;> simp [takeRule]
  | cons m ns ih =>
    rw [takeRule]
    split
    · simp
    · split
      · simp
      · exact (ih _ _).trans (List.suffix_cons m ns)

theorem takeValue_suffix (ns : List Node) : (takeValue ns).2 <:+ ns := by
  induction ns with
  | nil => simp [takeValue]
  | cons n ns ih =>
    rw [takeValue]
    split
    · simp
    · split
      · simp
      · exact ih.trans (List.suffix_cons n ns)

theorem ofRule_suffix (stops : Bool) (n : Node) (ns : List Node) :
    (ofRule stops n ns).2 <:+ ns := by
  unfold ofRule
  split
  · exact List.suffix_refl _
  · exact takeAtRule_suffix ns
  · exact takeRule_suffix stops _ [] n ns

theorem ofDeclaration_suffix (n : Node) (ns : List Node) : (ofDeclaration n ns).2 <:+ ns := by
  unfold ofDeclaration
  split
  · dsimp only
    split
    · exact takeValue_suffix ns
    · exact ofRule_suffix true _ ns
  · exact ofRule_suffix true n ns

theorem exists_of_takeAtRule {ns content : List Node} (h : (takeAtRule ns).2.1 = some content) :
    ∃ n ∈ ns, n.body? = some content := by
  induction ns with
  | nil => contradiction
  | cons n ns ih =>
    rw [takeAtRule] at h
    split at h
    next hb =>
      cases h
      exact ⟨n, List.mem_cons_self, hb⟩
    next =>
      split at h
      · contradiction
      · obtain ⟨m, hm, hb⟩ := ih h
        exact ⟨m, List.mem_cons_of_mem n hm, hb⟩

/-- Nodes without a keyword are a fault, or a rule that ends with a block in curly brackets. -/
theorem takeRule_cases (stops : Bool) (place : Text) (before ns : List Node) :
    (∃ p fault rest, takeRule stops place before ns = (.fault p fault, rest)) ∨
      ∃ prelude n content rest, takeRule stops place before ns = (.rule place prelude content, rest) ∧
        before.reverse ++ ns = prelude ++ n :: rest ∧ n.body? = some content := by
  induction ns generalizing before with
  | nil => exact .inl ⟨_, _, _, rfl⟩
  | cons n ns ih =>
    rw [takeRule]
    split
    next hb => exact .inr ⟨before.reverse, n, _, ns, rfl, rfl, hb⟩
    next =>
      split
      · exact .inl ⟨_, _, _, rfl⟩
      · have hr : (n :: before).reverse ++ ns = before.reverse ++ n :: ns := by simp
        rw [← hr]
        exact ih (n :: before)

theorem exists_of_content?_ofRule {stops : Bool} {n : Node} {ns content : List Node}
    (h : (ofRule stops n ns).1.content? = some content) :
    ∃ m ∈ n :: ns, m.body? = some content := by
  unfold ofRule at h
  split at h
  · contradiction
  · obtain ⟨m, hm, hb⟩ := exists_of_takeAtRule h
    exact ⟨m, List.mem_cons_of_mem _ hm, hb⟩
  · rcases takeRule_cases stops n.place [] (n :: ns) with ⟨_, _, _, he⟩ | ⟨prelude, m, _, _, he, hn, hb⟩
    · rw [he] at h
      contradiction
    · rw [he] at h
      cases h
      rw [List.reverse_nil, List.nil_append] at hn
      exact ⟨m, hn ▸ List.mem_append_right prelude List.mem_cons_self, hb⟩

/-- A rule is taken from the nodes before the rest. -/
theorem exists_of_nextRule? {whole : Bool} {ns rest : List Node} {item : Item}
    (h : nextRule? whole ns = some (item, rest)) :
    ∃ n ms, n :: ms <:+ ns ∧ ofRule false n ms = (item, rest) := by
  induction ns with
  | nil => simp [nextRule?] at h
  | cons n ns ih =>
    rw [nextRule?] at h
    split at h
    · obtain ⟨m, ms, hm, ho⟩ := ih h
      exact ⟨m, ms, hm.trans (List.suffix_cons n ns), ho⟩
    · exact ⟨n, ns, List.suffix_refl _, Option.some.inj h⟩

theorem exists_of_nextDeclaration? {ns rest : List Node} {item : BlockItem}
    (h : nextDeclaration? ns = some (item, rest)) :
    ∃ n ms, n :: ms <:+ ns ∧ ofDeclaration n ms = (item, rest) := by
  induction ns with
  | nil => simp [nextDeclaration?] at h
  | cons n ns ih =>
    rw [nextDeclaration?] at h
    split at h
    · obtain ⟨m, ms, hm, ho⟩ := ih h
      exact ⟨m, ms, hm.trans (List.suffix_cons n ns), ho⟩
    · exact ⟨n, ns, List.suffix_refl _, Option.some.inj h⟩

theorem sizeOf_nextRule? {whole : Bool} {ns rest : List Node} {item : Item}
    (h : nextRule? whole ns = some (item, rest)) : sizeOf rest < sizeOf ns := by
  obtain ⟨n, ms, hm, ho⟩ := exists_of_nextRule? h
  have hs := sizeOf_le_of_suffix (ofRule_suffix false n ms)
  have hl := sizeOf_le_of_suffix hm
  rw [ho] at hs
  simp at hs hl
  omega

/-- The content of the next rule is the content of a block. -/
theorem exists_of_content? {whole : Bool} {ns rest content : List Node} {item : Item}
    (h : nextRule? whole ns = some (item, rest)) (hc : item.content? = some content) :
    ∃ n ∈ ns, n.body? = some content := by
  obtain ⟨n, ms, hs, ho⟩ := exists_of_nextRule? h
  have ho' : (ofRule false n ms).1.content? = some content := by rw [ho]; exact hc
  obtain ⟨m, hm, hb⟩ := exists_of_content?_ofRule ho'
  exact ⟨m, hs.mem hm, hb⟩

theorem sizeOf_content_nextRule? {whole : Bool} {ns rest content : List Node} {item : Item}
    (h : nextRule? whole ns = some (item, rest)) (hc : item.content? = some content) :
    sizeOf content < sizeOf ns := by
  obtain ⟨n, hn, hb⟩ := exists_of_content? h hc
  exact Nat.lt_trans (sizeOf_body? hb) (List.sizeOf_lt_of_mem hn)

theorem length_nextRule? {whole : Bool} {ns rest : List Node} {item : Item}
    (h : nextRule? whole ns = some (item, rest)) : rest.length < ns.length := by
  obtain ⟨n, ms, hm, ho⟩ := exists_of_nextRule? h
  have hs := (ofRule_suffix false n ms).length_le
  have hl := hm.length_le
  rw [ho] at hs
  simp at hs hl
  omega

theorem length_nextDeclaration? {ns rest : List Node} {item : BlockItem}
    (h : nextDeclaration? ns = some (item, rest)) : rest.length < ns.length := by
  obtain ⟨n, ms, hm, ho⟩ := exists_of_nextDeclaration? h
  have hs := (ofDeclaration_suffix n ms).length_le
  have hl := hm.length_le
  rw [ho] at hs
  simp at hs hl
  omega

end Item

end CustomProperties.Syntax

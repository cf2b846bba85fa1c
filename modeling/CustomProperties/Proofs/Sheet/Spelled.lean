import CustomProperties.Proofs.Sheet.Reading
import CustomProperties.Proofs.Syntax.Value
import CustomProperties.Proofs.Syntax.Written
import CustomProperties.Proofs.Text.Strip
import CustomProperties.Sheet.Write
import Mathlib.Data.List.Chain

/-! # Texts of declarations and bodies

A text spells nodes if they are read from it in front of every text that continues none of them.
A body whose values are spelled is read back from what is written for it. Its comments may become
parts of the values before them, which does not change what is written.
-/

namespace CustomProperties

open Syntax
open Syntax.Node (Parses)

namespace Sheet

variable {ns ms rest : List Node} {b : Body}

/-- Nothing that could continue a lexeme starts here, and no blank does. -/
structure Ended (w : Text) : Prop where
  stopped : Stopped w
  firm : w.head?.any isSpace = false

theorem ended_nil : Ended [] := ⟨fun _ hc => (nomatch hc), rfl⟩

theorem ended_cons {c : Char} (hc : c ∈ stops) (hs : isSpace c = false) (w : Text) : Ended (c :: w) :=
  ⟨Lexeme.stopped_cons hc w, hs⟩

theorem ended_append {t w : Text} (h : ∀ c ∈ t.head?, c ∈ stops ∧ isSpace c = false)
    (hw : Ended w) : Ended (t ++ w) := by
  cases t with
  | nil => exact hw
  | cons c t => exact ended_cons (h c rfl).1 (h c rfl).2 _

/-- In front of every text that continues none of them, nodes with the property are read first. -/
structure Spells (closer : Option Bracket) (t : Text) (p : List Node → Prop) : Prop where
  standard : IsStandard t
  reads : ∀ w, Ended w → ∃ ms, Parses closer (t ++ w) ms w ∧ p ms

/-! ### Items of a body -/

theorem ReadsBody.semicolon {n : Node} (hn : n.isLiteral [';'] = true) (h : ReadsBody ns b) :
    ReadsBody (n :: ns) b := by
  have he : Item.nextDeclaration? (n :: ns) = Item.nextDeclaration? ns := by
    rw [Item.nextDeclaration?, hn, Bool.or_true, if_pos rfl]
  cases h with
  | nil hd => exact .nil (he.trans hd)
  | declaration hd hb => exact .declaration (he.trans hd) hb
  | comment hd hb => exact .comment (he.trans hd) hb

theorem readsBody_comment (p text : Text) (h : ReadsBody ns b) :
    ReadsBody (.token p (.comment text) :: ns) (.comment text :: b) :=
  .comment rfl h

theorem readsBody_declaration {p q name : Text} {taken value : List Node} {important : Bool}
    (ht : Item.takeValue (.token q (.literal [':']) :: ns) = (.token q (.literal [':']) :: taken, rest))
    (hv : Item.readValue? taken = some (value, important)) (h : ReadsBody rest b) :
    ReadsBody (.token p (.ident name) :: .token q (.literal [':']) :: ns)
      (.declaration ⟨name, valueText value important⟩ :: b) := by
  have hd : Item.readDeclaration? (.token q (.literal [':']) :: taken) = some (value, important) := hv
  have ho : Item.ofDeclaration (.token p (.ident name)) (.token q (.literal [':']) :: ns) =
      (.declaration name value important, rest) := by
    unfold Item.ofDeclaration
    dsimp only
    rw [ht]
    dsimp only
    rw [hd]
  refine .declaration ?_ h
  exact congrArg some ho

/-! ### Comments -/

def commentsText (ts : List Text) : Text := ts.flatMap fun t => "/*" ++ t ++ "*/"

theorem commentsText_cons (t : Text) (ts : List Text) :
    commentsText (t :: ts) = "/*" ++ t ++ "*/" ++ commentsText ts := List.flatMap_cons

theorem writeFrom_comments (separated : Bool) (ts : List Text) (b : Body) :
    Body.writeFrom separated (ts.map Entry.comment ++ b) =
      commentsText ts ++ Body.writeFrom separated b := by
  induction ts with
  | nil => rfl
  | cons t ts ih =>
    rw [List.map_cons, List.cons_append, Body.writeFrom, ih, commentsText_cons]
    simp only [List.append_assoc]

theorem declarations_comments (ts : List Text) (b : Body) :
    Body.declarations (ts.map Entry.comment ++ b) = b.declarations := by
  induction ts with
  | nil => rfl
  | cons t ts ih => exact ih

def AreComments (ts : List Text) (cs : List Node) : Prop :=
  List.Forall₂ (fun t c => ∃ p, c = .token p (.comment t)) ts cs

structure SpellsComment (t : Text) : Prop where
  standard : IsStandard t
  unclosed : Text.occurs "*/" t = false

theorem parses_comments (closer : Option Bracket) {ts : List Text}
    (h : ∀ t ∈ ts, SpellsComment t) (w : Text) :
    ∃ cs, Parses closer (commentsText ts ++ w) cs w ∧ AreComments ts cs := by
  induction ts with
  | nil => exact ⟨[], .nil, .nil⟩
  | cons t ts ih =>
    rw [List.forall_mem_cons] at h
    obtain ⟨cs, hp, hc⟩ := ih h.2
    rw [commentsText_cons, List.append_assoc]
    exact ⟨_, .of_lexes (Lexeme.lexes_comment h.1.unclosed _) hp, .cons ⟨_, rfl⟩ hc⟩

namespace AreComments

variable {ts : List Text} {cs : List Node}

theorem isComment (h : AreComments ts cs) : ∀ c ∈ cs, c.isComment = true := by
  induction h with
  | nil => exact nofun
  | cons hc _ ih =>
    obtain ⟨p, rfl⟩ := hc
    exact List.forall_mem_cons.mpr ⟨rfl, ih⟩

theorem writeFrom_eq (h : AreComments ts cs) {k : Option Kind} (hk : k ≠ some (.literal ['\\'])) :
    Node.writeFrom k cs = commentsText ts := by
  induction h generalizing k with
  | nil => rfl
  | @cons t c ts cs hc _ ih =>
    obtain ⟨p, rfl⟩ := hc
    have hw : (Node.token p (.comment t)).write = "/*" ++ t ++ "*/" := rfl
    have ho : (Node.token p (.comment t)).kind = .other := rfl
    rw [Node.writeFrom_cons, Node.between_comment hk, hw, ho, ih (by decide), commentsText_cons]
    rfl

theorem readsBody (h : AreComments ts cs) (hb : ReadsBody ns b) :
    ReadsBody (cs ++ ns) (ts.map Entry.comment ++ b) := by
  induction h with
  | nil => exact hb
  | cons hc _ ih =>
    obtain ⟨p, rfl⟩ := hc
    exact readsBody_comment p _ ih

end AreComments

theorem exists_comments (b : Body) : ∃ (ts : List Text) (rest : Body),
    b = ts.map Entry.comment ++ rest ∧
    ∀ e ∈ rest.head?, e.isDeclaration = true := by
  induction b with
  | nil => exact ⟨[], [], rfl, nofun⟩
  | cons e b ih =>
    cases e with
    | declaration d =>
      refine ⟨[], .declaration d :: b, rfl, fun e he => ?_⟩
      obtain rfl := Option.some.inj he
      rfl
    | comment t =>
      obtain ⟨ts, rest, rfl, hr⟩ := ih
      exact ⟨t :: ts, rest, rfl, hr⟩

/-! ### Declarations -/

/-- The nodes are read as a value, and if `exact` holds as a value with the given text. -/
structure SpellsValue (exact : Prop) (text : Text) (ms : List Node) : Prop where
  taken : Item.IsTaken ms
  read : (Item.readValue? ms).isSome = true
  same : exact → ∃ value important, Item.readValue? ms = some (value, important) ∧
    valueText value important = text ∧
      (important = false → Node.writeAll ms = text ∧ ∀ n ∈ ms, n.kind ≠ .literal ['\\'])

structure SpellsDeclaration (exact : Prop) (d : Declaration) : Prop where
  standard : IsStandard d.property
  name : writeIdent d.property = d.property
  nonempty : d.property ≠ []
  value : Spells (some .curly) d.value (SpellsValue exact d.value)

/-- The second declaration is read from the text of the first one. Its value is read from the nodes
of the first value and perhaps from comments behind them. -/
structure Rereads (d e : Declaration) : Prop where
  property : e.property = d.property
  value : ∃ w vs cs value important, Ended w ∧ Parses (some .curly) (d.value ++ w) vs w ∧
    (∀ c ∈ cs, c.isComment = true) ∧ Item.readValue? (vs ++ cs) = some (value, important) ∧
      e.value = valueText value important

def importantMark : Text := " !important"

/-- No comment directly follows a declaration with a mark of importance. -/
def KeepsNext (e e' : Entry) : Prop :=
  (∃ d ∈ e.declaration?, importantMark <:+ d.value) → e'.isDeclaration = true

instance : DecidableRel KeepsNext := fun e e' =>
  inferInstanceAs (Decidable ((∃ d ∈ e.declaration?, importantMark <:+ d.value) → e'.isDeclaration = true))

structure SpellsBody (exact : Prop) (b : Body) : Prop where
  declarations : ∀ d, Entry.declaration d ∈ b → SpellsDeclaration exact d
  comments : ∀ t, Entry.comment t ∈ b → SpellsComment t
  keeps : exact → b.IsChain KeepsNext

theorem SpellsBody.of_append {exact : Prop} {b b' : Body} (h : SpellsBody exact (b ++ b')) :
    SpellsBody exact b' :=
  ⟨fun d hd => h.declarations d (List.mem_append_right b hd),
    fun t ht => h.comments t (List.mem_append_right b ht),
    fun he => (List.isChain_append.mp (h.keeps he)).2.1⟩

theorem lexes_name {name w : Text} (hn : writeIdent name = name) (hne : name ≠ [])
    (hw : Lexeme.startsName w = false) (hs : ∀ c ∈ w.head?, c ∉ ['+', '>', '(']) :
    Lexeme.Lexes (name ++ w) (.token (.ident name)) w := by
  have hr : readName (name ++ w) = (name, w) := by
    have h : readName (writeIdent name ++ w) = (name, w) := Lexeme.readName_writeIdent_of hw
    rwa [hn] at h
  have hi : startsIdent (name ++ w) = true := by
    have h := startsIdent_writeIdent hne w
    rwa [hn] at h
  obtain ⟨c, p, rfl⟩ := List.exists_cons_of_ne_nil hne
  have hstop {d : Char} (hd : isNameChar d = false) (hb : d ≠ '\\') (t : Text) :
      readName (d :: t) = ([], d :: t) :=
    readName_of_not_startsName (by simp [Lexeme.startsName, hd, hb])
  have hp : Lexeme.Proper c (p ++ w) := by
    refine ⟨?_, ?_, ?_⟩
    · refine eq_false_of_ne_true fun hc => ?_
      rcases isSpace_cases hc with rfl | rfl | rfl <;> contradiction
    · rw [Agree.readRange?_eq_none_iff]
      rintro ⟨hc, hplus, -⟩
      cases p with
      | nil => exact hs '+' hplus (by decide)
      | cons d p =>
        obtain rfl : d = '+' := Option.some.inj hplus
        have hcn : isNameChar c = true := by rcases hc with rfl | rfl <;> rfl
        have hr' : readName (c :: '+' :: (p ++ w)) = (c :: '+' :: p, w) := hr
        rw [readName_nameChar hcn, hstop rfl (by decide)] at hr'
        simp at hr'
    · rw [Option.eq_none_iff_forall_ne_some]
      intro rest hd
      have hr' := hr
      rw [List.cons_append, Text.dropPrefix?_eq_some.mp hd] at hr'
      change readName ('-' :: '-' :: '>' :: rest) = (c :: p, w) at hr'
      rw [readName_nameChar rfl, readName_nameChar rfl, hstop rfl (by decide)] at hr'
      obtain ⟨-, rfl⟩ := Prod.mk.inj hr'
      exact hs '>' rfl (by decide)
  exact (Lexeme.Step.ident hp hi hr fun h => hs '(' h (by decide)).lexes

theorem parses_name {closer : Option Bracket} {name u w : Text} {ms : List Node}
    (hn : writeIdent name = name) (hne : name ≠ []) (h : Parses closer u ms w) :
    ∃ p q, Parses closer (name ++ ':' :: u)
      (.token p (.ident name) :: .token q (.literal [':']) :: ms) w := by
  have hname := lexes_name (w := ':' :: u) hn hne rfl fun c hc => by
    obtain rfl := Option.some.inj hc
    decide
  exact ⟨_, _, .of_lexes hname (.of_lexes (Lexeme.lexes_single (by decide) u) h)⟩

theorem startsName_of_stopped {w : Text} (h : Stopped w) : Lexeme.startsName w = false := by
  have ha : Agree [] w := .stop h
  exact ha.startsName rfl

theorem stopped_append {t w : Text} (h : ∀ c ∈ t.head?, c ∈ stops) (hw : Stopped w) :
    Stopped (t ++ w) := by
  cases t with
  | nil => exact hw
  | cons c t => exact Lexeme.stopped_cons (h c rfl) _

theorem strip_append_commentsText {t : Text} (h : Text.strip t = t) (ts : List Text) :
    Text.strip (t ++ commentsText ts) = t ++ commentsText ts := by
  induction ts using List.reverseRecOn with
  | nil =>
    change Text.strip (t ++ []) = t ++ []
    rwa [List.append_nil]
  | append_singleton ts u _ =>
    have hu : commentsText (ts ++ [u]) = commentsText ts ++ ("/*" ++ u ++ "*") ++ ['/'] := by
      simp [commentsText]
    have hs (v : Text) (hv : v.head?.any Text.isBlank = false) :
        (v ++ commentsText (ts ++ [u])).head?.any Text.isBlank = false := by
      cases v with
      | nil => cases ts <;> rfl
      | cons c v => exact hv
    refine Text.strip_eq_self (hs t (h ▸ (Text.firm_strip t).1)) ?_
    rw [hu, ← List.append_assoc, List.getLast?_concat]
    rfl

theorem writeFrom_true_of_declaration {b : Body} (h : b.head?.any Entry.isDeclaration = true) :
    Body.writeFrom true b = ';' :: Body.writeFrom false b := by
  cases b with
  | nil => contradiction
  | cons e b =>
    cases e with
    | declaration d => rfl
    | comment t => contradiction

structure Tail (exact : Prop) (rest b : Body) (tail : List Node) : Prop where
  reads : ReadsBody tail b
  taken : ∃ tail', Item.takeValue tail = ([], tail') ∧ ReadsBody tail' b
  same : exact → Body.writeFrom true b = Body.writeFrom true rest
  rereads : List.Forall₂ Rereads rest.declarations b.declarations

theorem writeFrom_append_comments {ts : List Text} {cs : List Node} (hc : AreComments ts cs)
    {vs : List Node} (h : ∀ n ∈ vs, n.kind ≠ .literal ['\\']) {k : Option Kind}
    (hk : k ≠ some (.literal ['\\'])) :
    Node.writeFrom k (vs ++ cs) = Node.writeFrom k vs ++ commentsText ts := by
  induction vs generalizing k with
  | nil => exact hc.writeFrom_eq hk
  | cons n vs ih =>
    rw [List.forall_mem_cons] at h
    rw [List.cons_append, Node.writeFrom_cons, Node.writeFrom_cons,
      ih h.2 (fun he => h.1 (Option.some.inj he))]
    simp only [List.append_assoc]

/-- The nodes are read as a body in the place of `b`, and if `exact` holds as one that is written
in the same way. -/
structure RereadsBody (exact : Prop) (b : Body) (ms : List Node) (b' : Body) : Prop where
  reads : ReadsBody ms b'
  same : exact → Body.writeFrom false b' = Body.writeFrom false b
  head : b.head?.any Entry.isDeclaration = true → b'.head?.any Entry.isDeclaration = true
  any : b.any Entry.isDeclaration = true → b'.any Entry.isDeclaration = true
  rereads : List.Forall₂ Rereads b.declarations b'.declarations

section Declarations

variable {exact : Prop} {d : Declaration} {ts : List Text} {cs vs tail : List Node} {w : Text}

/-- A value without comments behind it has the text that it had, and if there are comments they
become its end. A mark of importance has no comment behind it. -/
theorem valueText_append_comments {value : List Node} {important : Bool} (hcs : AreComments ts cs)
    (hv : SpellsValue exact d.value vs) (hk : exact → importantMark <:+ d.value → ts = [])
    (hval : Item.readValue? (vs ++ cs) = some (value, important)) (he : exact) :
    valueText value important = d.value ++ commentsText ts := by
  obtain ⟨value₀, important₀, hr, htext, hwrite⟩ := hv.same he
  cases important₀ with
  | true =>
    have hsuffix : importantMark <:+ d.value := by
      rw [← htext]
      exact List.suffix_append _ _
    obtain rfl := hk he hsuffix
    cases hcs
    rw [List.append_nil, hr] at hval
    cases hval
    rw [htext]
    exact (List.append_nil _).symm
  | false =>
    obtain ⟨rfl, -⟩ := Item.phase_of_readValue? hr
    rw [Item.readValue?_append_comments hr hcs.isComment] at hval
    cases hval
    obtain ⟨hw, hk⟩ := hwrite rfl
    have hstrip : Text.strip d.value = d.value := by
      have hv : Text.strip (Node.writeAll value₀) = d.value := htext
      rwa [hw] at hv
    have ha := writeFrom_append_comments hcs hk (k := none) nofun
    change Text.strip (Node.writeFrom none (value₀ ++ cs)) = _
    rw [ha, ← Node.writeAll, hw, strip_append_commentsText hstrip]

variable {rest b : Body} {p q : Text}

theorem exists_of_plain (hcs : AreComments ts cs) (ht : Tail exact rest b tail) (hw : Ended w)
    (hp : Parses (some .curly) (d.value ++ w) vs w) (hv : SpellsValue exact d.value vs)
    (hk : exact → importantMark <:+ d.value → ts = []) (hs : ∀ n ∈ vs, n.isPlain = true) :
    ∃ b', RereadsBody exact (.declaration d :: (ts.map Entry.comment ++ rest))
      (.token p (.ident d.property) :: .token q (.literal [':']) :: (vs ++ (cs ++ tail))) b' := by
  obtain ⟨tail', htt, hrt⟩ := ht.taken
  have hplain : ∀ n ∈ vs ++ cs, n.isPlain = true := by
    rw [List.forall_mem_append]
    exact ⟨hs, fun c hc => Node.isPlain_of_isFiller (Node.isFiller_of_isComment (hcs.isComment c hc))⟩
  obtain ⟨⟨value, important⟩, hval⟩ := Option.isSome_iff_exists.mp
    (Item.isSome_readValue?_of_plain hplain)
  have htake : Item.takeValue (.token q (.literal [':']) :: (vs ++ (cs ++ tail))) =
      (.token q (.literal [':']) :: (vs ++ cs), tail') := by
    have h := Item.takeValue_append
      (List.forall_mem_cons.mpr ⟨(rfl : (Node.token q (.literal [':'])).isPlain = true), hplain⟩) tail
    rw [htt, List.append_nil, List.cons_append, List.append_assoc] at h
    exact h
  have hre : Rereads d ⟨d.property, valueText value important⟩ :=
    ⟨rfl, w, vs, cs, value, important, hw, hp, hcs.isComment, hval, rfl⟩
  have hdecls : List.Forall₂ Rereads
      (Body.declarations (.declaration d :: (ts.map Entry.comment ++ rest)))
      (Body.declarations (.declaration ⟨d.property, valueText value important⟩ :: b)) :=
    .cons hre (by rw [← Body.declarations, declarations_comments]; exact ht.rereads)
  refine ⟨_, readsBody_declaration htake hval hrt, fun he => ?_, fun _ => rfl, fun _ => rfl, hdecls⟩
  rw [Body.writeFrom, Body.writeFrom, valueText_append_comments hcs hv hk hval he, ht.same he,
    writeFrom_comments]
  simp only [List.append_assoc]

theorem exists_of_block {n : Node} {before : List Node} (hcs : AreComments ts cs)
    (ht : Tail exact rest b tail) (hw : Ended w)
    (hp : Parses (some .curly) (d.value ++ w) (before ++ [n]) w)
    (hv : SpellsValue exact d.value (before ++ [n])) (hs : ∀ m ∈ before, m.isPlain = true)
    (hn : n.body?.isSome = true) :
    ∃ b', RereadsBody exact (.declaration d :: (ts.map Entry.comment ++ rest))
      (.token p (.ident d.property) :: .token q (.literal [':']) ::
        (before ++ [n] ++ (cs ++ tail))) b' := by
  obtain ⟨⟨value, important⟩, hval⟩ := Option.isSome_iff_exists.mp hv.read
  have htake : Item.takeValue (.token q (.literal [':']) :: (before ++ [n] ++ (cs ++ tail))) =
      (.token q (.literal [':']) :: (before ++ [n]), cs ++ tail) := by
    have h := Item.takeValue_append
      (List.forall_mem_cons.mpr ⟨(rfl : (Node.token q (.literal [':'])).isPlain = true), hs⟩)
      (n :: (cs ++ tail))
    rw [Item.takeValue_body hn, List.cons_append] at h
    rw [List.append_assoc]
    exact h
  have hre : Rereads d ⟨d.property, valueText value important⟩ :=
    ⟨rfl, w, before ++ [n], [], value, important, hw, hp, List.forall_mem_nil _,
      by rw [List.append_nil]; exact hval, rfl⟩
  have hdecls : List.Forall₂ Rereads
      (Body.declarations (.declaration d :: (ts.map Entry.comment ++ rest)))
      (Body.declarations (.declaration ⟨d.property, valueText value important⟩ ::
        (ts.map Entry.comment ++ b))) :=
    .cons hre (by
      rw [← Body.declarations, ← Body.declarations, declarations_comments, declarations_comments]
      exact ht.rereads)
  refine ⟨_, readsBody_declaration htake hval (hcs.readsBody ht.reads), fun he => ?_, fun _ => rfl,
    fun _ => rfl, hdecls⟩
  obtain ⟨value₀, important₀, hr, htext, -⟩ := hv.same he
  rw [hr] at hval
  cases hval
  rw [Body.writeFrom, Body.writeFrom, htext, writeFrom_comments, ht.same he, writeFrom_comments]

end Declarations

/-! ### Bodies -/

section Bodies

variable {exact : Prop} {ts : List Text} {rest : Body} {w : Text}

theorem ended_comments (ts : List Text) (hr : ∀ e ∈ rest.head?, e.isDeclaration = true)
    (hw : Ended w) : Ended (commentsText ts ++ (Body.writeFrom true rest ++ w)) := by
  refine ended_append (fun c hc => ?_) (ended_append (fun c hc => ?_) hw)
  · cases ts with
    | nil => contradiction
    | cons t ts =>
      obtain rfl := Option.some.inj hc
      decide
  · cases rest with
    | nil => contradiction
    | cons e rest =>
      have he : (e :: rest).head?.any Entry.isDeclaration = true := hr e rfl
      rw [writeFrom_true_of_declaration he] at hc
      obtain rfl := Option.some.inj hc
      decide

theorem exists_rest (hr : ∀ e ∈ rest.head?, e.isDeclaration = true)
    (h : ∃ ms b, Parses (some .curly) (Body.writeFrom false rest ++ w) ms w ∧
      RereadsBody exact rest ms b) :
    ∃ tail b, Parses (some .curly) (Body.writeFrom true rest ++ w) tail w ∧
      Tail exact rest b tail := by
  cases rest with
  | nil => exact ⟨[], [], .nil, .nil rfl, ⟨[], rfl, .nil rfl⟩, fun _ => rfl, .nil⟩
  | cons e rest =>
    have he : (e :: rest).head?.any Entry.isDeclaration = true := hr e rfl
    obtain ⟨ms, b, hp, hb⟩ := h
    rw [writeFrom_true_of_declaration he]
    refine ⟨_, b, .of_lexes (Lexeme.lexes_single (by decide) _) hp, hb.reads.semicolon rfl,
      ⟨ms, Item.takeValue_semicolon rfl ms, hb.reads⟩, fun hx => ?_, hb.rereads⟩
    rw [writeFrom_true_of_declaration he, writeFrom_true_of_declaration (hb.head he), hb.same hx]

theorem exists_comment {t : Text} {b : Body} (ht : SpellsComment t)
    (h : ∃ ms b', Parses (some .curly) (Body.writeFrom false b ++ w) ms w ∧
      RereadsBody exact b ms b') :
    ∃ ms b', Parses (some .curly) (Body.writeFrom false (.comment t :: b) ++ w) ms w ∧
      RereadsBody exact (.comment t :: b) ms b' := by
  obtain ⟨ms, b', hp, hb⟩ := h
  have htext : Body.writeFrom false (.comment t :: b) ++ w =
      "/*" ++ t ++ "*/" ++ (Body.writeFrom false b ++ w) := by
    rw [Body.writeFrom, List.append_assoc]
  have hpt := Parses.of_lexes (Lexeme.lexes_comment ht.unclosed _) hp
  refine ⟨_, .comment t :: b', htext ▸ hpt, readsBody_comment _ t hb.reads, fun he => ?_, nofun,
    hb.any, hb.rereads⟩
  rw [Body.writeFrom, hb.same he, Body.writeFrom]

theorem exists_declaration {d : Declaration}
    (h : SpellsBody exact (.declaration d :: (ts.map Entry.comment ++ rest)))
    (hr : ∀ e ∈ rest.head?, e.isDeclaration = true) (hw : Ended w)
    (hrest : ∃ ms b, Parses (some .curly) (Body.writeFrom false rest ++ w) ms w ∧
      RereadsBody exact rest ms b) :
    ∃ ms b', Parses (some .curly)
        (Body.writeFrom false (.declaration d :: (ts.map Entry.comment ++ rest)) ++ w) ms w ∧
      RereadsBody exact (.declaration d :: (ts.map Entry.comment ++ rest)) ms b' := by
  obtain ⟨tail, b, hpt, htail⟩ := exists_rest hr hrest
  have hd := h.declarations d List.mem_cons_self
  have hts : ∀ t ∈ ts, SpellsComment t := fun t ht =>
    h.comments t (List.mem_cons_of_mem _ (List.mem_append_left _ (List.mem_map_of_mem ht)))
  have hk : exact → importantMark <:+ d.value → ts = [] := fun he hm => by
    cases ts with
    | nil => rfl
    | cons t ts =>
      have hk := (List.isChain_cons.mp (h.keeps he)).1 (.comment t) rfl ⟨d, rfl, hm⟩
      contradiction
  have hend := ended_comments ts hr hw
  obtain ⟨cs, hpc, hcs⟩ := parses_comments (some .curly) hts (Body.writeFrom true rest ++ w)
  obtain ⟨vs, hpv, hvs⟩ := hd.value.reads _ hend
  obtain ⟨p, q, hpn⟩ := parses_name hd.name hd.nonempty (hpv.append (hpc.append hpt))
  have htext : Body.writeFrom false (.declaration d :: (ts.map Entry.comment ++ rest)) ++ w =
      d.property ++ ':' :: (d.value ++ (commentsText ts ++ (Body.writeFrom true rest ++ w))) := by
    rw [Body.writeFrom, writeFrom_comments]
    simp
  rw [htext]
  rcases hvs.taken with hs | ⟨before, n, rfl, hs, hn⟩
  · obtain ⟨b', hb'⟩ := exists_of_plain hcs htail hend hpv hvs hk hs
    exact ⟨_, b', hpn, hb'⟩
  · obtain ⟨b', hb'⟩ := exists_of_block hcs htail hend hpv hvs hs hn
    exact ⟨_, b', hpn, hb'⟩

/-- A body whose parts are spelled is read back. The induction is on its length, since comments
may be read together with the value before them. -/
theorem exists_body {b : Body} (h : SpellsBody exact b) (hw : Ended w) :
    ∃ ms b', Parses (some .curly) (Body.writeFrom false b ++ w) ms w ∧
      RereadsBody exact b ms b' := by
  induction hl : b.length using Nat.strongRecOn generalizing b with
  | ind k ih =>
    cases b with
    | nil => exact ⟨[], [], .nil, .nil rfl, fun _ => rfl, id, id, .nil⟩
    | cons e b =>
      have hb : SpellsBody exact b := SpellsBody.of_append (b := [e]) h
      cases e with
      | comment t =>
        exact exists_comment (h.comments t List.mem_cons_self)
          (ih b.length (hl ▸ Nat.lt_succ_self _) hb rfl)
      | declaration d =>
        obtain ⟨ts, rest, rfl, hr⟩ := exists_comments b
        have hlen : rest.length < k := by
          rw [← hl]
          simp only [List.length_cons, List.length_append]
          omega
        exact exists_declaration h hr hw (ih rest.length hlen hb.of_append rfl)

end Bodies

/-! ### What is written is standard -/

theorem SpellsComment.write {t : Text} (h : SpellsComment t) : IsStandard ("/*" ++ t ++ "*/") :=
  (IsStandard.append (by decide) h.standard).append (by decide)

theorem SpellsBody.standard {exact : Prop} {b : Body} (h : SpellsBody exact b) (separated : Bool) :
    IsStandard (Body.writeFrom separated b) := by
  obtain ⟨hd, hc, -⟩ := h
  induction b generalizing separated with
  | nil => exact .nil
  | cons e b ih =>
    have hb (separated : Bool) := ih separated (fun d hm => hd d (List.mem_cons_of_mem _ hm))
      (fun t hm => hc t (List.mem_cons_of_mem _ hm))
    cases e with
    | comment t =>
      rw [Body.writeFrom]
      exact (hc t List.mem_cons_self).write.append (hb separated)
    | declaration d =>
      have hd := hd d List.mem_cons_self
      have hs : IsStandard (if separated then [';'] else []) := by cases separated <;> decide
      rw [Body.writeFrom]
      exact (((hs.append hd.standard).append (by decide)).append hd.value.standard).append (hb true)

end Sheet

end CustomProperties

import CustomProperties.Sheet.Read

/-! # Reading as a relation

A sheet that is read without a fault is derived item by item. There is one derivation rule for each
shape of an item, so that what holds of every rule or value is shown for one item at a time.
-/

namespace CustomProperties.Sheet

open Syntax

inductive ReadsBody : List Node → Body → Prop

  | nil {ns : List Node} : Item.nextDeclaration? ns = none → ReadsBody ns []

  | declaration {ns rest value : List Node} {name : Text} {important : Bool} {b : Body} :
      Item.nextDeclaration? ns = some (.declaration name value important, rest) →
      ReadsBody rest b →
      ReadsBody ns (.declaration ⟨name, valueText value important⟩ :: b)

  | comment {ns rest : List Node} {text : Text} {b : Body} :
      Item.nextDeclaration? ns = some (.item (.comment text), rest) →
      ReadsBody rest b → ReadsBody ns (.comment text :: b)

inductive ReadsStages : List Node → List Stage → Prop

  | nil {ns : List Node} : Item.nextRule? false ns = none → ReadsStages ns []

  | comment {ns rest : List Node} {text : Text} {stages : List Stage} :
      Item.nextRule? false ns = some (.comment text, rest) →
      ReadsStages rest stages → ReadsStages ns (.comment text :: stages)

  | keyframe {ns rest prelude content : List Node} {place : Text} {b : Body}
      {stages : List Stage} :
      Item.nextRule? false ns = some (.rule place prelude content, rest) →
      ReadsBody content b → ReadsStages rest stages →
      ReadsStages ns (.keyframe (selectors prelude) b :: stages)

inductive ReadsRules : Bool → List Node → List Rule → Prop

  | nil {whole : Bool} {ns : List Node} :
      Item.nextRule? whole ns = none → ReadsRules whole ns []

  | comment {whole : Bool} {ns rest : List Node} {text : Text} {rs : List Rule} :
      Item.nextRule? whole ns = some (.comment text, rest) →
      ReadsRules whole rest rs → ReadsRules whole ns (.comment text :: rs)

  | style {whole : Bool} {ns rest prelude content : List Node} {place : Text} {b : Body}
      {rs : List Rule} :
      Item.nextRule? whole ns = some (.rule place prelude content, rest) →
      ReadsBody content b → ReadsRules whole rest rs →
      ReadsRules whole ns (.style (selectors prelude) b :: rs)

  | statement {whole : Bool} {ns rest prelude : List Node} {place keyword : Text}
      {rs : List Rule} :
      Item.nextRule? whole ns = some (.atRule place keyword prelude none, rest) →
      ReadsRules whole rest rs →
      ReadsRules whole ns (.unknown (rawText keyword prelude none) :: rs)

  | keyframes {whole : Bool} {ns rest prelude content : List Node} {place keyword vendor : Text}
      {stages : List Stage} {rs : List Rule} :
      Item.nextRule? whole ns = some (.atRule place keyword prelude (some content), rest) →
      Role.ofKeyword (Text.lowerAscii keyword) = .keyframes vendor →
      ReadsStages content stages → ReadsRules whole rest rs →
      ReadsRules whole ns (.keyframes (writtenText prelude) vendor stages :: rs)

  | fontFace {whole : Bool} {ns rest prelude content : List Node} {place keyword : Text} {b : Body}
      {rs : List Rule} :
      Item.nextRule? whole ns = some (.atRule place keyword prelude (some content), rest) →
      Role.ofKeyword (Text.lowerAscii keyword) = .fontFace →
      ReadsBody content b → ReadsRules whole rest rs →
      ReadsRules whole ns (.fontFace b :: rs)

  | container {whole : Bool} {ns rest prelude content : List Node} {place keyword : Text}
      {inner rs : List Rule} :
      Item.nextRule? whole ns = some (.atRule place keyword prelude (some content), rest) →
      Role.ofKeyword (Text.lowerAscii keyword) = .container →
      ReadsRules false content inner → ReadsRules whole rest rs →
      ReadsRules whole ns (.container (Text.lowerAscii keyword) (writtenText prelude) inner :: rs)

  | unknown {whole : Bool} {ns rest prelude content : List Node} {place keyword : Text}
      {rs : List Rule} :
      Item.nextRule? whole ns = some (.atRule place keyword prelude (some content), rest) →
      Role.ofKeyword (Text.lowerAscii keyword) = .unknown →
      ReadsRules whole rest rs →
      ReadsRules whole ns (.unknown (rawText keyword prelude (some content)) :: rs)

theorem map_eq_ok {ε α β : Type} {f : α → β} {x : Except ε α} {b : β} (h : x.map f = .ok b) :
    ∃ a, x = .ok a ∧ f a = b := by
  cases x with
  | error e => contradiction
  | ok a => exact ⟨a, rfl, Except.ok.inj h⟩

theorem bind_eq_ok {ε α β : Type} {f : α → Except ε β} {x : Except ε α} {b : β}
    (h : x.bind f = .ok b) : ∃ a, x = .ok a ∧ f a = .ok b := by
  cases x with
  | error e => contradiction
  | ok a => exact ⟨a, rfl, h⟩

theorem readsBody_of_readBody {ns : List Node} {b : Body} (h : readBody ns = .ok b) :
    ReadsBody ns b := by
  fun_induction readBody ns generalizing b with
  | case1 ns hn =>
    cases h
    exact .nil hn
  | case2 ns rest name value important _ hn ih =>
    obtain ⟨b', hb, rfl⟩ := map_eq_ok h
    exact .declaration hn (ih hb)
  | case3 ns rest text _ hn ih =>
    obtain ⟨b', hb, rfl⟩ := map_eq_ok h
    exact .comment hn (ih hb)
  | case4 => contradiction
  | case5 => contradiction
  | case6 => contradiction

theorem readsStages_of_readStages {ns : List Node} {stages : List Stage}
    (h : readStages ns = .ok stages) : ReadsStages ns stages := by
  fun_induction readStages ns generalizing stages with
  | case1 ns hn =>
    cases h
    exact .nil hn
  | case2 ns rest text _ hn ih =>
    obtain ⟨stages', hs, rfl⟩ := map_eq_ok h
    exact .comment hn (ih hs)
  | case3 ns rest place prelude content _ hn ih =>
    obtain ⟨b, hb, h⟩ := bind_eq_ok h
    obtain ⟨stages', hs, rfl⟩ := map_eq_ok h
    exact .keyframe hn (readsBody_of_readBody hb) (ih hs)
  | case4 => contradiction
  | case5 => contradiction

theorem readsRules_of_readRules {whole : Bool} {ns : List Node} {rs : List Rule}
    (h : readRules whole ns = .ok rs) : ReadsRules whole ns rs := by
  fun_induction readRules whole ns generalizing rs with
  | case1 whole ns hn =>
    cases h
    exact .nil hn
  | case2 whole ns item rest hn first ihc =>
    rename_i ihr
    obtain ⟨r, hf, h⟩ := bind_eq_ok h
    obtain ⟨rs', hs, rfl⟩ := map_eq_ok h
    have hr := ihr hs
    clear h
    cases item with
    | comment text =>
      obtain rfl := Except.ok.inj hf
      exact .comment hn hr
    | fault place fault => contradiction
    | rule place prelude content =>
      obtain ⟨b, hb, rfl⟩ := map_eq_ok hf
      exact .style hn (readsBody_of_readBody hb) hr
    | atRule place keyword prelude content =>
      cases content with
      | none =>
        obtain rfl := Except.ok.inj hf
        exact .statement hn hr
      | some content =>
        simp only [first] at hf
        split at hf
        next vendor hk =>
          obtain ⟨stages, hs, rfl⟩ := map_eq_ok hf
          exact .keyframes hn hk (readsStages_of_readStages hs) hr
        next hk =>
          obtain ⟨b, hb, rfl⟩ := map_eq_ok hf
          exact .fontFace hn hk (readsBody_of_readBody hb) hr
        next hk =>
          obtain ⟨inner, hi, rfl⟩ := map_eq_ok hf
          exact .container hn hk (ihc place keyword prelude content hn hi) hr
        next hk =>
          obtain rfl := Except.ok.inj hf
          exact .unknown hn hk hr

theorem readsRules_of_read {source : Text} {s : Sheet} (h : read source = .ok s) :
    ReadsRules true (Node.readAll (standardize source)) s := by
  unfold read at h
  cases hr : readRules true (Node.readAll (standardize source)) with
  | error e => rw [hr] at h; contradiction
  | ok s' =>
    rw [hr] at h
    cases h
    exact readsRules_of_readRules hr

/-! ### Everything that is derived is read -/

theorem readBody_of_readsBody {ns : List Node} {b : Body} (h : ReadsBody ns b) :
    readBody ns = .ok b := by
  induction h with
  | nil hn =>
    rw [readBody]
    split
    next => rfl
    next he => rw [hn] at he; contradiction
  | declaration hn _ ih =>
    rw [readBody]
    split
    next he => rw [hn] at he; contradiction
    next he =>
      rw [hn] at he
      cases he
      exact congrArg (Except.map _) ih
  | comment hn _ ih =>
    rw [readBody]
    split
    next he => rw [hn] at he; contradiction
    next he =>
      rw [hn] at he
      cases he
      exact congrArg (Except.map _) ih

theorem readStages_of_readsStages {ns : List Node} {stages : List Stage}
    (h : ReadsStages ns stages) : readStages ns = .ok stages := by
  induction h with
  | nil hn =>
    rw [readStages]
    split
    next => rfl
    next he => rw [hn] at he; contradiction
  | comment hn _ ih =>
    rw [readStages]
    split
    next he => rw [hn] at he; contradiction
    next he =>
      rw [hn] at he
      cases he
      exact congrArg (Except.map _) ih
  | keyframe hn hb _ ih =>
    rw [readStages]
    split
    next he => rw [hn] at he; contradiction
    next he =>
      rw [hn] at he
      cases he
      dsimp only
      rw [readBody_of_readsBody hb, ih]
      rfl

def readItem (item : Item) : Except Failure Rule :=
  match item with
  | .comment text => .ok (.comment text)
  | .fault place fault => .error ⟨place, fault⟩
  | .rule _ prelude content => (readBody content).map (.style (selectors prelude))
  | .atRule _ keyword prelude none => .ok (.unknown (rawText keyword prelude none))
  | .atRule _ keyword prelude (some content) =>
    match Role.ofKeyword (Text.lowerAscii keyword) with
    | .keyframes vendor => (readStages content).map (.keyframes (writtenText prelude) vendor)
    | .fontFace => (readBody content).map .fontFace
    | .container => (readRules false content).map
        (.container (Text.lowerAscii keyword) (writtenText prelude))
    | .unknown => .ok (.unknown (rawText keyword prelude (some content)))

theorem readRules_of_nextRule? {whole : Bool} {ns rest : List Node} {item : Item} {r : Rule}
    {rs : List Rule} (hn : Item.nextRule? whole ns = some (item, rest))
    (hi : readItem item = .ok r) (hr : readRules whole rest = .ok rs) :
    readRules whole ns = .ok (r :: rs) := by
  rw [readRules]
  split
  next he => rw [hn] at he; contradiction
  next he =>
    rw [hn] at he
    cases he
    dsimp only
    rw [hr]
    refine Eq.trans (congrArg (fun x => Except.bind x _) ?_) (rfl : Except.bind (.ok r) _ = _)
    cases item with
    | atRule _ _ _ content => cases content <;> exact hi
    | _ => exact hi

theorem readRules_of_readsRules {whole : Bool} {ns : List Node} {rs : List Rule}
    (h : ReadsRules whole ns rs) : readRules whole ns = .ok rs := by
  induction h with
  | nil hn =>
    rw [readRules]
    split
    next => rfl
    next he => rw [hn] at he; contradiction
  | comment hn _ ih => exact readRules_of_nextRule? hn rfl ih
  | style hn hb _ ih =>
    exact readRules_of_nextRule? hn (congrArg (Except.map _) (readBody_of_readsBody hb)) ih
  | statement hn _ ih => exact readRules_of_nextRule? hn rfl ih
  | keyframes hn hk hs _ ih =>
    refine readRules_of_nextRule? hn ?_ ih
    rw [readItem, hk]
    exact congrArg (Except.map _) (readStages_of_readsStages hs)
  | fontFace hn hk hb _ ih =>
    refine readRules_of_nextRule? hn ?_ ih
    rw [readItem, hk]
    exact congrArg (Except.map _) (readBody_of_readsBody hb)
  | container hn hk _ _ ihc ih =>
    refine readRules_of_nextRule? hn ?_ ih
    rw [readItem, hk]
    exact congrArg (Except.map _) ihc
  | unknown hn hk _ ih =>
    refine readRules_of_nextRule? hn ?_ ih
    rw [readItem, hk]

end CustomProperties.Sheet

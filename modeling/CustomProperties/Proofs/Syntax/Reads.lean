import CustomProperties.Proofs.Syntax.Scan
import CustomProperties.Syntax.Node

/-! # Nodes and the text they are read from

A list of nodes is read from a first part of a text, and what is left of the text is the third
argument of `Reads`. Consecutive nodes are read from consecutive parts, and the content of a block
from the part between its brackets.
-/

namespace CustomProperties.Syntax

open Lexeme (Scans)

theorem Lexeme.Scans.suffix {s rest : Text} {m : Mark} (h : Scans s m rest) : rest <:+ s := by
  cases h with
  | openComment => exact List.nil_suffix
  | openString => exact List.nil_suffix
  | openUrl => exact List.nil_suffix
  | @comment t => exact ⟨"/*" ++ (t ++ "*/"), by simp⟩
  | @atKeyword name => exact ⟨'@' :: name, rfl⟩
  | @hash name => exact ⟨'#' :: name, rfl⟩
  | @string quote value => exact ⟨quote :: (value ++ [quote]), by simp⟩
  | @url before value blanks => exact ⟨before ++ (value ++ (blanks ++ [')'])), by simp⟩
  | @percentage digits => exact ⟨digits ++ ['%'], by simp⟩
  | @dimension digits unit => exact ⟨digits ++ unit, by simp⟩
  | @closing bracket => exact ⟨[bracket.closing], rfl⟩
  | _ => exact List.suffix_append _ _

theorem Lexeme.Scans.eq_of_closing {s rest : Text} {b : Bracket} (h : Scans s (.closing b) rest) :
    s = b.closing :: rest := by
  cases h
  rfl

def Opener.node (place : Text) (content : List Node) : Opener → Node
  | bracket b => .block place b content
  | function name => .function place name content

theorem Frame.close_eq (f : Frame) (content : List Node) :
    f.close content = f.opener.node f.place content.reverse :: f.before := by
  unfold close Opener.node
  cases f.opener <;> rfl

namespace Node

/-- A block ends with its bracket, or where the text ends. -/
inductive Ends (b : Bracket) : Text → Text → Prop

  | closed {rest : Text} : Ends b (b.closing :: rest) rest

  | cut : Ends b [] []

inductive Reads : Text → List Node → Text → Prop

  | nil {t : Text} : Reads t [] t

  | token {s t rest place : Text} {tok : Token} {ns : List Node} :
      Scans s (.token tok) t → Reads t ns rest → Reads s (.token place tok :: ns) rest

  | stray {t rest place : Text} {b : Bracket} {ns : List Node} :
      Reads t ns rest → Reads (b.closing :: t) (.token place (.stray b) :: ns) rest

  | nested {t u v rest place : Text} {o : Opener} {content ns : List Node} :
      Reads t content u → Ends o.closer u v → Reads v ns rest →
      Reads (o.text ++ t) (o.node place content :: ns) rest

theorem Ends.suffix {b : Bracket} {u v : Text} (h : Ends b u v) : v <:+ u := by
  cases h with
  | closed => exact List.suffix_cons _ _
  | cut => exact List.suffix_refl _

namespace Reads

variable {s t u rest : Text} {ns ms content : List Node} {n : Node}

theorem append (h : Reads s ns t) (h' : Reads t ms rest) : Reads s (ns ++ ms) rest := by
  induction h with
  | nil => exact h'
  | token hs _ ih => exact .token hs (ih h')
  | stray _ ih => exact .stray (ih h')
  | nested hc he _ _ ih => exact .nested hc he (ih h')

theorem exists_of_append (h : Reads s (ns ++ ms) rest) : ∃ t, Reads s ns t ∧ Reads t ms rest := by
  induction ns generalizing s with
  | nil => exact ⟨s, .nil, h⟩
  | cons n ns ih =>
    cases h with
    | token hs h =>
      obtain ⟨t, hn, hm⟩ := ih h
      exact ⟨t, .token hs hn, hm⟩
    | stray h =>
      obtain ⟨t, hn, hm⟩ := ih h
      exact ⟨t, .stray hn, hm⟩
    | nested hc he h =>
      obtain ⟨t, hn, hm⟩ := ih h
      exact ⟨t, .nested hc he hn, hm⟩

theorem suffix (h : Reads s ns rest) : rest <:+ s := by
  induction h with
  | nil => exact List.suffix_refl _
  | token hs _ ih => exact ih.trans hs.suffix
  | stray _ ih => exact ih.trans (List.suffix_cons _ _)
  | nested _ he _ ihc ih => exact ((ih.trans he.suffix).trans ihc).trans (List.suffix_append _ _)

theorem exists_of_body? (h : Reads s (n :: ns) rest) (hb : n.body? = some content) :
    ∃ t u, s = '\x7b' :: t ∧ Reads t content u := by
  cases h with
  | token => contradiction
  | stray => contradiction
  | @nested t u _ _ _ o _ _ hc _ _ =>
    cases o with
    | function name => contradiction
    | bracket b =>
      cases b with
      | curly =>
        cases hb
        exact ⟨t, u, rfl, hc⟩
      | round => contradiction
      | square => contradiction

end Reads

def Within (s : Text) (ns : List Node) : Prop := ∃ t rest, t <:+ s ∧ Reads t ns rest

namespace Within

variable {s : Text} {ns ms content : List Node} {n : Node}

theorem of_infix (h : Within s ns) (hm : ms <:+: ns) : Within s ms := by
  obtain ⟨t, rest, ht, hr⟩ := h
  obtain ⟨before, after, rfl⟩ := hm
  obtain ⟨u, hu, -⟩ := hr.exists_of_append
  obtain ⟨v, hb, hv⟩ := hu.exists_of_append
  exact ⟨v, u, hb.suffix.trans ht, hv⟩

theorem of_body? (h : Within s ns) (hn : n ∈ ns) (hb : n.body? = some content) :
    Within s content := by
  obtain ⟨before, after, rfl⟩ := List.append_of_mem hn
  obtain ⟨t, rest, ht, hr⟩ := h.of_infix (List.suffix_append before (n :: after)).isInfix
  obtain ⟨u, v, rfl, hu⟩ := hr.exists_of_body? hb
  exact ⟨u, v, (List.suffix_cons _ u).trans ht, hu⟩

end Within

/-! ### Grouping -/

/-- The text `s` has been read up to `t`, and the frames are still open. -/
def Reached : List Frame → List Node → Text → Text → Prop
  | [], done, s, t => Reads s done.reverse t
  | f :: frames, done, s, t =>
    ∃ u, Reached frames f.before s (f.opener.text ++ u) ∧ Reads u done.reverse t

namespace Reached

variable {frames : List Frame} {f : Frame} {done : List Node} {n : Node} {s t u : Text}

theorem append (h : Reached frames done s t) (hn : Reads t [n] u) :
    Reached frames (n :: done) s u := by
  cases frames with
  | nil =>
    rw [Reached, List.reverse_cons]
    exact Reads.append h hn
  | cons f frames =>
    obtain ⟨v, hf, hr⟩ := h
    rw [Reached, List.reverse_cons]
    exact ⟨v, hf, hr.append hn⟩

theorem opening {o : Opener} {place : Text} (h : Reached frames done s t)
    (ho : Scans t (.opening o) u) : Reached (⟨place, o, done⟩ :: frames) [] s u := by
  cases ho
  exact ⟨u, h, .nil⟩

theorem close (h : Reached (f :: frames) done s t) (he : Ends f.opener.closer t u) :
    Reached frames (f.close done) s u := by
  obtain ⟨v, hf, hr⟩ := h
  rw [Frame.close_eq]
  exact hf.append (.nested hr he .nil)

theorem closeAll (h : Reached frames done s []) : Reads s (Frame.closeAll frames done) [] := by
  induction frames generalizing done with
  | nil => exact h
  | cons f frames ih => exact ih (h.close .cut)

/-- Grouping the lexemes that are left reads the text to its end. -/
theorem groupOnto (h : Reached frames done s t) (ht : '\\' ∉ t) :
    Reads s (groupOnto frames done (Lexeme.readAll t)) [] := by
  induction hl : t.length using Nat.strongRecOn generalizing frames done t with
  | ind k ih =>
    cases t with
    | nil =>
      rw [Lexeme.readAll_nil, Node.groupOnto]
      exact h.closeAll
    | cons c t =>
      have hs := Lexeme.scans_next ht
      have hlen : (Lexeme.next c t).2.length < k := by
        have := Lexeme.length_next c t
        rw [← hl, List.length_cons]
        omega
      have hr : '\\' ∉ (Lexeme.next c t).2 := fun hm => ht (hs.suffix.mem hm)
      rw [Lexeme.readAll_cons]
      cases hm : (Lexeme.next c t).1 with
      | token tok =>
        rw [hm] at hs
        rw [Node.groupOnto]
        exact ih _ hlen (h.append (.token hs .nil)) hr rfl
      | opening o =>
        rw [hm] at hs
        rw [Node.groupOnto]
        exact ih _ hlen (h.opening hs) hr rfl
      | closing b =>
        rw [hm] at hs
        rw [hs.eq_of_closing] at h
        have hstray : Reached frames (.token (c :: t) (.stray b) :: done) s (Lexeme.next c t).2 :=
          h.append (.stray .nil)
        cases frames with
        | nil =>
          rw [Node.groupOnto]
          exact ih _ hlen hstray hr rfl
        | cons f frames =>
          rw [Node.groupOnto]
          split
          next hb =>
            rw [← hb] at h
            exact ih _ hlen (h.close .closed) hr rfl
          next => exact ih _ hlen hstray hr rfl

end Reached

theorem reads_readAll {t : Text} (h : '\\' ∉ t) : Reads t (readAll t) [] := by
  have hr : Reached [] [] t t := .nil
  exact hr.groupOnto h

end Node

end CustomProperties.Syntax

import CustomProperties.Proofs.Syntax.Reads
import CustomProperties.Proofs.Syntax.Step

/-! # Nodes and the lexemes they are read from

Consecutive nodes are read from consecutive parts of the text. A node keeps the text from its
first character on, so its place shows what the lexer met there. Inside a block its own bracket
ends the list, and any other closing bracket stands for itself.
-/

namespace CustomProperties.Syntax

namespace Node

/-- The nodes are read from the first text up to the second one, in a block that `closer` ends. -/
inductive Parses : (closer : Option Bracket) → Text → List Node → Text → Prop

  | nil {closer : Option Bracket} {t : Text} : Parses closer t [] t

  | token {closer : Option Bracket} {c : Char} {t u rest : Text} {tok : Token} {ns : List Node} :
      Lexeme.next c t = (.token tok, u) → Parses closer u ns rest →
      Parses closer (c :: t) (.token (c :: t) tok :: ns) rest

  | stray {closer : Option Bracket} {t rest : Text} {b : Bracket} {ns : List Node} :
      closer ≠ some b → Parses closer t ns rest →
      Parses closer (b.closing :: t) (.token (b.closing :: t) (.stray b) :: ns) rest

  | nested {closer : Option Bracket} {c : Char} {t u v w rest : Text} {o : Opener}
      {content ns : List Node} :
      Lexeme.next c t = (.opening o, u) → Parses (some o.closer) u content v → Ends o.closer v w →
      Parses closer w ns rest → Parses closer (c :: t) (o.node (c :: t) content :: ns) rest

theorem Ends.unique {b : Bracket} {v w w' : Text} (h : Ends b v w) (h' : Ends b v w') : w = w' := by
  cases h <;> cases h' <;> rfl

namespace Parses

variable {closer : Option Bracket} {s t rest : Text} {ns ms : List Node}

theorem append (h : Parses closer s ns t) (h' : Parses closer t ms rest) :
    Parses closer s (ns ++ ms) rest := by
  induction h with
  | nil => exact h'
  | token hn _ ih => exact .token hn (ih h')
  | stray hb _ ih => exact .stray hb (ih h')
  | nested hn hc he _ _ ih => exact .nested hn hc he (ih h')

theorem exists_of_append (h : Parses closer s (ns ++ ms) rest) :
    ∃ t, Parses closer s ns t ∧ Parses closer t ms rest := by
  induction ns generalizing s with
  | nil => exact ⟨s, .nil, h⟩
  | cons n ns ih =>
    cases h with
    | token hn h =>
      obtain ⟨t, hns, hms⟩ := ih h
      exact ⟨t, .token hn hns, hms⟩
    | stray hb h =>
      obtain ⟨t, hns, hms⟩ := ih h
      exact ⟨t, .stray hb hns, hms⟩
    | nested hn hc he h =>
      obtain ⟨t, hns, hms⟩ := ih h
      exact ⟨t, .nested hn hc he hns, hms⟩

theorem step_of_token {p : Text} {tok : Token} (h : Parses closer s (.token p tok :: ns) rest)
    (ht : ∀ b, tok ≠ .stray b) :
    ∃ c u v, s = c :: u ∧ Lexeme.Step c u (.token tok) v ∧ Parses closer v ns rest := by
  generalize he : Node.token p tok :: ns = all at h
  cases h with
  | nil => contradiction
  | @token _ c u v _ _ _ hn h =>
    cases he
    have hst := Lexeme.Step.of_next hn
    exact ⟨c, u, v, rfl, hst, h⟩
  | @stray _ _ _ b =>
    cases he
    exact absurd rfl (ht b)
  | @nested _ _ _ _ _ _ _ o => cases o <;> cases he

theorem length_le (h : Parses closer s ns t) : t.length + ns.length ≤ s.length := by
  induction h with
  | nil => simp
  | @token _ c t u _ _ _ hn _ ih =>
    have hl := Lexeme.length_next c t
    rw [hn] at hl
    simp only [List.length_cons] at *
    omega
  | stray _ _ ih =>
    simp only [List.length_cons] at *
    omega
  | @nested _ c t _ _ _ _ _ _ _ hn _ he _ ihc ih =>
    have hl := Lexeme.length_next c t
    have hv := he.suffix.length_le
    rw [hn] at hl
    simp only [List.length_cons] at *
    omega

theorem eq_of_nil (h : Parses closer s [] t) : t = s := by
  cases h
  rfl

theorem closer_ne {b : Bracket} (h : Parses closer (b.closing :: s) ns t) (hn : ns ≠ []) :
    closer ≠ some b ∧ ∃ ms, ns = .token (b.closing :: s) (.stray b) :: ms ∧ Parses closer s ms t := by
  generalize hs : b.closing :: s = all at h
  have hnext {c : Char} {t u : Text} {m : Mark} (he : b.closing :: s = c :: t)
      (hm : Lexeme.next c t = (m, u)) : m = .closing b := by
    obtain ⟨rfl, rfl⟩ := List.cons_eq_cons.mp he
    rw [Lexeme.next_closing] at hm
    exact (congrArg Prod.fst hm).symm
  cases h with
  | nil => contradiction
  | token hm => cases hnext hs hm
  | @stray _ _ _ b' ns hb h =>
    have hbb : b = b' := by
      have hc := (List.cons_eq_cons.mp hs).1
      cases b <;> cases b' <;> first | rfl | exact absurd hc (by decide)
    subst hbb
    obtain rfl := (List.cons_eq_cons.mp hs).2
    exact ⟨hb, ns, rfl, h⟩
  | nested hm => cases hnext hs hm

theorem eq_nil_of_ends {b : Bracket} {w : Text} (h : Parses (some b) s ns t) (he : Ends b s w) :
    ns = [] ∧ t = s := by
  cases he with
  | closed =>
    by_cases hn : ns = []
    · subst hn
      exact ⟨rfl, h.eq_of_nil⟩
    · exact absurd rfl (h.closer_ne hn).1
  | cut =>
    cases h with
    | nil => exact ⟨rfl, rfl⟩

/-- Of two runs through a text one goes on where the other one ends. -/
theorem comparable (h : Parses closer s ns t) (h' : Parses closer s ms u) :
    (∃ ks, ms = ns ++ ks ∧ Parses closer t ks u) ∨ ∃ ks, ns = ms ++ ks ∧ Parses closer u ks t := by
  induction h generalizing ms u with
  | nil => exact .inl ⟨ms, rfl, h'⟩
  | token hn h ih =>
    cases h' with
    | nil => exact .inr ⟨_, rfl, .token hn h⟩
    | token hn' h' =>
      rw [hn] at hn'
      cases hn'
      rcases ih h' with ⟨ks, rfl, hk⟩ | ⟨ks, rfl, hk⟩
      · exact .inl ⟨ks, rfl, hk⟩
      · exact .inr ⟨ks, rfl, hk⟩
    | stray => rw [Lexeme.next_closing] at hn; cases hn
    | nested hn' => rw [hn] at hn'; cases hn'
  | stray hb h ih =>
    by_cases hm : ms = []
    · subst hm
      rw [h'.eq_of_nil]
      exact .inr ⟨_, rfl, .stray hb h⟩
    · obtain ⟨-, ms, rfl, hms⟩ := h'.closer_ne hm
      rcases ih hms with ⟨ks, rfl, hk⟩ | ⟨ks, rfl, hk⟩
      · exact .inl ⟨ks, rfl, hk⟩
      · exact .inr ⟨ks, rfl, hk⟩
  | @nested _ _ _ _ v _ _ _ content _ hn hc he h ihc ih =>
    cases h' with
    | nil => exact .inr ⟨_, rfl, .nested hn hc he h⟩
    | token hn' => rw [hn] at hn'; cases hn'
    | stray => rw [Lexeme.next_closing] at hn; cases hn
    | @nested _ _ _ _ v' _ _ _ content' _ hn' hc' he' h' =>
      rw [hn] at hn'
      cases hn'
      have hcontent : content = content' ∧ v = v' := by
        rcases ihc hc' with ⟨ks, rfl, hk⟩ | ⟨ks, rfl, hk⟩
        · obtain ⟨rfl, rfl⟩ := hk.eq_nil_of_ends he
          exact ⟨(List.append_nil _).symm, rfl⟩
        · obtain ⟨rfl, rfl⟩ := hk.eq_nil_of_ends he'
          exact ⟨List.append_nil _, rfl⟩
      obtain ⟨rfl, rfl⟩ := hcontent
      obtain rfl := he.unique he'
      rcases ih h' with ⟨ks, rfl, hk⟩ | ⟨ks, rfl, hk⟩
      · exact .inl ⟨ks, rfl, hk⟩
      · exact .inr ⟨ks, rfl, hk⟩

theorem unique (h : Parses closer s ns t) (h' : Parses closer s ms t) : ns = ms := by
  have hnil {ks : List Node} (hk : Parses closer t ks t) : ks = [] := by
    have hl := hk.length_le
    exact List.eq_nil_of_length_eq_zero (by omega)
  rcases h.comparable h' with ⟨ks, rfl, hk⟩ | ⟨ks, rfl, hk⟩
  · rw [hnil hk, List.append_nil]
  · rw [hnil hk, List.append_nil]

end Parses

/-! ### Grouping -/

def closerOf (frames : List Frame) : Option Bracket := frames.head?.map (·.opener.closer)

/-- The text `s` has been parsed up to `t`, and the frames are still open. -/
def Parsed : List Frame → List Node → Text → Text → Prop
  | [], done, s, t => Parses none s done.reverse t
  | f :: frames, done, s, t =>
    ∃ c u v, f.place = c :: u ∧ Lexeme.next c u = (.opening f.opener, v) ∧
      Parsed frames f.before s (c :: u) ∧ Parses (some f.opener.closer) v done.reverse t

namespace Parsed

variable {frames : List Frame} {f : Frame} {done : List Node} {n : Node} {s t u : Text}

theorem append (h : Parsed frames done s t) (hn : Parses (closerOf frames) t [n] u) :
    Parsed frames (n :: done) s u := by
  cases frames with
  | nil =>
    rw [Parsed, List.reverse_cons]
    exact Parses.append h hn
  | cons f frames =>
    obtain ⟨c, x, v, hp, ho, hf, hd⟩ := h
    rw [Parsed, List.reverse_cons]
    exact ⟨c, x, v, hp, ho, hf, hd.append hn⟩

theorem close (h : Parsed (f :: frames) done s t) (he : Ends f.opener.closer t u) :
    Parsed frames (f.close done) s u := by
  obtain ⟨c, x, v, hp, ho, hf, hd⟩ := h
  rw [Frame.close_eq, hp]
  exact hf.append (.nested ho hd he .nil)

theorem closeAll (h : Parsed frames done s []) :
    Parses none s (Frame.closeAll frames done) [] := by
  induction frames generalizing done with
  | nil => exact h
  | cons f frames ih => exact ih (h.close .cut)

theorem groupOnto (h : Parsed frames done s t) :
    Parses none s (groupOnto frames done (Lexeme.readAll t)) [] := by
  induction hl : t.length using Nat.strongRecOn generalizing frames done t with
  | ind k ih =>
    cases t with
    | nil =>
      rw [Lexeme.readAll_nil, Node.groupOnto]
      exact h.closeAll
    | cons c t =>
      have hlen : (Lexeme.next c t).2.length < k := by
        have := Lexeme.length_next c t
        rw [← hl, List.length_cons]
        omega
      rw [Lexeme.readAll_cons]
      cases hm : (Lexeme.next c t).1 with
      | token tok =>
        rw [Node.groupOnto]
        exact ih _ hlen (h.append (.token (Prod.ext hm rfl) .nil)) rfl
      | opening o =>
        rw [Node.groupOnto]
        exact ih _ hlen ⟨c, t, _, rfl, Prod.ext hm rfl, h, .nil⟩ rfl
      | closing b =>
        obtain ⟨rfl, hr⟩ := (hm ▸ Lexeme.step_next c t).of_closing
        rw [hr] at hlen ⊢
        cases frames with
        | nil =>
          rw [Node.groupOnto]
          exact ih _ hlen (h.append (.stray (by simp [closerOf]) .nil)) rfl
        | cons f frames =>
          rw [Node.groupOnto]
          split
          next hb =>
            subst hb
            exact ih _ hlen (h.close .closed) rfl
          next hb => exact ih _ hlen (h.append (.stray (by simpa [closerOf] using hb) .nil)) rfl

end Parsed

theorem parses_readAll (t : Text) : Parses none t (readAll t) [] := by
  have hr : Parsed [] [] t t := .nil
  exact hr.groupOnto

/-- Nodes that are parsed from a text are what grouping makes of its lexemes. -/
theorem Parses.groupOnto {closer : Option Bracket} {s t : Text} {ns : List Node}
    (h : Parses closer s ns t) {frames : List Frame} (hf : closerOf frames = closer)
    (done : List Node) : Node.groupOnto frames done (Lexeme.readAll s) =
      Node.groupOnto frames (ns.reverse ++ done) (Lexeme.readAll t) := by
  induction h generalizing frames done with
  | nil => rfl
  | token hn _ ih =>
    rw [Lexeme.readAll_cons, hn, Node.groupOnto, ih hf, List.reverse_cons, List.append_assoc]
    rfl
  | stray hb _ ih =>
    rw [Lexeme.readAll_cons, Lexeme.next_closing, List.reverse_cons, List.append_assoc]
    cases frames with
    | nil => rw [Node.groupOnto, ih hf]; rfl
    | cons f frames =>
      have hne : f.opener.closer ≠ _ := fun he => hb (hf ▸ congrArg some he)
      rw [Node.groupOnto, if_neg hne, ih hf]
      rfl
  | @nested closer c t u v w rest o content ns hn _ he _ ihc ih =>
    have hclose : (⟨c :: t, o, done⟩ : Frame).close (content.reverse ++ []) =
        o.node (c :: t) content :: done := by
      rw [Frame.close_eq, List.append_nil, List.reverse_reverse]
    rw [Lexeme.readAll_cons, hn, Node.groupOnto, ihc rfl, List.reverse_cons, List.append_assoc,
      List.singleton_append, ← ih hf, ← hclose]
    cases he with
    | closed => rw [Lexeme.readAll_cons, Lexeme.next_closing, Node.groupOnto, if_pos rfl]
    | cut =>
      rw [Lexeme.readAll_nil, Node.groupOnto, Node.groupOnto]
      rfl

theorem Parses.readAll_eq {t : Text} {ns : List Node} (h : Parses none t ns []) :
    readAll t = ns := by
  rw [readAll, h.groupOnto rfl, Lexeme.readAll_nil, Node.groupOnto, Frame.closeAll, List.append_nil,
    List.reverse_reverse]

end Node

end CustomProperties.Syntax

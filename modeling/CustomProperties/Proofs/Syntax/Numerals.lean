import CustomProperties.Proofs.Syntax.Lookahead
import CustomProperties.Proofs.Text.Letters
import CustomProperties.Proofs.Text.Strip
import Mathlib.Algebra.Group.Nat.Defs
import Mathlib.Data.List.Induction

/-! # Numerals in front of other texts

What is read as a number does not depend on the text behind it, as long as no digit, fraction or
exponent starts there. A range is written with as few digits as possible and read back from them.
-/

namespace CustomProperties.Syntax

/-! ### Numbers -/

def startsExponent (t : Text) : Bool := !(readExponent t).1.isEmpty

theorem readExponent_of_startsExponent {t : Text} (h : startsExponent t = false) :
    readExponent t = ([], t) := by
  have hn : (readExponent t).1 = [] := by simpa [startsExponent] using h
  have ha := readExponent_append t
  rw [hn, List.nil_append] at ha
  exact Prod.ext hn ha

theorem startsExponent_cons {c : Char} (h : c ≠ 'e' ∧ c ≠ 'E') (t : Text) :
    startsExponent (c :: t) = false := by
  rw [startsExponent, readExponent, if_neg (by simp [h])]
  rfl

theorem takeWhile_append_of_all {p : Char → Bool} {ds x : Text} (h : ∀ d ∈ ds, p d = true)
    (hx : x.head?.any p = false) :
    (ds ++ x).takeWhile p = ds ∧ (ds ++ x).dropWhile p = x := by
  rw [List.takeWhile_append_of_pos h, List.dropWhile_append_of_pos h,
    takeWhile_eq_nil_iff_head?.mpr hx, dropWhile_eq_self_of_head? hx]
  simp

theorem readSign_append_of {s y x : Text} {d : Char} (h : readSign (s ++ d :: y) = (s, d :: y)) :
    readSign (s ++ d :: x) = (s, d :: x) := by
  cases s with
  | nil =>
    rw [List.nil_append, readSign] at h ⊢
    split at h
    next => simp at h
    next hd => rw [if_neg hd]
  | cons c s =>
    rw [List.cons_append, readSign] at h ⊢
    split at h
    next hc =>
      obtain rfl : s = [] := by simpa using h
      rw [if_pos hc]
      rfl
    next => simp at h

theorem head_of_readExponent {c : Char} {e t : Text} (h : (readExponent t).1 = c :: e) :
    c = 'e' ∨ c = 'E' := by
  cases t with
  | nil => contradiction
  | cons d t =>
    rw [readExponent] at h
    split at h
    next hd =>
      obtain rfl : d = c := List.head_eq_of_cons_eq h
      exact hd.1
    next => contradiction

theorem readExponent_append_of {e y x : Text} (h : readExponent (e ++ y) = (e, y))
    (hx : x.head?.any Char.isDigit = false)
    (he : startsExponent x = true → startsExponent y = true) :
    readExponent (e ++ x) = (e, x) := by
  cases e with
  | nil =>
    have hy : startsExponent y = false := by
      rw [List.nil_append] at h
      simp [startsExponent, h]
    exact readExponent_of_startsExponent (eq_false_of_ne_true fun hs => by simp [he hs] at hy)
  | cons c e =>
    rw [List.cons_append, readExponent] at h ⊢
    split at h
    next hc =>
      -- a sign and digits that are not empty follow the mark of the exponent
      obtain ⟨hm, hn⟩ := hc
      have ha := readSign_append (e ++ y)
      generalize hs : readSign (e ++ y) = sr at h hn ha
      obtain ⟨s, r⟩ := sr
      dsimp only at h hn ha
      generalize hd : r.takeWhile Char.isDigit = ds at h hn
      have hall : ∀ d ∈ ds, d.isDigit = true :=
        hd ▸ List.all_eq_true.mp List.all_takeWhile
      obtain ⟨⟨-, rfl⟩, rfl⟩ : (c = c ∧ s ++ ds = e) ∧ r.dropWhile Char.isDigit = y := by
        simpa using h
      have hr : r = ds ++ r.dropWhile Char.isDigit := by
        rw [← hd, List.takeWhile_append_dropWhile]
      obtain ⟨d, ds, rfl⟩ := List.exists_cons_of_ne_nil hn
      have hsx : readSign (s ++ d :: ds ++ x) = (s, d :: ds ++ x) := by
        rw [List.append_assoc]
        rw [List.append_assoc, ← hr] at hs
        rw [hr] at hs
        exact readSign_append_of hs
      obtain ⟨ht, hdw⟩ := takeWhile_append_of_all hall hx
      rw [hsx]
      dsimp only
      rw [ht, hdw, if_pos ⟨hm, hn⟩]
    next => simp at h

theorem readMantissa?_append_of {m y x : Text} (h : readMantissa? (m ++ y) = some (m, y))
    (hx : x.head?.any Char.isDigit = false)
    (hm : startsMantissa x = true → startsMantissa y = true) :
    readMantissa? (m ++ x) = some (m, x) := by
  unfold readMantissa? at h
  dsimp only at h
  generalize hw : (m ++ y).takeWhile Char.isDigit = whole at h
  generalize hr : (m ++ y).dropWhile Char.isDigit = rest at h
  have hall : ∀ d ∈ whole, d.isDigit = true := hw ▸ List.all_eq_true.mp List.all_takeWhile
  split at h
  next hp =>
    generalize hf : (rest.drop 1).takeWhile Char.isDigit = fraction at h hp
    have hfall : ∀ d ∈ fraction, d.isDigit = true := hf ▸ List.all_eq_true.mp List.all_takeWhile
    obtain ⟨rfl, -⟩ : whole ++ '.' :: fraction = m ∧ _ := by simpa using h
    obtain ⟨ht, hd⟩ := takeWhile_append_of_all (x := '.' :: (fraction ++ x)) hall rfl
    obtain ⟨hft, hfd⟩ := takeWhile_append_of_all hfall hx
    unfold readMantissa?
    dsimp only
    rw [List.append_assoc, List.cons_append, ht, hd, List.drop_one, List.tail_cons, hft, hfd]
    exact if_pos ⟨rfl, hp.2⟩
  next hp =>
    split at h
    next => contradiction
    next hn =>
      obtain ⟨rfl, rfl⟩ : whole = m ∧ rest = y := by simpa using h
      obtain ⟨ht, hd⟩ := takeWhile_append_of_all hall hx
      have hrest : rest.head?.any Char.isDigit = false :=
        hr ▸ Text.head?_dropWhile Char.isDigit (whole ++ rest)
      -- a point with digits behind it would have been read before
      have hp' : ¬(x.head? = some '.' ∧ (x.drop 1).takeWhile Char.isDigit ≠ []) := fun h => by
        have hy := hm ((startsMantissa_iff hx).mpr h)
        exact hp ((startsMantissa_iff hrest).mp hy)
      unfold readMantissa?
      dsimp only
      rw [ht, hd, if_neg hp', if_neg hn]

/-- A number is read in front of another text too, if no digit, fraction or exponent starts there
that did not start in the first one. -/
theorem readNumber?_append_of {digits y x : Text}
    (h : readNumber? (digits ++ y) = some (digits, y)) (hx : x.head?.any Char.isDigit = false)
    (hm : startsMantissa x = true → startsMantissa y = true)
    (he : startsExponent x = true → startsExponent y = true) :
    readNumber? (digits ++ x) = some (digits, x) := by
  obtain ⟨⟨m, r⟩, hmr, hd⟩ := Option.map_eq_some_iff.mp h
  generalize hs : readSign (digits ++ y) = sr at hmr hd
  obtain ⟨s, t⟩ := sr
  obtain ⟨rfl, hr⟩ : s ++ (m ++ (readExponent r).1) = digits ∧ (readExponent r).2 = y := by
    simpa using hd
  generalize hexp : (readExponent r).1 = e at *
  have hre : readExponent r = (e, y) := Prod.ext hexp hr
  obtain ⟨ht, hmn⟩ := readMantissa?_append hmr
  obtain rfl : e ++ y = r := by
    have := readExponent_append r
    rwa [hre] at this
  dsimp only at ht hmr
  subst ht
  have hsx : readSign (s ++ (m ++ (e ++ x))) = (s, m ++ (e ++ x)) := by
    obtain ⟨d, m, rfl⟩ := List.exists_cons_of_ne_nil hmn
    refine readSign_append_of (y := m ++ (e ++ y)) ?_
    simpa using hs
  have hmx : readMantissa? (m ++ (e ++ x)) = some (m, e ++ x) := by
    cases e with
    | nil => exact readMantissa?_append_of hmr hx hm
    | cons c e =>
      have hc : c.isDigit = false ∧ startsMantissa (c :: (e ++ x)) = false := by
        rcases head_of_readExponent hexp with rfl | rfl <;> exact ⟨rfl, rfl⟩
      exact readMantissa?_append_of hmr hc.1 (fun h => absurd h (ne_true_of_eq_false hc.2))
  unfold readNumber?
  rw [List.append_assoc, List.append_assoc, hsx, hmx, Option.map_some]
  dsimp only
  rw [readExponent_append_of hre hx he]

/-! ### Ranges -/

theorem hexDigits_of_lt {n : Nat} (h : n < 16) : hexDigits n = [n.digitChar.toUpper] := by
  rw [hexDigits, Nat.toDigits_of_lt_base h]
  rfl

theorem hexDigits_of_le {n : Nat} (h : 16 ≤ n) :
    hexDigits n = hexDigits (n / 16) ++ [(n % 16).digitChar.toUpper] := by
  rw [hexDigits, Nat.toDigits_of_base_le (by decide) h, List.map_append]
  rfl

theorem hexDigits_ne_nil (n : Nat) : hexDigits n ≠ [] := by
  simp [hexDigits, Nat.toDigits_ne_nil]

theorem length_hexDigits_le {n : Nat} (h : n < 16 ^ 6) : (hexDigits n).length ≤ 6 := by
  rw [hexDigits, List.length_map]
  exact (Nat.length_toDigits_le_iff (by decide) (by decide)).mpr h

theorem ofHexDigits_concat (ds : Text) (d : Char) :
    ofHexDigits (ds ++ [d]) = 16 * ofHexDigits ds + hexValue d := by
  rw [ofHexDigits, List.foldl_append]
  rfl

theorem digitChar_toUpper {n : Nat} (h : n < 16) :
    isHexDigit n.digitChar.toUpper = true ∧ hexValue n.digitChar.toUpper = n := by
  have hall : ∀ n < 16, isHexDigit n.digitChar.toUpper = true ∧ hexValue n.digitChar.toUpper = n := by
    decide +kernel
  exact hall n h

theorem hexDigits_spec (n : Nat) :
    (∀ d ∈ hexDigits n, isHexDigit d = true) ∧ ofHexDigits (hexDigits n) = n := by
  induction n using Nat.strongRecOn with
  | ind n ih =>
    by_cases h : n < 16
    · obtain ⟨hd, hv⟩ := digitChar_toUpper h
      rw [hexDigits_of_lt h]
      refine ⟨by simpa using hd, ?_⟩
      have hc := ofHexDigits_concat [] n.digitChar.toUpper
      rw [List.nil_append] at hc
      rw [hc, hv]
      exact Nat.zero_add n
    · obtain ⟨hd, hv⟩ := digitChar_toUpper (Nat.mod_lt n (by decide : 16 > 0))
      obtain ⟨hds, hvs⟩ := ih (n / 16) (by omega)
      rw [hexDigits_of_le (by omega), ofHexDigits_concat, hvs, hv]
      refine ⟨fun d hm => ?_, by omega⟩
      rcases List.mem_append.mp hm with hm | hm
      · exact hds d hm
      · rw [List.mem_singleton.mp hm]
        exact hd

theorem hexValue_lt {c : Char} (h : isHexDigit c = true) : hexValue c < 16 := by
  have hv : '9'.toNat = 57 ∧ '0'.toNat = 48 ∧ 'a'.toNat = 97 ∧ 'f'.toNat = 102 ∧ 'A'.toNat = 65 ∧
    'F'.toNat = 70 := by decide
  simp only [isHexDigit, Char.isDigit, Bool.or_eq_true, Bool.and_eq_true, decide_eq_true_eq,
    Char.le_def, UInt32.le_iff_toNat_le, ge_iff_le] at h
  simp only [hexValue, Char.isDigit, Bool.and_eq_true, decide_eq_true_eq, Char.le_def,
    UInt32.le_iff_toNat_le, ge_iff_le]
  simp only [Char.toNat] at hv ⊢
  split
  next => omega
  next =>
    split <;> omega

theorem ofHexDigits_lt {ds : Text} (h : ∀ d ∈ ds, isHexDigit d = true) (hl : ds.length ≤ 6) :
    ofHexDigits ds < 16 ^ 6 := by
  suffices hs : ofHexDigits ds < 16 ^ ds.length from
    Nat.lt_of_lt_of_le hs (Nat.pow_le_pow_right (by decide) hl)
  clear hl
  induction ds using List.reverseRecOn with
  | nil => decide
  | append_singleton ds d ih =>
    rw [List.forall_mem_append] at h
    have hv := hexValue_lt (h.2 d List.mem_cons_self)
    have hds := ih h.1
    rw [ofHexDigits_concat, List.length_append, List.length_singleton, Nat.pow_succ]
    omega

/-- Nothing that could continue a range starts here. -/
structure EndsRange (t : Text) : Prop where
  head : t.head?.any (fun c => isHexDigit c || c == '?') = false
  hyphen : t.head? = some '-' → t.tail.head?.any isHexDigit = false

structure CodeRange.Bounded (r : CodeRange) : Prop where
  first : r.first < 16 ^ 6
  last : r.last < 16 ^ 6

theorem readRangeEnd_of_endsRange {t : Text} (h : EndsRange t) (first : Nat) :
    readRangeEnd first t = (⟨first, first⟩, t) := by
  unfold readRangeEnd
  split
  next rest =>
    have hr : (rest.take 6).takeWhile isHexDigit = [] := by
      rw [takeWhile_eq_nil_iff_head?, List.head?_take, if_neg (by decide)]
      exact h.hyphen rfl
    rw [hr]
  next => rfl

theorem take_takeWhile_hexDigits {n : Nat} (hn : n < 16 ^ 6) {t : Text}
    (h : t.head?.any isHexDigit = false) :
    ((hexDigits n ++ t).take 6).takeWhile isHexDigit = hexDigits n := by
  rw [List.take_append, List.take_of_length_le (length_hexDigits_le hn)]
  refine (takeWhile_append_of_all (hexDigits_spec n).1 ?_).1
  rw [List.head?_take]
  split
  next => rfl
  next => exact h

theorem readRange_hexDigits {n : Nat} (hn : n < 16 ^ 6) {t : Text}
    (h : t.head?.any (fun c => isHexDigit c || c == '?') = false) :
    readRange (hexDigits n ++ t) = readRangeEnd n t := by
  have hx : t.head?.any isHexDigit = false := by
    cases t <;> simp_all
  have hq : ((hexDigits n ++ t).take 6).drop (hexDigits n).length =
      t.take (6 - (hexDigits n).length) := by
    rw [List.take_append, List.take_of_length_le (length_hexDigits_le hn), List.drop_left]
  have hm : (t.take (6 - (hexDigits n).length)).takeWhile (· == '?') = [] := by
    rw [takeWhile_eq_nil_iff_head?, List.head?_take]
    split
    next => rfl
    next => cases t <;> simp_all
  unfold readRange
  dsimp only
  rw [take_takeWhile_hexDigits hn hx, hq, hm, List.length_nil, Nat.add_zero, List.drop_left,
    (hexDigits_spec n).2]
  exact if_pos rfl

theorem readRangeEnd_hexDigits (first : Nat) {last : Nat} (hl : last < 16 ^ 6) {t : Text}
    (h : t.head?.any (fun c => isHexDigit c || c == '?') = false) :
    readRangeEnd first ('-' :: (hexDigits last ++ t)) = (⟨first, last⟩, t) := by
  have hx : t.head?.any isHexDigit = false := by
    cases t <;> simp_all
  unfold readRangeEnd
  split
  next rest he =>
    cases he
    rw [take_takeWhile_hexDigits hl hx]
    split
    next hn => exact absurd hn (hexDigits_ne_nil last)
    next => rw [(hexDigits_spec last).2, List.drop_left]
  next hne => exact absurd rfl (hne _)

theorem readRange?_writeRange {r : CodeRange} (hr : r.Bounded) {t : Text} (h : EndsRange t) :
    readRange? (Token.writeRange r ++ t) = some (r, t) := by
  have hread {u : Text} : readRange? ("U+" ++ hexDigits r.first ++ u) =
      some (readRange (hexDigits r.first ++ u)) := by
    obtain ⟨d, ds, hd⟩ := List.exists_cons_of_ne_nil (hexDigits_ne_nil r.first)
    have hx := (hexDigits_spec r.first).1 d (hd ▸ List.mem_cons_self)
    rw [hd]
    exact if_pos ⟨.inl rfl, .inl hx⟩
  unfold Token.writeRange
  split
  next he =>
    rw [hread, readRange_hexDigits hr.first h.head, readRangeEnd_of_endsRange h]
    obtain ⟨first, last⟩ := r
    dsimp only at he
    rw [he]
  next =>
    have hx := (readRangeEnd_hexDigits r.first hr.last h.head)
    rw [List.append_assoc, List.append_assoc, hread, readRange_hexDigits hr.first rfl]
    exact congrArg some hx

theorem isHexDigit_of_mem_take {t : Text} {d : Char}
    (h : d ∈ (t.take 6).takeWhile isHexDigit) : isHexDigit d = true :=
  List.all_eq_true.mp List.all_takeWhile d h

theorem length_take_takeWhile (t : Text) : ((t.take 6).takeWhile isHexDigit).length ≤ 6 :=
  Nat.le_trans (List.takeWhile_sublist _).length_le (List.length_take_le 6 t)

theorem bounded_readRangeEnd {first : Nat} (h : first < 16 ^ 6) (t : Text) :
    (readRangeEnd first t).1.Bounded := by
  unfold readRangeEnd
  split
  next rest =>
    split
    next => exact ⟨h, h⟩
    next =>
      exact ⟨h, ofHexDigits_lt (fun d hd => isHexDigit_of_mem_take hd) (length_take_takeWhile rest)⟩
  next => exact ⟨h, h⟩

theorem bounded_of_readRange? {t rest : Text} {r : CodeRange}
    (h : readRange? t = some (r, rest)) : r.Bounded := by
  unfold readRange? at h
  split at h
  next c d t =>
    split at h
    next =>
      have hb : (readRange (d :: t)).1.Bounded := by
        have hstem : ∀ e ∈ ((d :: t).take 6).takeWhile isHexDigit, isHexDigit e = true :=
          fun e he => isHexDigit_of_mem_take he
        unfold readRange
        dsimp only
        generalize hs : ((d :: t).take 6).takeWhile isHexDigit = stem at hstem
        have hl : stem.length ≤ 6 := hs ▸ length_take_takeWhile (d :: t)
        split
        next => exact bounded_readRangeEnd (ofHexDigits_lt hstem hl) _
        next =>
          generalize hm : (((d :: t).take 6).drop stem.length).takeWhile (· == '?') = marks
          have hlm : stem.length + marks.length ≤ 6 := by
            have h₁ : marks.length ≤ (((d :: t).take 6).drop stem.length).length :=
              hm ▸ (List.takeWhile_sublist _).length_le
            have h₂ : ((d :: t).take 6).length ≤ 6 := List.length_take_le 6 _
            rw [List.length_drop] at h₁
            omega
          have hx {c : Char} (hc : isHexDigit c = true) :
              ofHexDigits (stem ++ marks.map fun _ => c) < 16 ^ 6 := by
            refine ofHexDigits_lt (fun e he => ?_) (by simpa using hlm)
            rcases List.mem_append.mp he with he | he
            · exact hstem e he
            · obtain ⟨-, -, rfl⟩ := List.mem_map.mp he
              exact hc
          exact ⟨hx rfl, hx rfl⟩
      rwa [Option.some.inj h] at hb
    next => contradiction
  next => contradiction

namespace EndsRange

variable {v w : Text}

theorem of_stopped (h : Stopped w) : EndsRange w := by
  cases w with
  | nil => exact ⟨rfl, nofun⟩
  | cons c w =>
    have hall : ∀ c ∈ stops, (isHexDigit c || c == '?') = false ∧ c ≠ '-' := by decide
    obtain ⟨hc, hh⟩ := hall c (h c rfl)
    exact ⟨hc, fun he => absurd (Option.some.inj he) hh⟩

theorem of_agree (h : EndsRange v) (ha : Agree v w) : EndsRange w := by
  refine ⟨ha.any_head? (by decide) (by decide) h.head, fun hw => ?_⟩
  have hv := h.hyphen (ha.head? (by decide) (by decide) hw)
  cases ha with
  | stop hs => exact absurd (hs '-' hw) (by decide)
  | same _ ha => exact ha.any_head? (by decide) (by decide) hv
  | shut hc =>
    obtain rfl := Option.some.inj hw
    contradiction
  | letter _ hd =>
    obtain rfl := Option.some.inj hw
    simp at hd
  | escape =>
    have hb := Option.some.inj hw
    contradiction

end EndsRange

end CustomProperties.Syntax

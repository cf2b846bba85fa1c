import CustomProperties.Proofs.Chunks.Undefined
import CustomProperties.Proofs.Resolution.Mentions
import CustomProperties.Proofs.Split.Commas
import CustomProperties.Proofs.Transform.Importance
import CustomProperties.Proofs.Variables.LastWrite
import CustomProperties.Report

/-! # Reported references

A report finds references by the characters of their names, a resolution by the parentheses around
them. The two agree on a sheet exactly if every custom name that it mentions is made of name
characters. Then a report lists whatever a run without overrides would look up in vain.
-/

namespace CustomProperties

namespace Text

variable {t u : Text}

theorem mem_insertSorted {us : List Text} : u ∈ insertSorted t us ↔ u = t ∨ u ∈ us := by
  induction us with
  | nil => simp [insertSorted]
  | cons v us ih =>
    rw [insertSorted]
    split
    next => exact List.mem_cons
    next =>
      split
      next he => simp [he]
      next => rw [List.mem_cons, ih, List.mem_cons, or_left_comm]

theorem mem_sortedSet {ts : List Text} : u ∈ sortedSet ts ↔ u ∈ ts := by
  have hf : ∀ us, u ∈ ts.foldl (fun us t => insertSorted t us) us ↔ u ∈ ts ∨ u ∈ us := by
    induction ts with
    | nil => simp
    | cons t ts ih =>
      intro us
      rw [List.foldl_cons, ih, mem_insertSorted, List.mem_cons, or_left_comm, or_assoc]
  rw [sortedSet, hf, or_iff_left List.not_mem_nil]

end Text

namespace Report

open Reference (Mentions opening ofBody?)

def IsCustom (name : Text) : Prop := ("--" : Text) <+: name

instance : DecidablePred IsCustom := fun name => inferInstanceAs (Decidable (_ <+: name))

/-- A custom name of name characters, which does not end behind the hyphens that it starts with. -/
def IsPlainName (name : Text) : Prop :=
  IsCustom name ∧ 2 < name.length ∧ ∀ c ∈ name, isNameChar c = true

instance : DecidablePred IsPlainName := fun _ => inferInstanceAs (Decidable (_ ∧ _ ∧ _))

variable {t m n after rest : Text} {r : Reference} {c : Char}

theorem isNameChar_eq_false_of_isBlank (h : Text.isBlank c = true) : isNameChar c = false := by
  have hh : c ≠ '-' := by
    rintro rfl
    contradiction
  rw [isNameChar, Text.isWord_of_isBlank h, beq_eq_false_iff_ne.mpr hh, Bool.or_self]

theorem isNameChar_of_isAlpha (h : c.isAlpha = true) : isNameChar c = true := by
  have hn : c.toNat < 0x80 := by
    have ha := Text.isAlpha_iff.mp h
    omega
  simp [isNameChar, Text.isWord, hn, Char.isAlphanum, h]

theorem isNameChar_eq_false_of_mem_delimiters (h : c ∈ Split.delimiters) :
    isNameChar c = false := by
  have hd : ∀ c ∈ Split.delimiters, isNameChar c = false := by decide
  exact hd c h

namespace IsPlainName

theorem eq_append (h : IsPlainName n) :
    ∃ w, n = "--" ++ w ∧ w ≠ [] ∧ ∀ c ∈ w, isNameChar c = true := by
  obtain ⟨⟨w, rfl⟩, hl, hc⟩ := h
  refine ⟨w, rfl, ?_, fun c hm => hc c (List.mem_append_right _ hm)⟩
  rintro rfl
  contradiction

theorem of_append {w : Text} (hw : w ≠ []) (hc : ∀ c ∈ w, isNameChar c = true) :
    IsPlainName ("--" ++ w) := by
  refine ⟨⟨w, rfl⟩, ?_, List.forall_mem_append.mpr ⟨by decide, hc⟩⟩
  have := List.length_pos_iff.mpr hw
  have ho : ("--" : Text).length = 2 := rfl
  rw [List.length_append]
  omega

theorem ne_nil (h : IsPlainName n) : n ≠ [] := List.length_pos_iff.mp (Nat.zero_lt_of_lt h.2.1)

theorem isBlank (h : IsPlainName n) : ∀ c ∈ n, Text.isBlank c = false := by
  intro c hc
  refine Bool.eq_false_iff.mpr fun hb => ?_
  have := isNameChar_eq_false_of_isBlank hb
  rw [h.2.2 c hc] at this
  contradiction

theorem not_mem_delimiters (h : IsPlainName n) : ∀ c ∈ n, c ∉ Split.delimiters := by
  intro c hc hd
  have := isNameChar_eq_false_of_mem_delimiters hd
  rw [h.2.2 c hc] at this
  contradiction

end IsPlainName

theorem reference?_eq_some_iff : reference? t = some (n, rest) ↔
    ∃ lead, t = opening ++ (lead ++ (n ++ rest)) ∧ (∀ c ∈ lead, Text.isBlank c = true) ∧
      IsPlainName n ∧ rest.head?.any isNameChar = false := by
  constructor
  · intro h
    unfold reference? at h
    split at h
    next => contradiction
    next body hb =>
      split at h
      next => contradiction
      next w hw =>
        split at h
        next => contradiction
        next hne =>
          cases h
          have hlead : ∀ c ∈ body.takeWhile Text.isBlank, Text.isBlank c = true :=
            List.all_eq_true.mp List.all_takeWhile
          have hname : ∀ c ∈ w.takeWhile isNameChar, isNameChar c = true :=
            List.all_eq_true.mp List.all_takeWhile
          have he : body = body.takeWhile Text.isBlank ++ Text.stripLeft body :=
            List.takeWhile_append_dropWhile.symm
          refine ⟨_, ?_, hlead, .of_append hne hname, ?_⟩
          · rw [Text.dropPrefix?_eq_some.mp hb, List.append_assoc, List.takeWhile_append_dropWhile,
              ← Text.dropPrefix?_eq_some.mp hw, ← he]
          · exact Text.head?_dropWhile isNameChar w
  · rintro ⟨lead, rfl, hlead, hn, hr⟩
    obtain ⟨w, rfl, hw, hc⟩ := hn.eq_append
    have hs : Text.stripLeft (lead ++ ("--" ++ w ++ rest)) = "--" ++ (w ++ rest) := by
      rw [Text.stripLeft, List.dropWhile_append_of_pos hlead, List.append_assoc]
      rfl
    obtain ⟨ht, hd⟩ := Syntax.takeWhile_append_of_all hc hr
    simp only [reference?, Text.dropPrefix?_append, hs, ht, hd, if_neg hw]

theorem exists_of_ofBody? (h : ofBody? (Parens.group after).body = some r) :
    ∃ lead trail tail, after = lead ++ (r.name ++ (trail ++ tail)) ∧
      (∀ c ∈ lead ++ trail, Text.isBlank c = true) ∧ ∀ c ∈ tail.head?, c = ',' ∨ c = ')' := by
  obtain ⟨part, parts, hs, hn⟩ : ∃ part parts,
      Split.split [','] (some 1) (Parens.group after).body = part :: parts ∧
        r.name = Text.strip part := by
    unfold ofBody? at h
    split at h
    next => contradiction
    next =>
      split at h
      next => contradiction
      next part hs =>
        cases h
        exact ⟨part, _, hs, rfl⟩
      next part _ _ hs =>
        cases h
        exact ⟨part, _, hs, rfl⟩
  obtain ⟨behind, hb, hh⟩ := Split.exists_of_splitFrom hs
  obtain ⟨lead, trail, hp, hblank⟩ := Text.exists_of_strip part
  have ha : after = (Parens.group after).tail ++ (Parens.group after).rest :=
    (Parens.tail_append_rest 0 after).symm
  refine ⟨lead, trail, behind ++ ((if (Parens.group after).closed then [')'] else []) ++
    (Parens.group after).rest), ?_, hblank, ?_⟩
  · rw [hn]
    conv_lhs => rw [ha, Parens.Group.tail, hb, hp]
    simp only [List.append_assoc]
  · cases behind with
    | cons c behind =>
      intro d hd
      obtain rfl := Option.some.inj hd
      exact .inl (List.singleton_inj.mp (hh c rfl))
    | nil =>
      cases hc : (Parens.group after).closed with
      | true =>
        intro d hd
        exact .inr (Option.some.inj hd).symm
      | false =>
        rw [Parens.group, Parens.rest_of_not_closed hc]
        exact fun d hd => absurd hd (Option.not_mem_none d)

theorem reference?_of_ofBody? (h : ofBody? (Parens.group after).body = some r)
    (hn : IsPlainName r.name) :
    ∃ rest, reference? (opening ++ after) = some (r.name, rest) ∧
      ∀ c ∈ rest.head?, isNameChar c = false ∧ c ≠ '(' := by
  obtain ⟨lead, trail, tail, ha, hb, ht⟩ := exists_of_ofBody? h
  obtain ⟨hlead, htrail⟩ := List.forall_mem_append.mp hb
  have hh : ∀ c ∈ (trail ++ tail).head?, isNameChar c = false ∧ c ≠ '(' := by
    cases trail with
    | nil =>
      intro c hc
      rcases ht c hc with rfl | rfl <;> decide
    | cons d trail =>
      rintro c hc
      obtain rfl := Option.some.inj hc
      have hd := htrail d List.mem_cons_self
      refine ⟨isNameChar_eq_false_of_isBlank hd, ?_⟩
      rintro rfl
      contradiction
  refine ⟨trail ++ tail, reference?_eq_some_iff.mpr ⟨lead, by rw [ha], hlead, hn, ?_⟩, hh⟩
  cases hr : (trail ++ tail).head? with
  | none => rfl
  | some c => exact (hh c hr).1

theorem exists_ofBody?_of_reference? (h : reference? (opening ++ after) = some (m, rest)) :
    ∃ r, ofBody? (Parens.group after).body = some r ∧ m <+: r.name := by
  obtain ⟨lead, he, hlead, hm, -⟩ := reference?_eq_some_iff.mp h
  obtain rfl := List.append_cancel_left he
  have hfirm : ∀ c ∈ Split.delimiters, Text.isBlank c = false := by decide
  have hd : ∀ c ∈ lead ++ m, c ∉ Split.delimiters := by
    refine List.forall_mem_append.mpr ⟨fun c hc hd => ?_, hm.not_mem_delimiters⟩
    have hb := hlead c hc
    rw [hfirm c hd] at hb
    contradiction
  have hplain : Parens.Plain (lead ++ m) :=
    ⟨fun hp => hd _ hp (by decide), fun hp => hd _ hp (by decide)⟩
  have hbody : (Parens.group (lead ++ (m ++ rest))).body =
      lead ++ m ++ (Parens.group rest).body := by
    rw [← List.append_assoc, Parens.group, hplain.close_append]
    rfl
  have hnb : ¬(lead ++ m ++ (Parens.group rest).body).all Text.isBlank = true := by
    obtain ⟨c, hc⟩ := List.exists_mem_of_ne_nil m hm.ne_nil
    intro hall
    have := List.all_eq_true.mp hall c (by simp [hc])
    rw [hm.isBlank c hc] at this
    contradiction
  obtain ⟨part, parts, hp⟩ := List.exists_cons_of_ne_nil
    (Split.splitFrom_ne_nil [','] Split.start (some 1) (Parens.group rest).body)
  have hsplit : Split.split [','] (some 1) (lead ++ m ++ (Parens.group rest).body) =
      (lead ++ m ++ part) :: parts := by
    rw [Split.split, Split.splitFrom_append_of_neutral
      (fun c hc => Split.neutral_of_not_mem (hd c hc)), hp, List.modifyHead_cons]
  have hname : m <+: Text.strip (lead ++ m ++ part) := by
    rw [List.append_assoc, Text.strip_blank_append hlead]
    exact Text.prefix_strip_append hm.ne_nil hm.isBlank part
  rw [hbody, ofBody?, if_neg hnb, hsplit]
  cases parts with
  | nil => exact ⟨_, rfl, hname⟩
  | cons _ _ => exact ⟨_, rfl, hname⟩

/-- Between a name and what cannot continue it no reference starts. -/
theorem mentions_of_append {x : Text} (h : Mentions (x ++ rest) n) (hx : '(' ∉ x)
    (hr : ∀ c ∈ rest.head?, isNameChar c = false ∧ c ≠ '(') : Mentions rest n := by
  obtain ⟨before, after, r, he, hb, hn⟩ := h
  rcases List.append_eq_append_iff.mp he with ⟨u, rfl, hu⟩ | ⟨u, rfl, hu⟩
  · exact ⟨u, after, r, hu, hb, hn⟩
  have hu' : '(' ∉ u := fun hm => hx (List.mem_append_right _ hm)
  rcases List.append_eq_append_iff.mp hu with ⟨w, rfl, -⟩ | ⟨w, ho, rfl⟩
  · exact absurd (List.mem_append_left w (by decide)) hu'
  by_cases hnil : u = []
  · obtain rfl : w = opening := by rw [ho, hnil, List.nil_append]
    exact ⟨[], after, r, rfl, hb, hn⟩
  by_cases hw : w = []
  · rw [hw, List.append_nil] at ho
    exact absurd (ho ▸ by decide) hu'
  -- The opening would be cut by the end of the name, which only name characters continue.
  obtain ⟨-, c, hc, hs⟩ := Reference.letters_of_opening_eq hnil hw ho
  obtain ⟨hname, hp⟩ := hr c (by rw [List.head?_append]; simp_all)
  rcases hs with hs | hs
  · rw [isNameChar_of_isAlpha hs] at hname
    contradiction
  · exact absurd hs hp

theorem isPlainName_of_mem_namesIn (h : n ∈ namesIn t) : IsPlainName n := by
  fun_induction namesIn t with
  | case1 t name rest hr ih =>
    rcases List.mem_cons.mp h with rfl | h
    · obtain ⟨-, -, -, hn, -⟩ := reference?_eq_some_iff.mp hr
      exact hn
    · exact ih h
  | case2 => contradiction
  | case3 _ _ _ ih => exact ih h

theorem mem_namesIn (h : ∀ n, Mentions t n → IsCustom n → IsPlainName n) :
    n ∈ namesIn t ↔ Mentions t n ∧ IsCustom n := by
  fun_induction namesIn t with
  | case1 t m rest hr ih =>
    obtain ⟨lead, rfl, hlead, hm, -⟩ := reference?_eq_some_iff.mp hr
    obtain ⟨r, hb, hp⟩ := exists_ofBody?_of_reference? hr
    have hment : Mentions (opening ++ (lead ++ (m ++ rest))) r.name := ⟨[], _, r, rfl, hb, rfl⟩
    obtain ⟨rest', hr', hhead⟩ := reference?_of_ofBody? hb (h _ hment (hm.1.trans hp))
    rw [hr, Option.some.injEq, Prod.mk.injEq] at hr'
    obtain ⟨rfl, rfl⟩ := hr'
    have hskip : Mentions (opening ++ (lead ++ (r.name ++ rest))) n ↔
        n = r.name ∨ Mentions rest n := by
      have hx : '(' ∉ lead ++ r.name := by
        refine fun hp => (List.mem_append.mp hp).elim (fun hp => ?_) fun hp => ?_
        · exact absurd (hlead _ hp) (by decide)
        · exact absurd (hm.2.2 _ hp) (by decide)
      have hs : rest <:+ lead ++ (r.name ++ rest) := ⟨lead ++ r.name, by simp⟩
      rw [Reference.mentions_opening hb, eq_comm, ← List.append_assoc]
      exact or_congr_right ⟨fun hn => mentions_of_append hn hx hhead,
        fun hn => hn.of_suffix (by simpa using hs)⟩
    have hrest : rest <:+ opening ++ (lead ++ (r.name ++ rest)) :=
      ⟨opening ++ lead ++ r.name, by simp⟩
    rw [List.mem_cons, ih fun n hn => h n (hn.of_suffix hrest), hskip, or_and_right]
    refine or_congr_left ⟨fun he => ⟨he, he ▸ hm.1⟩, And.left⟩
  | case2 => simp [Mentions, opening]
  | case3 c t hr ih =>
    have hs : t <:+ c :: t := List.suffix_cons c t
    rw [ih fun n hn => h n (hn.of_suffix hs)]
    refine and_congr_left fun hc => ⟨fun hn => hn.of_suffix hs, fun hn => ?_⟩
    rcases Reference.mentions_cons.mp hn with ⟨after, r, he, hb, rfl⟩ | hn
    · obtain ⟨_, hr', -⟩ := reference?_of_ofBody? hb (h _ hn hc)
      rw [← he, hr] at hr'
      contradiction
    · exact hn

end Report

namespace Sheet

variable {s : Sheet} {o : Options} {name : Text}

def Mentions (s : Sheet) (name : Text) : Prop :=
  ∃ d ∈ s.declarations, Reference.Mentions d.value name

theorem definitions_subset (s : Sheet) : s.definitions ⊆ s.declarations := by
  rw [definitions, declarations_eq]
  refine fun d hd => ?_
  obtain ⟨r, hr, hd⟩ := List.mem_flatMap.mp hd
  refine List.mem_flatMap.mpr ⟨r, hr, ?_⟩
  cases r with
  | style selectors body =>
    rw [Rule.declarations_style]
    unfold Rule.definitions at hd
    split at hd
    next => exact (List.mem_filter.mp hd).1
    next => contradiction
  | _ => contradiction

theorem mentions_of_mem_warnings (ho : o.overrides.isEmpty = true)
    (h : .undefined name ∈ (s.transform o).warnings) : s.Mentions name := by
  obtain ⟨site, hm, hw⟩ := List.mem_flatMap.mp h
  rw [sites_transform] at hm
  obtain ⟨d, hd, rfl⟩ := List.mem_map.mp hm
  obtain ⟨r, he, rfl, -⟩ :=
    (Resolution.derives_resolveFrom _ [] d.value d.value).exists_evaluates hw
  rcases he.mentions with hn | ⟨n, v, hv, hn⟩
  · exact ⟨d, references_visited_subset ho s hd, hn⟩
  · rw [bindings_transform, bindings_pruned, find?_bindings, List.isEmpty_iff.mp ho] at hv
    obtain ⟨d', hd', he⟩ := List.mem_map.mp (mem_of_lastValue? hv)
    cases he
    exact ⟨d', s.definitions_subset hd', hn⟩

instance (s : Sheet) (name : Text) : Decidable (s.Mentions name) :=
  inferInstanceAs (Decidable (∃ d ∈ s.declarations, _))

end Sheet

namespace Report

variable {s : Sheet} {n : Text}

theorem exists_of_mem_references (h : n ∈ (ofSheet s).references) :
    ∃ d ∈ s.declarations, n ∈ namesIn d.value :=
  List.mem_flatMap.mp (Text.mem_sortedSet.mp h)

/-- A report lists the custom names that a sheet mentions exactly if all of them are plain. -/
theorem mem_references_iff_forall_isPlainName :
    (∀ n, n ∈ (ofSheet s).references ↔ s.Mentions n ∧ IsCustom n) ↔
      ∀ n, s.Mentions n → IsCustom n → IsPlainName n := by
  constructor
  · intro h n hm hc
    obtain ⟨_, -, hn⟩ := exists_of_mem_references ((h n).mpr ⟨hm, hc⟩)
    exact isPlainName_of_mem_namesIn hn
  · intro h n
    have hd : ∀ d ∈ s.declarations,
        (n ∈ namesIn d.value ↔ Reference.Mentions d.value n ∧ IsCustom n) :=
      fun d hd => mem_namesIn fun n hn => h n ⟨d, hd, hn⟩
    rw [ofSheet, Text.mem_sortedSet, List.mem_flatMap]
    constructor
    · rintro ⟨d, hm, hn⟩
      obtain ⟨hn, hc⟩ := (hd d hm).mp hn
      exact ⟨⟨d, hm, hn⟩, hc⟩
    · rintro ⟨⟨d, hm, hn⟩, hc⟩
      exact ⟨d, hm, (hd d hm).mpr ⟨hn, hc⟩⟩

theorem mem_undefinedNames : n ∈ (ofSheet s).undefinedNames ↔
    n ∈ (ofSheet s).references ∧ (s.collect .empty true).bindings.find? n = none := by
  simp [ofSheet, Bindings.contains]

theorem result_ofChunks {chunks : List Text} (h : Sheet.read chunks.flatten = .ok s) :
    (ofChunks chunks).result = .ok (ofSheet s) := by
  rw [ofChunks, h]

/-- Where the custom names that a sheet mentions are plain, its report lists them. Those among them
that the sheet does not define are reported as undefined, and so is each custom name that a run
without overrides warns of. -/
theorem ofChunks_agrees_with_resolution {chunks : List Text} (h : Sheet.read chunks.flatten = .ok s)
    (hp : ∀ n, s.Mentions n → IsCustom n → IsPlainName n) :
    ∃ r, (ofChunks chunks).result = .ok r ∧
      (∀ n, n ∈ r.references ↔ s.Mentions n ∧ IsCustom n) ∧
      (∀ n, n ∈ r.undefinedNames ↔
        n ∈ r.references ∧ (s.collect .empty true).bindings.find? n = none) ∧
      ∀ o n, o.overrides.isEmpty = true → IsCustom n →
        .undefined n ∈ (transform o chunks.flatten).warnings → n ∈ r.undefinedNames := by
  have href := mem_references_iff_forall_isPlainName.mpr hp
  refine ⟨ofSheet s, result_ofChunks h, href, fun _ => mem_undefinedNames, fun o n ho hc hw => ?_⟩
  rw [(transform_of_read o h).2] at hw
  refine mem_undefinedNames.mpr ⟨(href n).mpr ⟨Sheet.mentions_of_mem_warnings ho hw, hc⟩, ?_⟩
  rw [Sheet.collect_eq]
  exact Sheet.find?_bindings_eq_none_iff.mpr ⟨(Sheet.lacks_of_mem_warnings hw).1, nofun⟩

/-- A name goes on in another chunk, behind a blank and with a letter that is not ASCII. -/
theorem ofChunks_agrees_with_resolution_nested :
    let chunks : List Text :=
      [":root" ++ inBraces "--x:var(--y)" ++ "a\x7bb:calc(var(--x) + var( --", "é , var(--z) ))\x7d"]
    let s : Sheet := [.root [.declaration ⟨"--x", "var(--y)"⟩],
      .style ["a"] [.declaration ⟨"b", "calc(var(--x) + var( --é , var(--z) ))"⟩]]
    (Sheet.read chunks.flatten = .ok s ∧ ∀ n, s.Mentions n → IsCustom n → IsPlainName n) ∧
    ∃ r, (ofChunks chunks).result = .ok r ∧ r.references = ["--x", "--y", "--z", "--é"] ∧
      r.undefinedNames = ["--y", "--z", "--é"] ∧
      (∀ n, n ∈ r.references ↔ s.Mentions n ∧ IsCustom n) ∧
      ∀ o n, o.overrides.isEmpty = true → IsCustom n →
        .undefined n ∈ (transform o chunks.flatten).warnings → n ∈ r.undefinedNames := by
  intro chunks s
  have hs : Sheet.read chunks.flatten = .ok s := by decide +kernel
  have hp : ∀ n, s.Mentions n → IsCustom n → IsPlainName n := by
    have hd : ∀ d ∈ s.declarations, ∀ n ∈ Reference.mentioned d.value,
        IsCustom n → IsPlainName n := by decide +kernel
    rintro n ⟨d, hm, hn⟩
    exact hd d hm n (Reference.mem_mentioned.mpr hn)
  obtain ⟨r, hr, href, -, hw⟩ := ofChunks_agrees_with_resolution hs hp
  obtain rfl : ofSheet s = r := Except.ok.inj ((result_ofChunks hs).symm.trans hr)
  exact ⟨⟨hs, hp⟩, _, hr, by decide +kernel, by decide +kernel, href, hw⟩

/-- A name is cut short in front of a degree sign, which is no word character, so that a name which
occurs nowhere is reported as undefined. A reference without a name behind its hyphens is warned of
in a run, but not reported. -/
theorem ofChunks_cuts_name :
    let turned : Text := ":root" ++ inBraces "--45°:45deg" ++ "a" ++ inBraces "rotate:var(--45°)"
    let s : Sheet := [.root [.declaration ⟨"--45°", "45deg"⟩],
      .style ["a"] [.declaration ⟨"rotate", "var(--45°)"⟩]]
    let unnamed : Text := "a" ++ inBraces "b:var(--)"
    (Sheet.read turned = .ok s ∧ s.Mentions "--45°" ∧ IsCustom "--45°" ∧ ¬s.Mentions "--45" ∧
      (s.collect .empty true).bindings.find? "--45°" = some "45deg" ∧
      (ofChunks [turned]).result = .ok ⟨.ofList [("--45°", "45deg")], ["--45"], ["--45"]⟩) ∧
    IsCustom "--" ∧ .undefined "--" ∈ (transform {} unnamed).warnings ∧
      (ofChunks [unnamed]).result = .ok ⟨.empty, [], []⟩ := by
  decide +kernel

end Report

end CustomProperties

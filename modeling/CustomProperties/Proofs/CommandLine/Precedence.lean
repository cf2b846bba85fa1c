import CustomProperties.CommandLine.Run
import CustomProperties.Proofs.Chunks.Run
import CustomProperties.Proofs.Resolution.Derivation
import CustomProperties.Proofs.Transform.Pruning
import CustomProperties.Proofs.Variables.LastWrite

/-! # Precedence of overrides

The assignments of an invocation are written over the overrides of its configuration under the
names as they are spelled, and names are normalized only when variables are collected. So an
assignment wins over all before it as long as no spelling of its name was first used after its own.
-/

namespace CustomProperties

open Resolution

theorem overrideValue_written {c : Bindings} {given : List (Text × Text)} {n : Text}
    (h : LastIsNewest n (c.names ++ given.map Prod.fst)) :
    lastValue? n (normalized (c.insertAll (Bindings.ofList given).entries).entries) =
      (lastValue? n (normalized given)).or (lastValue? n (normalized c.entries)) := by
  have hm : LastIsNewest n ((c.entries ++ given).map Prod.fst) := by
    rw [List.map_append]
    exact h
  have hc : c.insertAll (Bindings.ofList given).entries = Bindings.ofList (c.entries ++ given) := by
    rw [Bindings.insertAll_ofList, Bindings.ofList, Bindings.insertAll_append]
    exact congrArg (Bindings.insertAll · given) (Bindings.ofList_entries c).symm
  rw [hc, hm.lastValue?_ofList, normalized, List.map_append, lastValue?_append]
  rfl

namespace CommandLine

/-- The value that a name ought to have: that of its last assignment, else of its last override in
the configuration, else of its last definition. -/
def preferred? (given : List (Text × Text)) (c : Bindings) (s : Sheet) (n : Text) : Option Text :=
  ((lastValue? n (normalized given)).or (lastValue? n (normalized c.entries))).or
    (lastValue? n (s.definitions.map Declaration.binding))

def replacement (b : Bindings) (chain : List Text) (g : Parens.Group) (r : Reference)
    (value : Option Text) : Resolution :=
  if r.name ∈ chain then ⟨Reference.opening ++ g.tail, [.circular r.name]⟩
  else
    match value, r.fallback with
    | some v, _ => resolveFrom b (r.name :: chain) v v
    | none, some f => resolveFrom b chain f f
    | none, none => ⟨Reference.opening ++ g.tail, [.undefined r.name]⟩

theorem substitute_eq_replacement {b : Bindings} {chain : List Text} {g : Parens.Group}
    {r : Reference} (h : Reference.ofBody? g.body = some r) :
    substitute b chain g = replacement b chain g r (b.find? r.name) := by
  rw [substitute, h]
  rfl

/-- What a command transforms with: its configuration under its flags and assignments. -/
def configured (i : Invocation) (c : Config) (given : List (Text × Text)) : Config :=
  applyAssignments (.ofList given) (applyFlags i c)

def pathsOf (i : Invocation) (c : Config) : List Text :=
  if i.paths.isEmpty then c.sources else i.paths

/-- What a computation gives in a store, and the store it leaves. -/
def within {α : Type} (t : FileTree) (x : StateM FileTree α) : α × FileTree := x t

theorem within_bind {α β : Type} {x : StateM FileTree α} {f : α → StateM FileTree β}
    {t t' : FileTree} {a : α} (h : within t x = (a, t')) : within t (x >>= f) = within t' (f a) := by
  change f (within t x).1 (within t x).2 = _
  rw [h]
  rfl

section

variable {depth : Nat} {i : Invocation} {l : Level} {t t' : FileTree} {c : Config} {log : List Event}
  {sources : List Source} {s : Sheet}

theorem within_transformSources {found : Except SourceFailure (List Source)} (c : Config) (l : Level)
    (log : List Event) (hp : pathsOf i c ≠ [])
    (ht : within t (Source.collect (pathsOf i c)).run = (found, t')) :
    ∃ log', within t (transformSources i c l log) =
      match found with
      | .error (.fault fault) => (.aborted (.source fault), t')
      | .error (.reported e) => (failed .transform l log' (.source e), t')
      | .ok sources =>
        match (Chunks.run c.toOptions (sources.map Source.text)).result with
        | .error (.number number) => (.aborted (.number number), t')
        | .error (.reported e) => (failed .transform l log' (.chunks e), t')
        | .ok css => within t' (leave .transform i.out l log' css) := by
  have hp' : (pathsOf i c).isEmpty = false := by simpa using hp
  unfold transformSources
  change ∃ log', within t (if (pathsOf i c).isEmpty then _ else
    (Source.collect (pathsOf i c)).run >>= _) = _
  rw [hp', if_neg Bool.false_ne_true, within_bind ht]
  cases found with
  | error e => cases e <;> exact ⟨log, rfl⟩
  | ok sources =>
    refine ⟨log ++ shown l (.sourcesLoaded sources.length ::
      (Chunks.run c.toOptions (sources.map Source.text)).events), ?_⟩
    dsimp only
    rcases (Chunks.run c.toOptions (sources.map Source.text)).result with (e | number) | css <;> rfl

theorem runTransform_eq_transformSources {given : List (Text × Text)}
    (hc : within t (configOf depth i) = (.ok (.ok c, log), t'))
    (hg : i.assignments.mapM readAssignment = .ok given) :
    within t (runTransform depth i l) =
      within t' (transformSources i (configured i c given)
        (if (configured i c given).silent then .error else l) (shown l log)) := by
  refine (within_bind hc).trans ?_
  have hr : readAssignments i.assignments = .ok (.ofList given) := by
    rw [readAssignments, hg]
    rfl
  dsimp only
  rw [hr]
  rfl

/-- A command resolves every reference to a name by the name's last assignment, else by its last
override in the configuration, else by its last definition, provided that the spelling of the name
that is used last is the one that was first used last. It leaves what is resolved so, unless a
number with too many digits breaks it off. -/
theorem runTransform_resolves_by_precedence {t'' : FileTree} {given : List (Text × Text)} {n : Text}
    (hc : within t (configOf depth i) = (.ok (.ok c, log), t'))
    (hg : i.assignments.mapM readAssignment = .ok given) (hp : pathsOf i c ≠ [])
    (ht : within t' (Source.collect (pathsOf i c)).run = (.ok sources, t''))
    (hs : Sheet.read (Chunks.coalesce (sources.map Source.text)) = .ok s)
    (hn : LastIsNewest n (c.overrides.names ++ given.map Prod.fst)) :
    let o := (configured i c given).toOptions
    let out := s.transform o
    (match Chunks.longNumber? o (sources.map Source.text) with
      | some number => within t (runTransform depth i l) = (.aborted (.number number), t'')
      | none => ∃ l' log', within t (runTransform depth i l) =
          within t'' (leave .transform i.out l' log'
            (Chunks.restore (sources.map Source.text) out.sheet.text))) ∧
    (∀ site ∈ out.sites, site.resolution = resolve out.bindings site.declaration.value) ∧
    out.bindings.find? n = preferred? given c.overrides s n ∧
    ∀ chain g r, Reference.ofBody? g.body = some r → r.name = n →
      substitute out.bindings chain g =
        replacement out.bindings chain g r (preferred? given c.overrides s n) := by
  intro o out
  have hf : out.bindings.find? n = preferred? given c.overrides s n := by
    have hb : out.bindings = _ := s.bindings_transform o
    rw [hb, Sheet.bindings_pruned, Sheet.find?_bindings]
    exact congrArg (Option.or · _) (overrideValue_written hn)
  refine ⟨?_, ?_, hf, ?_⟩
  · obtain ⟨log', hl⟩ := within_transformSources (configured i c given)
      (if (configured i c given).silent then .error else l) (shown l log) hp ht
    have hrun := (runTransform_eq_transformSources (l := l) hc hg).trans hl
    dsimp only at hrun
    rw [Chunks.run_result, Chunks.result_of_read hs] at hrun
    cases hnum : Chunks.longNumber? o (sources.map Source.text) with
    | some number =>
      rw [hnum] at hrun
      exact hrun
    | none =>
      rw [hnum] at hrun
      exact ⟨_, log', hrun⟩
  · intro site hm
    rw [show out.sites = _ from s.sites_transform _] at hm
    obtain ⟨d, -, rfl⟩ := List.mem_map.mp hm
    rfl
  · rintro chain g r hr rfl
    rw [substitute_eq_replacement hr, hf]

end

def asciiBytes (t : Text) : List UInt8 := t.map fun c => UInt8.ofNat c.toNat

def sheetAndConfig (css config : Text) : FileTree :=
  { files := [(["a.css"], asciiBytes css), (["c.json"], asciiBytes config)], directories := [] }

/-- A name is assigned twice in one spelling, and the configuration has the other one. -/
theorem runTransform_resolves_by_precedence_of_last_assignment :
    let t := sheetAndConfig (":root" ++ inBraces "--x:0" ++ "a" ++ inBraces "top:var(--x)")
      (inBraces ("\"override_variables\": " ++ inBraces "\"x\": 1, \"y\": 2"))
    let i : Invocation := { command := .transform, paths := ["a.css"], config := some "c.json",
                            assignments := ["--x=3", " --x = 4 "] }
    let c : Config := { overrides := .ofList [("x", "1"), ("y", "2")] }
    let given : List (Text × Text) := [("--x", "3"), ("--x", "4")]
    let sources : List Source :=
      [⟨.ofText "a.css", ":root" ++ inBraces "--x:0" ++ "a" ++ inBraces "top:var(--x)"⟩]
    let s : Sheet := [.root [.declaration ⟨"--x", "0"⟩],
      .style ["a"] [.declaration ⟨"top", "var(--x)"⟩]]
    (within t (configOf 2 i) = (.ok (.ok c, [.configLoaded "c.json"]), t) ∧
      i.assignments.mapM readAssignment = .ok given ∧ pathsOf i c ≠ [] ∧
      within t (Source.collect (pathsOf i c)).run = (.ok sources, t) ∧
      Sheet.read (Chunks.coalesce (sources.map Source.text)) = .ok s ∧
      LastIsNewest "--x" (c.overrides.names ++ given.map Prod.fst)) ∧
    (s.transform (configured i c given).toOptions).bindings.find? "--x" = some "4" := by
  intro t i c given sources s
  have hc : within t (configOf 2 i) = (.ok (.ok c, [.configLoaded "c.json"]), t) := by
    decide +kernel
  have hg : i.assignments.mapM readAssignment = .ok given := by decide +kernel
  have hp : pathsOf i c ≠ [] := by decide
  have ht : within t (Source.collect (pathsOf i c)).run = (.ok sources, t) := by decide +kernel
  have hs : Sheet.read (Chunks.coalesce (sources.map Source.text)) = .ok s := by decide +kernel
  have hn : LastIsNewest "--x" (c.overrides.names ++ given.map Prod.fst) := by decide +kernel
  have hf := (runTransform_resolves_by_precedence (l := .info) hc hg hp ht hs hn).2.2.1
  refine ⟨⟨hc, hg, hp, ht, hs, hn⟩, hf.trans ?_⟩
  decide +kernel

/-- An assignment is lost if the configuration has its spelling before the other one. -/
theorem runTransform_ignores_assignment :
    let t := sheetAndConfig (":root" ++ inBraces "--x:0" ++ "a" ++ inBraces "top:var(--x)")
      (inBraces ("\"override_variables\": " ++ inBraces "\"x\": 1, \"--x\": 2"))
    let i : Invocation := { command := .transform, paths := ["a.css"], config := some "c.json",
                            noPreserve := true, assignments := ["x=3"] }
    let c : Config := { overrides := .ofList [("x", "1"), ("--x", "2")] }
    let s : Sheet := [.root [.declaration ⟨"--x", "0"⟩],
      .style ["a"] [.declaration ⟨"top", "var(--x)"⟩]]
    within t (configOf 2 i) = (.ok (.ok c, [.configLoaded "c.json"]), t) ∧
      i.assignments.mapM readAssignment = .ok [("x", "3")] ∧
      preferred? [("x", "3")] c.overrides s "--x" = some "3" ∧
      within t (run 2 ["transform", "a.css", "--config", "c.json", "--no-preserve", "--var", "x=3"]
        (some "ERROR")) = (.finished ⟨0, "a" ++ inBraces "top:2" ++ "\n", [], none⟩, t) := by
  decide +kernel

end CommandLine

end CustomProperties

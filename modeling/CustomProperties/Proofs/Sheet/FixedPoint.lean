import CustomProperties.Proofs.Sheet.TidyRules
import CustomProperties.Proofs.Sheet.Writable

/-! # Written sheets are read back

What is written for a sheet that was read from tidy text is read as a sheet with the same text.
Where a name needs an escape, where an escaped comma looks like one, or where a comment follows a
mark of importance, the text changes when it is read once more, or is not read at all.
-/

namespace CustomProperties

open Syntax

/-- The text of a sheet is read again and is written as it was. The source is tidy, the commas of
its preludes are plain, its properties are named without escapes and no comment stands behind a
mark of importance. -/
theorem reread_written {css : Text} {s : Sheet} (hread : Sheet.read css = .ok s)
    (htidy : Node.areTidy (Node.readAll (standardize css)) = true)
    (hpreludes : ∀ prelude ∈ Sheet.preludes true (Node.readAll (standardize css)),
      Sheet.Listed prelude)
    (hbodies : ∀ r ∈ s.owners, Sheet.Settled r.body) :
    ∃ out s', s.write = .ok out ∧ Sheet.read out = .ok s' ∧ s'.write = .ok out := by
  have hnodes : Node.Tidied none (Node.readAll (standardize css)) :=
    ⟨htidy, _, _, Node.parses_readAll _, isStandard_standardize css⟩
  have hspells : ∀ r ∈ s, Sheet.SpellsRule True true r :=
    Sheet.spellsRules ⟨hnodes, hpreludes⟩ (Sheet.readsRules_of_read hread) hbodies
  obtain ⟨s', hs', htext⟩ := Sheet.exists_read hspells
  refine ⟨s.text, s', (Sheet.Produced.read hread).writable.write_eq, hs', ?_⟩
  rw [(Sheet.Produced.read hs').writable.write_eq, htext trivial]

theorem reread_written_media :
    ∃ out s', Sheet.write [.comment "n", .container "media" "print"
        [.style ["a", "b > c"] [.declaration ⟨"color", "red !important"⟩,
          .declaration ⟨"--x", "f( 1 )"⟩, .comment "c"]]] = .ok out ∧
      Sheet.read out = .ok s' ∧ s'.write = .ok out :=
  @reread_written
    "/*n*/@Media print \x7b a , b > c \x7b color : red!important ; --x: f( 1 );/*c*/ \x7d \x7d" _
    (by decide +kernel) (by decide +kernel) (by decide +kernel) (by decide +kernel)

/-- A comment behind a mark of importance is lost, a string that the end of the text cut off grows,
and an escaped comma or the name of a property that needs an escape is not read again. -/
theorem reread_written_fails :
    ((Sheet.read "a\x7bcolor:red !important;/* note */margin:0\x7d").map Sheet.text =
        .ok "a\x7bcolor:red !important/* note */;margin:0\x7d" ∧
      (Sheet.read "a\x7bcolor:red !important/* note */;margin:0\x7d").map Sheet.text =
        .ok "a\x7bcolor:red !important;margin:0\x7d") ∧
    ((Sheet.read "a\x7bb:\"x").map Sheet.text = .ok "a\x7bb:\"x\x7d" ∧
      (Sheet.read "a\x7bb:\"x\x7d").map Sheet.text = .ok "a\x7bb:\"x\x7d\x7d") ∧
    ((Sheet.read "a\\,\x7bb:c\x7d").map Sheet.text = .ok "a\\\x7bb:c\x7d" ∧
      (Sheet.read "a\\\x7bb:c\x7d").isOk = false) ∧
    ((Sheet.read "a\x7b\\31 b:c\x7d").map Sheet.text = .ok "a\x7b1b:c\x7d" ∧
      (Sheet.read "a\x7b1b:c\x7d").isOk = false) := by
  decide +kernel

end CustomProperties

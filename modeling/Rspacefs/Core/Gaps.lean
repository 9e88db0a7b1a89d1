import Rspacefs.Core.Succeed

/-!
# Gaps above a path

A change at a path makes the directories above it that the upper layer lacks, and those show:
a directory that the upper layer gains is seen wherever it is not whited out.

## Main definitions

* `GapsShow` — what the upper layer lacks above a path is shown as directories already

## Main results

* `GapsShow.view_eq` — making the parents of a path shows nothing if its gaps show
-/

namespace Rspacefs

open Lib LayerFS

variable {fs fs' : Stack} {p q : Path}

/-- Every directory above `p` that the upper layer lacks, and does not whiteout, is shown as
one. -/
def GapsShow (fs : Stack) (p : Path) : Prop :=
  ∀ q, q <+: p.dropLast → fs.upper.get? q = none → fs.upper.hides q = false →
    view fs q = some .dir

/-- A gained directory does not show where the gap did. -/
theorem GapsShow.view_eq (h : GapsShow fs p) (htouched : Touched fs.upper fs'.upper p)
    (hlower : fs'.lower = fs.lower) (hp : Unmarked p) (hq : Unmarked q) (hqp : q ≠ p) :
    view fs' q = view fs q := by
  rcases htouched.view_cases hlower hp hq hqp with ⟨-, hsame⟩ | ⟨hnone, hdir, hpre⟩
  · exact hsame
  · have hmarker := htouched.hides hp hq hqp
    cases hhides : fs.upper.hides q with
    | true =>
      rw [hhides] at hmarker
      rw [view_of_hides hmarker, view_of_hides hhides]
    | false =>
      rw [hhides] at hmarker
      rw [view_of_upper hmarker hdir, h q hpre hnone hhides]

end Rspacefs

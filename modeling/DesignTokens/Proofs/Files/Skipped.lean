import DesignTokens.Proofs.Files.Braces
import DesignTokens.Proofs.Files.Exact

/-!
# Patterns that are skipped

A pattern that cannot be matched is a fault, which discovery notes before it goes on with the other
patterns: what it lists is what it would list without the pattern. But a pattern that names the root
itself, or more segments than are read, is no fault. It ends discovery, and so do too many groups of
alternatives.
-/

namespace DesignTokens

namespace Glob

variable [Nesting.Room]

variable {root pattern relative : String}

/-- A relative pattern that is read neither as segments nor as a fault: it has no segments, or more
than are read, and those that are read have a meaning. -/
def IsUnread (relative : String) : Prop :=
  PathText.plainSegments relative = [] ∨
    Nesting.Site.search.limit < (PathText.plainSegments relative).length ∧
      ∀ name ∈ (PathText.plainSegments relative).take Nesting.Site.search.limit,
        segment? name ≠ none

/-- A pattern that is answered neither with files nor with a fault. -/
def IsUnanswered (root pattern : String) : Prop :=
  ∃ relative, relativePattern root pattern = .ok relative ∧ IsUnread relative

end Glob

namespace Discovery

variable {t : FileTree} {w : World} {root top : String} {at_ : Location} {p : Spelling}
  {included excluded : List Spelling} {formats : Option (List TokenFormat)}
  {paths complaints : List String}

/-- A pattern whose expansions are all answered, with files or with faults. -/
def IsAnswered [Nesting.Room] (root : String) (p : Spelling) : Prop :=
  Braces.pairs (Wildcard.characters p) ≤ Nesting.Site.expansion.limit ∧
    ∀ expanded ∈ Braces.expand (Wildcard.characters p),
      ¬Glob.IsUnanswered root (String.ofList expanded)

attribute [local instance] Nesting.Room.ample

end Discovery

end DesignTokens

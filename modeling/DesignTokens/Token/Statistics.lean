import DesignTokens.Token.Dictionary
import DesignTokens.Token.Tally

/-!
# Statistics of a dictionary

How many definitions a dictionary holds, in all, for each level of the design system and for each
type.
-/

namespace DesignTokens

/-- The numbers of definitions in a dictionary. -/
structure DictionaryStatistics where
  total : Nat
  /-- By level; all levels are there. -/
  byTier : List (String × Int)
  /-- By type, in the order of the definitions. -/
  byType : Tally
  deriving Repr, Inhabited

namespace DictionaryStatistics

/-- Counts the values of a field, definition by definition; no definition may lack it. -/
def countField (definitions : List Definition) (field : String) (value : Definition → Value) :
    Except Failure Tally := do
  let tally ← Tally.count ((definitions.takeWhile fun e => !e.lacks field).map value)
  definitions.forM fun e => e.require field
  .ok tally

/-- The numbers for a dictionary; tiers and types must be there and be able to be keys. -/
def ofDictionary (d : Dictionary) : Except Failure DictionaryStatistics := do
  let definitions := d.entries.map (·.2)
  let tiers ← countField definitions "tier" (·.tier)
  let types ← countField definitions "type" (·.type)
  .ok
    { total := d.size
      byTier := tierNames.map fun tier => (tier, tiers.total (.text tier))
      byType := types }

/-- The numbers as an object, those by level among the others. -/
def toValue (s : DictionaryStatistics) : Value :=
  let tiers : Members := s.byTier.map fun t => (t.1, .int t.2)
  let types : Members := [("by_type", s.byType.toValue)]
  .object (("total", .int s.total) :: (tiers ++ types))

end DictionaryStatistics

end DesignTokens

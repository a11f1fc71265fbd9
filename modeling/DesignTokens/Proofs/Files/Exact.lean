import DesignTokens.Proofs.Files.Braces
import DesignTokens.Proofs.Files.Discovery
import Mathlib.Data.List.Sort

/-!
# Exactness of discovery

Without steps up, discovery lists exactly the files whose names an include pattern matches, that no
exclude pattern matches, and whose extension some format searches; strictly in order, and whatever
the order and the repetitions of the patterns.
-/

namespace DesignTokens

namespace Braces

/-- A pattern without braces stands for itself. -/
theorem expansionsAt_of_notMem [Nesting.Room] {s : List Char} (h : '\x7d' ∉ s)
    (site : Nesting.Site) : expansionsAt site s = .ok [s] := by
  have hpairs : pairs s = 0 := pairsFrom_of_notMem h 0
  unfold expansionsAt expand
  rw [hpairs, if_neg (Nat.not_lt_zero _), List.count_eq_zero_of_not_mem h]
  rfl

end Braces

namespace Wildcard

/-- The characters of a pattern without halves of pairs. -/
theorem characters_ofList (s : List Char) : characters (String.ofList s) = s := String.toList_ofList

end Wildcard

namespace Discovery

/-- Discovery by include and exclude patterns and the formats that are looked for, if they are
given. -/
def ofPatterns (included excluded : List Spelling) (formats : Option (List TokenFormat)) :
    Discovery :=
  ⟨included.map .text, excluded.map .text, formats.map TokenFormat.extensionsOf⟩

/-- An include pattern that can always be answered, and by names alone: it has not too many pairs
of braces, and its expansions, where they lead below the root, have segments, not too many, and no
step up. -/
structure IsPlainPattern [Nesting.Room] (root : String) (p : Spelling) : Prop where
  pairs_le : Braces.pairs (Wildcard.characters p) ≤ Nesting.Site.expansion.limit
  modest : ∀ expanded ∈ Braces.expand (Wildcard.characters p),
    Glob.IsModest root (String.ofList expanded)
  straight : ∀ expanded ∈ Braces.expand (Wildcard.characters p),
    Glob.IsStraight root (String.ofList expanded)

variable {w : World} {root top : String} {at_ : Location} {included excluded : List Spelling}
  {formats : Option (List TokenFormat)} {way : List String}

/-- Relative patterns without alternatives take a step up only where they are spelled with one. -/
theorem isStraight_ofPatterns
    (h : ∀ p ∈ included, ∃ text : String,
      Braces.expand (Wildcard.characters p) = [text.toList] ∧ text ≠ "" ∧
        PathText.isAbsolute text = false ∧ ".." ∉ PathText.plainSegments text) (root : String) :
    (ofPatterns included excluded formats).IsStraight root := by
  intro p hp expanded hexpanded relative hbelow
  obtain ⟨q, hq, hpattern⟩ := List.mem_map.mp hp
  obtain rfl := Value.text.inj hpattern
  obtain ⟨text, hone, hempty, hrelative, hup⟩ := h q hq
  rw [eq_of_relativePattern_expand hone hempty hrelative hexpanded hbelow]
  exact hup

/-- The formats given search the files with the extensions that are wanted. -/
theorem isWanted_ofPatterns {path : String} :
    (ofPatterns included excluded formats).isWanted path = true ↔
      ∀ given ∈ formats, ∃ f ∈ given, f.appliesTo path = true := by
  unfold isWanted ofPatterns TokenFormat.extensionsOf TokenFormat.appliesTo
  cases formats with
  | none => simp
  | some given => simp [List.mem_eraseDups, List.mem_flatMap]

/-- A plain include pattern is answered. -/
theorem IsPlainPattern.exists_ways [Nesting.Room] {p : Spelling} (h : IsPlainPattern root p)
    (t : FileTree) :
    ∃ ways, waysOfPattern t root at_ (.text p) = .ok ways := by
  have hexpand : Braces.expansions (Wildcard.characters p) =
      .ok (Braces.expand (Wildcard.characters p)) := if_neg (Nat.not_lt.mpr h.pairs_le)
  have hanswers : ∃ answers, (Braces.expand (Wildcard.characters p)).mapM (waysOf t root at_) =
      .ok answers := by
    apply exists_mapM_eq_ok
    intro expanded hexpanded
    obtain ⟨answer, hanswer⟩ := Glob.exists_files_eq_ok t at_ (h.modest expanded hexpanded)
    unfold waysOf
    exact ⟨_, congrArg _ hanswer⟩
  obtain ⟨answers, hanswers⟩ := hanswers
  exact ⟨answers.flatten, bind_eq_ok_iff.mpr ⟨_, hexpand, bind_eq_ok_iff.mpr ⟨_, hanswers, rfl⟩⟩⟩

attribute [local instance] Nesting.Room.ample

end Discovery

end DesignTokens

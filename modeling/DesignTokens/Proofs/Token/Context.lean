import DesignTokens.Proofs.Lists
import DesignTokens.Settings.Basic

/-!
# The context of a place

How much of a line is shown around a place in it is set as a whole number, and any whole number can
be set. The context is the window of the line that reaches as far before the place as after it,
unless this window ends before the line begins: then its end is counted from the end of the line,
and what is shown may be any part of the line.
-/

namespace DesignTokens

/-- The characters of a line at the places from one up to another, as far as the line has such
places. -/
def window (line : List Char) (first stop : Int) : List Char :=
  itemsAt (fun p => first ≤ p ∧ p < stop) line

variable {line : List Char} {first stop : Int} {i : Nat} {n : Int}

theorem window_eq_drop_take (line : List Char) (first stop : Int) :
    window line first stop = (line.take stop.toNat).drop first.toNat := by
  rw [← itemsAt_between]
  exact itemsAt_congr fun p _ => by omega

/-- A window is empty exactly if it ends before it begins, or begins where the line has ended. -/
theorem window_eq_nil_iff :
    window line first stop = [] ↔ stop ≤ max 0 first ∨ line.length ≤ first.toNat := by
  rw [window_eq_drop_take, List.drop_eq_nil_iff, List.length_take]
  omega

/-- The context is a window of the line, whose end is counted from the end of the line if it comes
before the beginning. -/
theorem contextAround_eq_window (line : List Char) (i : Nat) (n : Int) :
    contextAround line i n =
      window line (i - n) (if i + n < 0 then line.length + (i + n) else i + n) := by
  have hfirst : (max 0 ((i : Int) - n)).toNat = ((i : Int) - n).toNat := by omega
  unfold contextAround slice
  dsimp only
  rw [window_eq_drop_take, if_neg (by omega), hfirst]
  refine congrArg (List.drop _) (List.take_eq_take_iff.mpr ?_)
  by_cases hstop : (i : Int) + n < 0
  · rw [if_pos (by omega), if_pos hstop]
    omega
  · rw [if_neg (by omega), if_neg hstop]
    omega

/-- A length of context shows at a place of a line what stands around the place. -/
structure ShowsWindow (line : List Char) (i : Nat) (n : Int) : Prop where
  /-- The window reaches as far before the place as after it. -/
  exact : contextAround line i n = window line (i - n) (i + n)
  /-- Nothing is shown by a length that is not positive. -/
  nothing : n ≤ 0 → contextAround line i n = []

theorem showsWindow_of_nonneg (h : 0 ≤ i + n) : ShowsWindow line i n := by
  have hexact := contextAround_eq_window line i n
  rw [if_neg (by omega)] at hexact
  refine ⟨hexact, fun hn => ?_⟩
  rw [hexact, window_eq_nil_iff]
  omega

/-- Where the window ends before the line begins, nothing should be shown; this is so exactly if
the line is so short that what is shown instead is empty. -/
theorem showsWindow_iff_of_neg (h : i + n < 0) :
    ShowsWindow line i n ↔ line.length + 2 * n ≤ 0 := by
  have hshown := contextAround_eq_window line i n
  rw [if_pos h] at hshown
  have hempty : contextAround line i n = [] ↔ line.length + 2 * n ≤ 0 := by
    rw [hshown, window_eq_nil_iff]
    omega
  have hwindow : window line (i - n) (i + n) = [] := window_eq_nil_iff.mpr (by omega)
  constructor
  · intro hshows
    exact hempty.mp (hshows.nothing (by omega))
  · intro hshort
    exact ⟨(hempty.mpr hshort).trans hwindow.symm, fun _ => hempty.mpr hshort⟩

/-- Every whole number can be set as the length of context. At a place of a line it shows what
stands around the place exactly if the window does not end before the line begins, or the line is
at most twice as long as the length is below zero. So a length does this at every place of every
line exactly if it is not negative. -/
theorem showsWindow_iff (n : Int) :
    (∃ s : Settings, s.contextLength = .ok n) ∧
      (∀ (line : List Char) (i : Nat),
        ShowsWindow line i n ↔ 0 ≤ i + n ∨ line.length + 2 * n ≤ 0) ∧
      ((∀ (line : List Char) (i : Nat), i ≤ line.length → ShowsWindow line i n) ↔ 0 ≤ n) := by
  have hplace (line : List Char) (i : Nat) :
      ShowsWindow line i n ↔ 0 ≤ i + n ∨ line.length + 2 * n ≤ 0 := by
    by_cases h : (i : Int) + n < 0
    · rw [showsWindow_iff_of_neg h, or_iff_right (by omega)]
    · exact iff_of_true (showsWindow_of_nonneg (by omega)) (.inl (by omega))
  refine ⟨⟨⟨[("context_length", .int n)]⟩, rfl⟩, hplace, fun h => ?_, fun h line i _ => ?_⟩
  · -- For a negative length there is a line long enough that something is shown at its first place.
    have hlong := h (List.replicate (2 * n.natAbs + 1) 'x') 0 (Nat.zero_le _)
    rw [hplace, List.length_replicate] at hlong
    omega
  · exact showsWindow_of_nonneg (by omega)

/-- A length of minus one shows the middle of a line at its first place. -/
theorem not_forall_showsWindow :
    ¬∀ (s : Settings) (n : Int), s.contextLength = .ok n →
      ∀ (line : List Char) (i : Nat), i ≤ line.length → ShowsWindow line i n := by
  intro h
  have hnothing := (h ⟨[("context_length", .int (-1))]⟩ (-1) rfl "abcd".toList 0
    (Nat.zero_le _)).nothing (by decide)
  have hshown : contextAround "abcd".toList (0 : Nat) (-1) = ['b', 'c'] := by decide
  rw [hshown] at hnothing
  cases hnothing

end DesignTokens

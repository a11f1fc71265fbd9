import DesignTokens.Proofs.Lists
import DesignTokens.Proofs.Text.Lines
import DesignTokens.Terminal.Color
import Mathlib.Algebra.Group.Nat.Even

/-!
# Texts in pieces

A text for the terminal is made of characters and of sequences that switch its style. What is done
to such a text, when it is marked, stripped, shown or cut into lines, is done to its pieces one
after the other, so each of these is a walk over them: marking puts the same marker for bold and
for the end of every style, showing keeps the weight as a state, and reading a marked text keeps
whether emphasis is open.
-/

namespace DesignTokens.Terminal

/-! ## Reading a text -/

/-- The marker that emphasis begins and ends with. -/
def marker : List Char := ['*', '*']

/-- The markers in a text, from left to right. -/
def markers : List Char → Nat
  | '*' :: '*' :: rest => markers rest + 1
  | _ :: rest => markers rest
  | [] => 0

/-- The characters of a marked text, each with whether it is emphasized; a marker begins emphasis
or ends it. -/
def readFrom (heavy : Bool) : List Char → List (Char × Bool)
  | '*' :: '*' :: rest => readFrom (!heavy) rest
  | c :: rest => (c, heavy) :: readFrom heavy rest
  | [] => []

/-- The text without its markers. -/
def unmarked (text : List Char) : List Char := replaceFrom marker [] 0 text

/-- Whether a text is shown in bold after a sequence. -/
def weightAfter (code : List Char) (heavy : Bool) : Bool :=
  if code = bold.toList then true else if code = reset.toList then false else heavy

/-- The characters that a terminal shows, each with whether it is in bold, `skip` characters of the
first sequence being left over. -/
def shownFrom (heavy : Bool) : Nat → List Char → List (Char × Bool)
  | _, [] => []
  | skip + 1, _ :: rest => shownFrom heavy skip rest
  | 0, c :: rest =>
    match sequenceLength? (c :: rest) with
    | some n => shownFrom (weightAfter ((c :: rest).take n) heavy) (n - 1) rest
    | none => (c, heavy) :: shownFrom heavy 0 rest

/-- How often a part occurs in a text. -/
def occurrences (part : List Char) : List Char → Nat
  | [] => 0
  | c :: rest => occurrences part rest + if part.isPrefixOf (c :: rest) then 1 else 0

/-! ## Texts as pieces -/

/-- What the sequences switch to. -/
inductive Style
  | reset
  | grey
  | green
  | yellow
  | red
  | bold
  deriving DecidableEq, Repr

namespace Style

/-- The sequence for a style. -/
def sequence : Style → String
  | reset => Terminal.reset
  | grey => Terminal.grey
  | green => Terminal.green
  | yellow => Terminal.yellow
  | red => Terminal.red
  | bold => Terminal.bold

/-- Whether the sequence of a style becomes a marker. -/
def isMarked : Style → Bool
  | reset | bold => true
  | _ => false

/-- Whether a style is that of a color. -/
def isColor (s : Style) : Bool := !s.isMarked

end Style

/-- A character that is shown, or a sequence. -/
inductive Piece
  | char (c : Char)
  | switch (style : Style)
  deriving DecidableEq, Repr

namespace Piece

/-- A piece as characters for the terminal. -/
def terminal : Piece → List Char
  | char c => [c]
  | switch style => style.sequence.toList

/-- A piece in a marked text. -/
def marked : Piece → List Char
  | char c => [c]
  | switch style => if style.isMarked then marker else []

/-- A piece in a text without sequences. -/
def bare : Piece → List Char
  | char c => [c]
  | switch _ => []

/-- A character that neither begins a sequence nor belongs to a marker, or a sequence. -/
def IsPlain : Piece → Prop
  | char c => c ≠ '*' ∧ c ≠ escape
  | switch _ => True

end Piece

/-! ## Each function on pieces -/

section Steps

variable {α : Type} {ps : List Piece} {f : Piece → List Char} {g : Piece → List α}

/-- What a function makes of pieces one after the other, it makes of each of them alone. -/
theorem map_flatMap {F : List Char → List α} (hnil : F [] = [])
    (hstep : ∀ p ∈ ps, ∀ rest, F (f p ++ rest) = g p ++ F rest) :
    F (ps.flatMap f) = ps.flatMap g := by
  induction ps with
  | nil => exact hnil
  | cons p ps ih =>
    obtain ⟨hp, hps⟩ := List.forall_mem_cons.mp hstep
    rw [List.flatMap_cons, List.flatMap_cons, hp, ih hps]

variable {part new x rest : List Char} {c : Char}

/-- Characters with which the part does not begin are left alone. -/
theorem replaceFrom_append (hpart : part.head? = some c) (hx : c ∉ x) (new rest : List Char) :
    replaceFrom part new 0 (x ++ rest) = x ++ replaceFrom part new 0 rest := by
  obtain ⟨part, rfl⟩ := List.head?_eq_some_iff.mp hpart
  induction x with
  | nil => rfl
  | cons d x ih =>
    obtain ⟨hd, hx⟩ := not_or.mp (mt List.mem_cons.mpr hx)
    have hbegins : (c :: part).isPrefixOf (d :: (x ++ rest)) = false := by
      rw [List.isPrefixOf, beq_false_of_ne hd, Bool.false_and]
    rw [List.cons_append, replaceFrom, if_neg (by rw [hbegins]; exact Bool.false_ne_true), ih hx,
      List.cons_append]

/-- Characters that are left over from a replaced part are skipped. -/
theorem replaceFrom_skip (part new x rest : List Char) :
    replaceFrom part new x.length (x ++ rest) = replaceFrom part new 0 rest := by
  induction x with
  | nil => rfl
  | cons c x ih => exact ih

/-- The part itself is replaced. -/
theorem replaceFrom_part (hpart : part ≠ []) (new rest : List Char) :
    replaceFrom part new 0 (part ++ rest) = new ++ replaceFrom part new 0 rest := by
  obtain ⟨c, x, rfl⟩ := List.exists_cons_of_ne_nil hpart
  have hbegins : (c :: x).isPrefixOf (c :: (x ++ rest)) = true :=
    List.isPrefixOf_iff_prefix.mpr (List.prefix_append (c :: x) rest)
  rw [List.cons_append, replaceFrom, if_pos hbegins, List.length_cons, Nat.add_sub_cancel,
    replaceFrom_skip]

/-- Another sequence is left alone. -/
theorem replaceFrom_sequence {style other : Style} (h : other ≠ style) (new rest : List Char) :
    replaceFrom style.sequence.toList new 0 (other.sequence.toList ++ rest) =
      other.sequence.toList ++ replaceFrom style.sequence.toList new 0 rest := by
  cases style <;> cases other <;> first | rfl | exact absurd rfl h

/-- A sequence for a style is taken away. -/
theorem stripFrom_sequence (style : Style) (rest : List Char) :
    stripFrom 0 (style.sequence.toList ++ rest) = stripFrom 0 rest := by
  cases style <;> rfl

/-- No sequence begins with another character. -/
theorem sequenceLength?_cons (hc : c ≠ escape) (rest : List Char) :
    sequenceLength? (c :: rest) = none := by
  unfold sequenceLength?
  split
  · rename_i heq
    exact absurd (List.cons.inj heq).1 hc
  · rfl

/-- A character that begins no sequence is kept. -/
theorem stripFrom_cons (hc : c ≠ escape) (rest : List Char) :
    stripFrom 0 (c :: rest) = c :: stripFrom 0 rest := by
  rw [stripFrom, sequenceLength?_cons hc]

end Steps

/-- The characters for the terminal. -/
def terminalText (ps : List Piece) : List Char := ps.flatMap Piece.terminal

/-- The marked text. -/
def markedText (ps : List Piece) : List Char := ps.flatMap Piece.marked

/-- The text without sequences. -/
def bareText (ps : List Piece) : List Char := ps.flatMap Piece.bare

theorem terminalText_cons (p : Piece) (ps : List Piece) :
    terminalText (p :: ps) = p.terminal ++ terminalText ps := List.flatMap_cons

theorem markedText_cons (p : Piece) (ps : List Piece) :
    markedText (p :: ps) = p.marked ++ markedText ps := List.flatMap_cons

/-- The characters for the terminal can be put together from those of two parts. -/
theorem terminalText_append (ps qs : List Piece) :
    terminalText (ps ++ qs) = terminalText ps ++ terminalText qs := List.flatMap_append

/-- The marked text can be put together from those of two parts. -/
theorem markedText_append (ps qs : List Piece) :
    markedText (ps ++ qs) = markedText ps ++ markedText qs := List.flatMap_append

/-- Characters alone are what the terminal gets. -/
theorem terminalText_map_char (text : List Char) : terminalText (text.map .char) = text := by
  unfold terminalText
  rw [List.flatMap_map]
  exact List.flatMap_singleton' text

/-- Characters alone are marked nowhere. -/
theorem markedText_map_char (text : List Char) : markedText (text.map .char) = text := by
  unfold markedText
  rw [List.flatMap_map]
  exact List.flatMap_singleton' text

/-- Characters alone switch to no style. -/
theorem count_map_char (text : List Char) (style : Style) :
    (text.map Piece.char).count (.switch style) = 0 := by
  rw [List.count_eq_zero]
  intro hmem
  obtain ⟨c, -, heq⟩ := List.mem_map.mp hmem
  cases heq

section Texts

variable {ps : List Piece}

/-- A piece with a marker for bold only. -/
def Piece.begun : Piece → List Char
  | switch .bold => marker
  | p => p.terminal

/-- A piece with markers but still with its color. -/
def Piece.ended : Piece → List Char
  | char c => [c]
  | switch style => if style.isMarked then marker else style.sequence.toList

/-- A plain character begins no sequence. -/
theorem escape_notMem_char {c : Char} (h : (Piece.char c).IsPlain) : escape ∉ [c] :=
  fun hmem => h.2 (List.mem_singleton.mp hmem).symm

/-- Both kinds of sequences become markers, and the others are left out. -/
theorem emphasize_terminalText (h : ∀ p ∈ ps, p.IsPlain) :
    emphasize (String.ofList (terminalText ps)) = String.ofList (markedText ps) := by
  have hbold : replaceFrom bold.toList marker 0 (terminalText ps) = ps.flatMap Piece.begun := by
    refine map_flatMap rfl fun p hp rest => ?_
    cases p with
    | char c => exact replaceFrom_append rfl (escape_notMem_char (h _ hp)) marker rest
    | switch style =>
      by_cases hstyle : style = .bold
      · subst hstyle
        exact replaceFrom_part (by decide) marker rest
      · have hbegun : (Piece.switch style).begun = style.sequence.toList := by
          cases style <;> first | rfl | exact absurd rfl hstyle
        rw [hbegun]
        exact replaceFrom_sequence hstyle marker rest
  have hreset : replaceFrom reset.toList marker 0 (ps.flatMap Piece.begun) =
      ps.flatMap Piece.ended := by
    refine map_flatMap rfl fun p hp rest => ?_
    cases p with
    | char c => exact replaceFrom_append rfl (escape_notMem_char (h _ hp)) marker rest
    | switch style =>
      cases style with
      | bold => exact replaceFrom_append rfl (by decide) marker rest
      | reset => exact replaceFrom_part (by decide) marker rest
      | grey | green | yellow | red => rfl
  have hstrip : stripFrom 0 (ps.flatMap Piece.ended) = markedText ps := by
    refine map_flatMap rfl fun p hp rest => ?_
    cases p with
    | char c => exact stripFrom_cons (h _ hp).2 rest
    | switch style => cases style <;> rfl
  unfold emphasize
  rw [String.toList_ofList]
  exact congrArg String.ofList
    ((congrArg (stripFrom 0) ((congrArg (replaceFrom reset.toList marker 0) hbold).trans
      hreset)).trans hstrip)

/-- Without its sequences a text for the terminal is the bare text. -/
theorem stripFrom_terminalText (h : ∀ p ∈ ps, p.IsPlain) :
    stripFrom 0 (terminalText ps) = bareText ps := by
  refine map_flatMap rfl fun p hp rest => ?_
  cases p with
  | char c => exact stripFrom_cons (h _ hp).2 rest
  | switch style => exact stripFrom_sequence style rest

/-- A plain character does not belong to a marker. -/
theorem asterisk_notMem_char {c : Char} (h : (Piece.char c).IsPlain) : '*' ∉ [c] :=
  fun hmem => h.1 (List.mem_singleton.mp hmem).symm

/-- Without its markers a marked text is the bare text. -/
theorem unmarked_markedText (h : ∀ p ∈ ps, p.IsPlain) :
    unmarked (markedText ps) = bareText ps := by
  refine map_flatMap rfl fun p hp rest => ?_
  cases p with
  | char c => exact replaceFrom_append rfl (asterisk_notMem_char (h _ hp)) [] rest
  | switch style => cases style <;> rfl

/-! ## What is shown and what is emphasized -/

/-- The characters of pieces, each with a state that the sequences change. -/
def annotate (next : Style → Bool → Bool) (heavy : Bool) : List Piece → List (Char × Bool)
  | [] => []
  | .char c :: ps => (c, heavy) :: annotate next heavy ps
  | .switch style :: ps => annotate next (next style heavy) ps

/-- The state after pieces. -/
def stateAfter (next : Style → Bool → Bool) (heavy : Bool) : List Piece → Bool
  | [] => heavy
  | .char _ :: ps => stateAfter next heavy ps
  | .switch style :: ps => stateAfter next (next style heavy) ps

/-- How a sequence changes the weight. -/
def Style.weigh : Style → Bool → Bool
  | bold, _ => true
  | reset, _ => false
  | _, heavy => heavy

/-- How what becomes of a sequence changes the emphasis. -/
def Style.toggle (style : Style) (heavy : Bool) : Bool := if style.isMarked then !heavy else heavy

/-- The weights of the second part start from the one after the first. -/
theorem annotate_append (next : Style → Bool → Bool) (heavy : Bool) (ps qs : List Piece) :
    annotate next heavy (ps ++ qs) =
      annotate next heavy ps ++ annotate next (stateAfter next heavy ps) qs := by
  induction ps generalizing heavy with
  | nil => rfl
  | cons p ps ih =>
    cases p with
    | char c => exact congrArg ((c, heavy) :: ·) (ih heavy)
    | switch style => exact ih _

/-- The weight after two parts is that after the second, which starts from the first. -/
theorem stateAfter_append (next : Style → Bool → Bool) (heavy : Bool) (ps qs : List Piece) :
    stateAfter next heavy (ps ++ qs) = stateAfter next (stateAfter next heavy ps) qs := by
  induction ps generalizing heavy with
  | nil => rfl
  | cons p ps ih =>
    cases p with
    | char c => exact ih heavy
    | switch style => exact ih _

/-- Characters alone all have the weight before them. -/
theorem annotate_map_char (next : Style → Bool → Bool) (heavy : Bool) (text : List Char) :
    annotate next heavy (text.map .char) = text.map fun c => (c, heavy) := by
  induction text with
  | nil => rfl
  | cons c text ih => exact congrArg ((c, heavy) :: ·) ih

/-- Characters alone do not change the weight. -/
theorem stateAfter_map_char (next : Style → Bool → Bool) (heavy : Bool) (text : List Char) :
    stateAfter next heavy (text.map .char) = heavy := by
  induction text with
  | nil => rfl
  | cons c text ih => exact ih

/-- A terminal shows each character in the weight of the sequences before it. -/
theorem shownFrom_terminalText (h : ∀ p ∈ ps, p.IsPlain) (heavy : Bool) :
    shownFrom heavy 0 (terminalText ps) = annotate Style.weigh heavy ps := by
  induction ps generalizing heavy with
  | nil => rfl
  | cons p ps ih =>
    obtain ⟨hp, hps⟩ := List.forall_mem_cons.mp h
    cases p with
    | char c =>
      rw [annotate, ← ih hps]
      change shownFrom heavy 0 (c :: terminalText ps) = _
      rw [shownFrom, sequenceLength?_cons hp.2]
    | switch style =>
      rw [annotate, ← ih hps]
      cases style <;> rfl

/-- A character that belongs to no marker is read as it is. -/
theorem readFrom_cons {c : Char} (hc : c ≠ '*') (heavy : Bool) (rest : List Char) :
    readFrom heavy (c :: rest) = (c, heavy) :: readFrom heavy rest := by
  rw [readFrom]
  exact fun _ heq => absurd heq hc

/-- A reader of the marked text toggles the weight at every marker. -/
theorem readFrom_markedText (h : ∀ p ∈ ps, p.IsPlain) (heavy : Bool) :
    readFrom heavy (markedText ps) = annotate Style.toggle heavy ps := by
  induction ps generalizing heavy with
  | nil => rfl
  | cons p ps ih =>
    obtain ⟨hp, hps⟩ := List.forall_mem_cons.mp h
    cases p with
    | char c =>
      rw [annotate, ← ih hps]
      exact readFrom_cons hp.1 heavy _
    | switch style =>
      rw [annotate, ← ih hps]
      cases style <;> rfl

/-- A character that belongs to no marker can be left out of the count. -/
theorem markers_cons {c : Char} (hc : c ≠ '*') (rest : List Char) :
    markers (c :: rest) = markers rest := by
  rw [markers]
  exact fun _ heq => absurd heq hc

/-! ## Line by line -/

/-- What stands on a line stays on it. -/
theorem newline_notMem (p : Piece) (hp : p ≠ .char '\n') : '\n' ∉ p.terminal ∧ '\n' ∉ p.marked := by
  cases p with
  | char c =>
    have hc : '\n' ∉ [c] := fun hmem => hp (congrArg Piece.char (List.mem_singleton.mp hmem).symm)
    exact ⟨hc, hc⟩
  | switch style => cases style <;> decide

/-- A relation between lines holds line by line, if it holds of empty lines and every piece keeps
it. -/
theorem forall₂_splitOn {R : List Char → List Char → Prop} (hnil : R [] [])
    (hstep : ∀ p ∈ ps, ∀ line line', R line line' → R (p.terminal ++ line) (p.marked ++ line')) :
    List.Forall₂ R (Text.splitOn '\n' (terminalText ps)) (Text.splitOn '\n' (markedText ps)) := by
  induction ps with
  | nil => exact .cons hnil .nil
  | cons p ps ih =>
    obtain ⟨hp, hps⟩ := List.forall_mem_cons.mp hstep
    have hlines := ih hps
    by_cases hnewline : p = .char '\n'
    · subst hnewline
      change List.Forall₂ R (Text.splitOn '\n' ('\n' :: terminalText ps))
        (Text.splitOn '\n' ('\n' :: markedText ps))
      rw [Text.splitOn_cons_self, Text.splitOn_cons_self]
      exact .cons hnil hlines
    · obtain ⟨hterminal, hmarked⟩ := newline_notMem p hnewline
      obtain ⟨line, more, hsplit⟩ :=
        List.exists_cons_of_ne_nil (Text.splitOn_ne_nil '\n' (terminalText ps))
      obtain ⟨line', more', hsplit'⟩ :=
        List.exists_cons_of_ne_nil (Text.splitOn_ne_nil '\n' (markedText ps))
      rw [hsplit, hsplit'] at hlines
      obtain ⟨hfirst, hmore⟩ := List.forall₂_cons.mp hlines
      rw [terminalText_cons, markedText_cons, Text.splitOn_append_of_notMem hterminal hsplit,
        Text.splitOn_append_of_notMem hmarked hsplit']
      exact .cons (hp _ _ hfirst) hmore

/-- A part does not occur where another character stands in place of its first one. -/
theorem occurrences_cons {part : List Char} {c d : Char} (hpart : part.head? = some c) (hd : d ≠ c)
    (rest : List Char) : occurrences part (d :: rest) = occurrences part rest := by
  obtain ⟨part, rfl⟩ := List.head?_eq_some_iff.mp hpart
  rw [occurrences, List.isPrefixOf, beq_false_of_ne hd.symm, Bool.false_and]
  rfl

/-- A sequence occurs as often as it is switched to. -/
theorem occurrences_terminalText (h : ∀ p ∈ ps, p.IsPlain) (style : Style) :
    occurrences style.sequence.toList (terminalText ps) = ps.count (.switch style) := by
  induction ps with
  | nil => rfl
  | cons p ps ih =>
    obtain ⟨hp, hps⟩ := List.forall_mem_cons.mp h
    cases p with
    | char c =>
      have hhead : style.sequence.toList.head? = some escape := by cases style <;> rfl
      have hne : Piece.char c ≠ .switch style := nofun
      rw [List.count_cons_of_ne hne, ← ih hps]
      exact occurrences_cons hhead hp.2 _
    | switch other =>
      rw [List.count_cons, ← ih hps]
      cases style <;> cases other <;> rfl

/-- A line has as many markers as it has sequences for bold and for the end of a style. -/
theorem forall₂_markers (h : ∀ p ∈ ps, p.IsPlain) :
    List.Forall₂
      (fun line line' => markers line' =
        occurrences bold.toList line + occurrences reset.toList line)
      (Text.splitOn '\n' (terminalText ps)) (Text.splitOn '\n' (markedText ps)) := by
  refine forall₂_splitOn rfl fun p hp line line' hline => ?_
  cases p with
  | char c =>
    obtain ⟨hmarker, hescape⟩ := h _ hp
    change markers (c :: line') =
      occurrences bold.toList (c :: line) + occurrences reset.toList (c :: line)
    rw [markers_cons hmarker, occurrences_cons rfl hescape, occurrences_cons rfl hescape, hline]
  | switch style =>
    cases style with
    | reset => exact congrArg (· + 1) hline
    | bold => exact (congrArg (· + 1) hline).trans (Nat.add_right_comm ..)
    | grey | green | yellow | red => exact hline

/-- The emphasis in lines is balanced, if the first of them goes on in a state. -/
def IsBalanced (heavy : Bool) : List (List Char) → Prop
  | [] => True
  | first :: more => (Even (markers first) ↔ heavy = false) ∧ ∀ line ∈ more, Even (markers line)

/-- Lines are balanced if each has an even number of markers. -/
theorem isBalanced_false_iff {lines : List (List Char)} :
    IsBalanced false lines ↔ ∀ line ∈ lines, Even (markers line) := by
  cases lines with
  | nil => exact iff_of_true trivial nofun
  | cons first more => rw [IsBalanced, List.forall_mem_cons, iff_true_right rfl]

/-- Emphasis is balanced if none is open at the end of a line. -/
theorem isBalanced_markedText_iff (h : ∀ p ∈ ps, p.IsPlain) (heavy : Bool) :
    IsBalanced heavy (Text.splitOn '\n' (markedText ps)) ↔
      stateAfter Style.toggle heavy ps = false ∧
        ('\n', true) ∉ annotate Style.toggle heavy ps := by
  induction ps generalizing heavy with
  | nil => simp [IsBalanced, markedText, markers, stateAfter, annotate]
  | cons p ps ih =>
    obtain ⟨hp, hps⟩ := List.forall_mem_cons.mp h
    obtain ⟨line, more, hsplit⟩ :=
      List.exists_cons_of_ne_nil (Text.splitOn_ne_nil '\n' (markedText ps))
    by_cases hnewline : p = .char '\n'
    · subst hnewline
      change IsBalanced heavy (Text.splitOn '\n' ('\n' :: markedText ps)) ↔
        stateAfter Style.toggle heavy ps = false ∧
          ('\n', true) ∉ ('\n', heavy) :: annotate Style.toggle heavy ps
      rw [Text.splitOn_cons_self]
      cases heavy with
      | true => simp [IsBalanced, markers]
      | false =>
        have hrest := ih hps false
        rw [isBalanced_false_iff] at hrest
        simp [IsBalanced, markers, hrest]
    · rw [markedText_cons, Text.splitOn_append_of_notMem (newline_notMem p hnewline).2 hsplit]
      have hrest := ih hps
      rw [hsplit] at hrest
      cases p with
      | char c =>
        have hmem : ('\n', true) ≠ (c, heavy) := fun heq =>
          hnewline (congrArg Piece.char (Prod.mk.inj heq).1.symm)
        change IsBalanced heavy ((c :: line) :: more) ↔ stateAfter Style.toggle heavy ps = false ∧
          ('\n', true) ∉ (c, heavy) :: annotate Style.toggle heavy ps
        rw [List.mem_cons, or_iff_right hmem, ← hrest, IsBalanced, IsBalanced, markers_cons hp.1]
      | switch style =>
        change IsBalanced heavy _ ↔ stateAfter Style.toggle (style.toggle heavy) ps = false ∧
          ('\n', true) ∉ annotate Style.toggle (style.toggle heavy) ps
        rw [← hrest]
        cases style with
        | reset | bold =>
          -- One more marker on the line makes up for the other state.
          change (Even (markers line + 1) ↔ heavy = false) ∧ _ ↔
            (Even (markers line) ↔ (!heavy) = false) ∧ _
          rw [Nat.even_add_one]
          cases heavy <;> simp
        | grey | green | yellow | red => exact Iff.rfl

end Texts

end DesignTokens.Terminal

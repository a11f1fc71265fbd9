import DesignTokens.Proofs.Terminal.Pieces
import Mathlib.Data.Nat.Digits.Defs

/-!
# Emphasis in place of sequences

The sequence for bold and the one that ends every style become the same marker. What a text shows
in bold is therefore what its markers emphasize as long as nothing in it is colored: the end of a
color leaves a marker without a partner, and its line is not balanced any more.
-/

namespace DesignTokens.Terminal

/-- A marked text renders what a terminal shows. -/
structure Renders (terminal marked : String) : Prop where
  /-- Each line begins and ends its emphasis. -/
  balanced : ∀ line ∈ Text.splitOn '\n' marked.toList, Even (markers line)
  /-- What is emphasized is what the terminal shows in bold. -/
  heavy : readFrom false marked.toList = shownFrom false 0 terminal.toList
  /-- Without markers the text is the one without sequences. -/
  bare : unmarked marked.toList = (strip terminal).toList

/-! ## Plain texts and painted parts -/

/-- A text with no asterisk and no character that begins a sequence. -/
def IsPlain (text : String) : Prop := '*' ∉ text.toList ∧ escape ∉ text.toList

instance (text : String) : Decidable (IsPlain text) :=
  inferInstanceAs (Decidable ('*' ∉ text.toList ∧ escape ∉ text.toList))

/-- Joined texts are plain if both are. -/
theorem isPlain_append_iff {s t : String} : IsPlain (s ++ t) ↔ IsPlain s ∧ IsPlain t := by
  unfold IsPlain
  rw [String.toList_append, List.mem_append, List.mem_append, not_or, not_or, and_and_and_comm]

/-- Decimal digits are plain. -/
theorem isPlain_toString_nat (n : Nat) : IsPlain (toString n) := by
  have hdigit : ∀ c ∈ (toString n).toList, c.isDigit = true := by
    rw [Nat.toString_eq_ofList_toDigits, String.toList_ofList]
    exact fun c hc => Nat.isDigit_of_mem_toDigits (by decide) (by decide) hc
  exact ⟨fun h => absurd (hdigit _ h) (by decide), fun h => absurd (hdigit _ h) (by decide)⟩

/-- A whole number is written in plain characters. -/
theorem isPlain_toString (n : Int) : IsPlain (toString n) := by
  cases n with
  | ofNat n => exact isPlain_toString_nat n
  | negSucc n => exact isPlain_append_iff.mpr ⟨by decide, isPlain_toString_nat (n + 1)⟩

/-- A text made of characters of a plain one is plain. -/
theorem isPlain_of_mem {s t : String} (h : IsPlain s) (hmem : ∀ c ∈ t.toList, c ∈ s.toList) :
    IsPlain t :=
  ⟨fun hc => h.1 (hmem _ hc), fun hc => h.2 (hmem _ hc)⟩

/-- Plain parts are plain when joined by something plain. -/
theorem isPlain_intercalate {sep : String} {parts : List String} (hsep : IsPlain sep)
    (h : ∀ part ∈ parts, IsPlain part) : IsPlain (String.intercalate sep parts) := by
  induction parts with
  | nil => exact (by decide : IsPlain "")
  | cons first parts ih =>
    obtain ⟨hfirst, hparts⟩ := List.forall_mem_cons.mp h
    cases parts with
    | nil =>
      rw [String.intercalate_singleton]
      exact hfirst
    | cons second more =>
      rw [String.intercalate_cons_cons]
      exact isPlain_append_iff.mpr ⟨isPlain_append_iff.mpr ⟨hfirst, hsep⟩, ih hparts⟩

/-- The pieces of a plain text. -/
theorem forall_isPlain_map_char {text : String} (h : IsPlain text) :
    ∀ p ∈ text.toList.map Piece.char, p.IsPlain := by
  intro p hp
  obtain ⟨c, hc, rfl⟩ := List.mem_map.mp hp
  exact ⟨fun heq => h.1 (heq ▸ hc), fun heq => h.2 (heq ▸ hc)⟩

/-- A text that is made of plain pieces. -/
def IsSpelled (text : String) : Prop :=
  ∃ ps, (∀ p ∈ ps, Piece.IsPlain p) ∧ text = String.ofList (terminalText ps)

namespace IsSpelled

variable {s t : String}

/-- A plain text is spelled with characters alone. -/
theorem of_isPlain (h : IsPlain s) : IsSpelled s :=
  ⟨s.toList.map .char, forall_isPlain_map_char h, by
    rw [terminalText_map_char, String.ofList_toList]⟩

/-- Texts that can be spelled in pieces can be so together. -/
theorem append (hs : IsSpelled s) (ht : IsSpelled t) : IsSpelled (s ++ t) := by
  obtain ⟨ps, hps, rfl⟩ := hs
  obtain ⟨qs, hqs, rfl⟩ := ht
  refine ⟨ps ++ qs, List.forall_mem_append.mpr ⟨hps, hqs⟩, ?_⟩
  rw [terminalText_append, String.ofList_append]

/-- A text in two parts is marked part by part. -/
theorem emphasize_append (hs : IsSpelled s) (ht : IsSpelled t) :
    emphasize (s ++ t) = emphasize s ++ emphasize t := by
  obtain ⟨ps, hps, rfl⟩ := hs
  obtain ⟨qs, hqs, rfl⟩ := ht
  rw [← String.ofList_append, ← terminalText_append,
    emphasize_terminalText (List.forall_mem_append.mpr ⟨hps, hqs⟩), markedText_append,
    String.ofList_append, emphasize_terminalText hps, emphasize_terminalText hqs]

/-- A sequence for a style is a piece. -/
theorem switch (style : Style) : IsSpelled style.sequence := by
  refine ⟨[.switch style], fun p hp => ?_, ?_⟩
  · rw [List.mem_singleton.mp hp]
    trivial
  · rw [terminalText_cons]
    cases style <;> rfl

/-- A plain text in a style can be spelled in pieces. -/
theorem paint (style : Style) (h : IsPlain s) : IsSpelled (paint style.sequence s) :=
  ((switch style).append (of_isPlain h)).append (switch .reset)

/-- Without markers the text is the one without sequences. -/
theorem unmarked_emphasize (h : IsSpelled s) :
    unmarked (emphasize s).toList = (strip s).toList := by
  obtain ⟨ps, hps, rfl⟩ := h
  rw [emphasize_terminalText hps, strip, String.toList_ofList, String.toList_ofList,
    String.toList_ofList, unmarked_markedText hps, stripFrom_terminalText hps]

/-- A line has as many markers as it has sequences for bold and for the end of a style. -/
theorem forall₂_markers (h : IsSpelled s) :
    List.Forall₂
      (fun line line' => markers line' =
        occurrences bold.toList line + occurrences reset.toList line)
      (Text.splitOn '\n' s.toList) (Text.splitOn '\n' (emphasize s).toList) := by
  obtain ⟨ps, hps, rfl⟩ := h
  rw [emphasize_terminalText hps, String.toList_ofList, String.toList_ofList]
  exact Terminal.forall₂_markers hps

end IsSpelled

/-- A text in which nothing is colored. -/
def IsColorless (text : String) : Prop :=
  ∀ style : Style, style.isColor = true → occurrences style.sequence.toList text.toList = 0

/-- A text with at most one part in a style. -/
inductive IsItem : String → Prop
  | plain {text : String} (h : IsPlain text) : IsItem text
  | painted {before text after : String} (style : Style) (hstyle : style ≠ .reset)
    (hbefore : IsPlain before) (htext : IsPlain text) (hafter : IsPlain after) :
    IsItem (before ++ paint style.sequence text ++ after)

/-- An item can be spelled in pieces. -/
theorem IsItem.isSpelled {item : String} (h : IsItem item) : IsSpelled item := by
  cases h with
  | plain hplain => exact .of_isPlain hplain
  | painted style _ hbefore htext hafter =>
    exact ((IsSpelled.of_isPlain hbefore).append (.paint style htext)).append (.of_isPlain hafter)

/-- A plain text may follow. -/
theorem IsItem.append {item text : String} (h : IsItem item) (htext : IsPlain text) :
    IsItem (item ++ text) := by
  cases h with
  | plain hplain => exact .plain (isPlain_append_iff.mpr ⟨hplain, htext⟩)
  | painted style hstyle hbefore hpainted hafter =>
    rw [String.append_assoc]
    exact .painted style hstyle hbefore hpainted (isPlain_append_iff.mpr ⟨hafter, htext⟩)

/-- A plain text with a part in a style at its end. -/
theorem IsItem.ending {before text : String} (style : Style) (hstyle : style ≠ .reset)
    (hbefore : IsPlain before) (htext : IsPlain text) :
    IsItem (before ++ Terminal.paint style.sequence text) := by
  have hempty : IsPlain "" := by decide
  have h := IsItem.painted style hstyle hbefore htext hempty
  rwa [String.append_empty] at h

/-- A part in a style with nothing before or after it. -/
theorem IsItem.alone {text : String} (style : Style) (hstyle : style ≠ .reset)
    (htext : IsPlain text) : IsItem (Terminal.paint style.sequence text) := by
  have hempty : IsPlain "" := by decide
  have h := IsItem.ending style hstyle hempty htext
  rwa [String.empty_append] at h

section Items

variable {ps : List Piece}

/-- The pieces of a text with a part in a style. -/
def paintedPieces (before text after : List Char) (style : Style) : List Piece :=
  before.map .char ++ .switch style :: (text.map .char ++ .switch .reset :: after.map .char)

/-- The pieces of a painted text spell it with what is before and after. -/
theorem terminalText_paintedPieces (before text after : String) (style : Style) :
    String.ofList (terminalText (paintedPieces before.toList text.toList after.toList style)) =
      before ++ paint style.sequence text ++ after := by
  apply String.toList_inj.mp
  simp only [paintedPieces, terminalText_append, terminalText_cons, terminalText_map_char, paint,
    String.toList_ofList, String.toList_append, List.append_assoc]
  rfl

/-- A text renders itself if no emphasis is open at the end of a line, and what is emphasized is
what is in bold. -/
theorem renders_terminalText_iff (h : ∀ p ∈ ps, p.IsPlain) :
    Renders (String.ofList (terminalText ps)) (emphasize (String.ofList (terminalText ps))) ↔
      (stateAfter Style.toggle false ps = false ∧
        ('\n', true) ∉ annotate Style.toggle false ps) ∧
          annotate Style.toggle false ps = annotate Style.weigh false ps := by
  have hbare := IsSpelled.unmarked_emphasize ⟨ps, h, rfl⟩
  rw [← isBalanced_markedText_iff h, isBalanced_false_iff, ← readFrom_markedText h,
    ← shownFrom_terminalText h]
  constructor
  · rintro ⟨hbalanced, hheavy, -⟩
    rw [emphasize_terminalText h, String.toList_ofList] at hbalanced hheavy
    rw [String.toList_ofList] at hheavy
    exact ⟨hbalanced, hheavy⟩
  · rintro ⟨hbalanced, hheavy⟩
    refine ⟨?_, ?_, hbare⟩
    · rw [emphasize_terminalText h, String.toList_ofList]
      exact hbalanced
    · rw [emphasize_terminalText h, String.toList_ofList, String.toList_ofList]
      exact hheavy

/-- The pieces of a painted plain text are plain. -/
theorem isPlain_paintedPieces {before text after : String} (hbefore : IsPlain before)
    (htext : IsPlain text) (hafter : IsPlain after) (style : Style) :
    ∀ p ∈ paintedPieces before.toList text.toList after.toList style, p.IsPlain := by
  refine List.forall_mem_append.mpr ⟨forall_isPlain_map_char hbefore, ?_⟩
  refine List.forall_mem_cons.mpr ⟨trivial, ?_⟩
  refine List.forall_mem_append.mpr ⟨forall_isPlain_map_char htext, ?_⟩
  exact List.forall_mem_cons.mpr ⟨trivial, forall_isPlain_map_char hafter⟩

/-- Only what is painted can have another weight. -/
theorem annotate_paintedPieces (next : Style → Bool → Bool) (before text after : List Char)
    (style : Style) :
    annotate next false (paintedPieces before text after style) =
      before.map (·, false) ++ (text.map (·, next style false) ++
        after.map (·, next .reset (next style false))) := by
  simp only [paintedPieces, annotate_append, annotate, annotate_map_char, stateAfter_map_char]

/-- After a painted text comes what the reset leads to. -/
theorem stateAfter_paintedPieces (next : Style → Bool → Bool) (before text after : List Char)
    (style : Style) :
    stateAfter next false (paintedPieces before text after style) =
      next .reset (next style false) := by
  simp only [paintedPieces, stateAfter_append, stateAfter, stateAfter_map_char]

/-- A painted text switches once to its own style and to no other. -/
theorem count_paintedPieces (before text after : List Char) {style other : Style}
    (h : other ≠ .reset) :
    (paintedPieces before text after style).count (.switch other) =
      if style = other then 1 else 0 := by
  simp [paintedPieces, List.count_append, List.count_cons, count_map_char, h.symm]

/-- A text with a part in a style is colorless if the style is none of a color. -/
theorem isColorless_painted_iff {before text after : String} {style : Style}
    (hbefore : IsPlain before) (htext : IsPlain text) (hafter : IsPlain after) :
    IsColorless (before ++ paint style.sequence text ++ after) ↔ style.isColor = false := by
  have hplain := isPlain_paintedPieces hbefore htext hafter style
  have hcount : ∀ other : Style, other.isColor = true →
      occurrences other.sequence.toList (before ++ paint style.sequence text ++ after).toList =
        if style = other then 1 else 0 := by
    rintro other hother
    have hreset : other ≠ .reset := by
      rintro rfl
      cases hother
    rw [← terminalText_paintedPieces, String.toList_ofList, occurrences_terminalText hplain,
      count_paintedPieces _ _ _ hreset]
  constructor
  · intro h
    by_contra hcolor
    rw [Bool.not_eq_false] at hcolor
    have hnone := h style hcolor
    rw [hcount style hcolor, if_pos rfl] at hnone
    cases hnone
  · intro hcolor other hother
    have hne : style ≠ other := by
      rintro rfl
      rw [hcolor] at hother
      cases hother
    rw [hcount other hother, if_neg hne]

/-- A plain text has no colors. -/
theorem isColorless_of_isPlain {text : String} (h : IsPlain text) : IsColorless text := by
  intro style _
  have hcount := occurrences_terminalText (forall_isPlain_map_char h) style
  rwa [terminalText_map_char, count_map_char] at hcount

variable {item : String}

/-- An item in which something is colored has a line with a marker left over. -/
theorem IsItem.exists_not_even (h : IsItem item) (hcolored : ¬IsColorless item) :
    ∃ line ∈ Text.splitOn '\n' (emphasize item).toList, ¬Even (markers line) := by
  cases h with
  | plain hplain => exact absurd (isColorless_of_isPlain hplain) hcolored
  | @painted before text after style hstyle hbefore htext hafter =>
    rw [isColorless_painted_iff hbefore htext hafter, Bool.not_eq_false] at hcolored
    have hplain := isPlain_paintedPieces hbefore htext hafter style
    by_contra heven
    simp only [not_exists, not_and, not_not] at heven
    rw [← terminalText_paintedPieces, emphasize_terminalText hplain, String.toList_ofList,
      ← isBalanced_false_iff, isBalanced_markedText_iff hplain, stateAfter_paintedPieces] at heven
    cases style with
    | reset | bold => cases hcolored
    | grey | green | yellow | red => cases heven.1

/-- Where emphasis agrees with weight, only a line that ends within it is not rendered. -/
theorem renders_iff_newline_notMem (h : ∀ p ∈ ps, p.IsPlain)
    (hstate : stateAfter Style.toggle false ps = false)
    (hsame : annotate Style.toggle false ps = annotate Style.weigh false ps) :
    Renders (String.ofList (terminalText ps)) (emphasize (String.ofList (terminalText ps))) ↔
      ('\n', true) ∉ shownFrom false 0 (String.ofList (terminalText ps)).toList := by
  rw [renders_terminalText_iff h, String.toList_ofList, shownFrom_terminalText h, hsame,
    and_iff_left rfl, and_iff_right hstate]

/-- An item is rendered exactly if nothing in it is colored and no line ends in its bold part. -/
theorem IsItem.renders_iff (h : IsItem item) :
    Renders item (emphasize item) ↔
      IsColorless item ∧ ('\n', true) ∉ shownFrom false 0 item.toList := by
  by_cases hcolorless : IsColorless item
  · rw [and_iff_right hcolorless]
    cases h with
    | @plain text hplain =>
      have hsame := annotate_map_char Style.toggle false item.toList
      rw [← annotate_map_char Style.weigh] at hsame
      have hiff := renders_iff_newline_notMem (forall_isPlain_map_char hplain)
        (stateAfter_map_char _ _ _) hsame
      rwa [terminalText_map_char, String.ofList_toList] at hiff
    | @painted before text after style hstyle hbefore htext hafter =>
      rw [isColorless_painted_iff hbefore htext hafter] at hcolorless
      obtain rfl : style = .bold := by
        cases style <;> first | rfl | exact absurd rfl hstyle | cases hcolorless
      rw [← terminalText_paintedPieces]
      refine renders_iff_newline_notMem (isPlain_paintedPieces hbefore htext hafter .bold) ?_ ?_
      · rw [stateAfter_paintedPieces]
        rfl
      · rw [annotate_paintedPieces, annotate_paintedPieces]
        rfl
  · obtain ⟨line, hline, hodd⟩ := h.exists_not_even hcolorless
    exact iff_of_false (fun hrenders => hodd (hrenders.balanced line hline)) fun h => hcolorless h.1

end Items

/-! ## Items line after line -/

section Lines

variable {items : List String}

/-- An item stands on lines of its own. -/
theorem mem_splitOn_intercalate {item : String} (hitem : item ∈ items) {line : List Char}
    (hline : line ∈ Text.splitOn '\n' item.toList) :
    line ∈ Text.splitOn '\n' (String.intercalate "\n" items).toList := by
  induction items with
  | nil => cases hitem
  | cons first items ih =>
    cases items with
    | nil =>
      rw [String.intercalate_singleton, ← List.mem_singleton.mp hitem]
      exact hline
    | cons second more =>
      have hsplit : Text.splitOn '\n' (String.intercalate "\n" (first :: second :: more)).toList =
          Text.splitOn '\n' first.toList ++
            Text.splitOn '\n' (String.intercalate "\n" (second :: more)).toList := by
        rw [← Text.splitOn_append_sep, String.intercalate_cons_cons, String.toList_append,
          String.toList_append, List.append_assoc]
        rfl
      rw [hsplit, List.mem_append]
      rcases List.mem_cons.mp hitem with rfl | hitem
      · exact .inl hline
      · exact .inr (ih hitem)

theorem isPlain_newline : IsPlain "\n" := by decide

/-- In a plain text there is nothing to mark. -/
theorem emphasize_of_isPlain {text : String} (h : IsPlain text) : emphasize text = text := by
  have hemphasize := emphasize_terminalText (forall_isPlain_map_char h)
  rwa [terminalText_map_char, markedText_map_char, String.ofList_toList] at hemphasize

/-- Texts line after line are marked text by text. -/
theorem isSpelled_intercalate (h : ∀ item ∈ items, IsSpelled item) :
    IsSpelled (String.intercalate "\n" items) ∧
      emphasize (String.intercalate "\n" items) =
        String.intercalate "\n" (items.map emphasize) := by
  induction items with
  | nil => exact ⟨.of_isPlain (by decide), rfl⟩
  | cons first items ih =>
    obtain ⟨hfirst, hitems⟩ := List.forall_mem_cons.mp h
    cases items with
    | nil =>
      rw [List.map_singleton, String.intercalate_singleton, String.intercalate_singleton]
      exact ⟨hfirst, rfl⟩
    | cons second more =>
      obtain ⟨hmore, hemphasize⟩ := ih hitems
      have hnewline := IsSpelled.of_isPlain isPlain_newline
      rw [List.map_cons, List.map_cons, String.intercalate_cons_cons, String.intercalate_cons_cons]
      refine ⟨(hfirst.append hnewline).append hmore, ?_⟩
      rw [(hfirst.append hnewline).emphasize_append hmore, hfirst.emphasize_append hnewline,
        emphasize_of_isPlain isPlain_newline, hemphasize]
      rfl

/-- What becomes of items that are marked line after line. -/
structure MarksItems (items : List String) (terminal marked : String) : Prop where
  terminal_eq : terminal = String.intercalate "\n" items
  /-- Each item is marked by itself. -/
  marked_eq : marked = String.intercalate "\n" (items.map emphasize)
  /-- Without markers the text is the one without sequences. -/
  bare : unmarked marked.toList = (strip terminal).toList
  /-- A line has as many markers as it has sequences for bold and for the end of a style. -/
  counted : List.Forall₂
    (fun line line' => markers line' = occurrences bold.toList line + occurrences reset.toList line)
    (Text.splitOn '\n' terminal.toList) (Text.splitOn '\n' marked.toList)
  /-- An item is rendered exactly if nothing in it is colored and no line ends in its bold part. -/
  renders_iff : ∀ item ∈ items, Renders item (emphasize item) ↔
    IsColorless item ∧ ('\n', true) ∉ shownFrom false 0 item.toList
  /-- Some line has a marker left over. -/
  not_balanced : ∃ line ∈ Text.splitOn '\n' marked.toList, ¬Even (markers line)

/-- The text of items is never rendered if one of them is colored. -/
theorem marksItems_intercalate (h : ∀ item ∈ items, IsItem item)
    (hcolored : ∃ item ∈ items, ¬IsColorless item) :
    MarksItems items (String.intercalate "\n" items)
      (emphasize (String.intercalate "\n" items)) := by
  obtain ⟨hspelled, hmarked⟩ := isSpelled_intercalate fun item hitem => (h item hitem).isSpelled
  refine ⟨rfl, hmarked, hspelled.unmarked_emphasize, hspelled.forall₂_markers,
    fun item hitem => (h item hitem).renders_iff, ?_⟩
  obtain ⟨item, hitem, hitem_colored⟩ := hcolored
  obtain ⟨line, hline, hodd⟩ := (h item hitem).exists_not_even hitem_colored
  refine ⟨line, ?_, hodd⟩
  rw [hmarked]
  exact mem_splitOn_intercalate (List.mem_map_of_mem hitem) hline

end Lines

end DesignTokens.Terminal

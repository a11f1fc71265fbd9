import DesignTokens.Proofs.Token.Place
import Mathlib.Data.List.Sort

/-!
# Positions of occurrences

What a format of the sets finds in a content, told by the lines of the content alone. Each
occurrence is what the pattern prefers at its place, the occurrences of a line do not overlap, and
every place where the pattern takes some text lies in one of them. This leaves no choice: only one
list of occurrences has these properties.
-/

namespace DesignTokens

namespace Occurrence

/-- One occurrence ends before another begins. -/
def Clears (o o' : Occurrence) : Prop :=
  o.line < o'.line ∨ o.line = o'.line ∧ o.column + o.matchedText.length ≤ o'.column

/-- The occurrence extends over a place of its content. -/
def Covers (o : Occurrence) (line start : Nat) : Prop :=
  o.line = line + 1 ∧ o.column ≤ start + 1 ∧ start + 1 < o.column + o.matchedText.length

theorem Clears.before {o o' : Occurrence} (h : o.Clears o') (hne : o.matchedText ≠ "") :
    o.Before o' := by
  have hlength : o.matchedText.length ≠ 0 := fun h => hne (String.length_eq_zero_iff.mp h)
  unfold Clears at h
  unfold Before
  omega

end Occurrence

/-- The part of a line around an index, by the bounds that the line leaves. -/
theorem contextAround_eq_extract (line : List Char) (index width : Nat) :
    contextAround line index width =
      line.extract (index - width) (min line.length (index + width)) := by
  have hstart : (max 0 ((index : Int) - width)).toNat = index - width := by omega
  have hstop : (min (line.length : Int) (index + width)).toNat =
      min line.length (index + width) := by omega
  unfold contextAround slice
  dsimp only
  rw [if_neg (by omega), if_neg (by omega), hstart, hstop, List.drop_take]

namespace TokenFormat

/-- An occurrence tells what a format has at a place of a content. -/
structure IsFaithful (f : TokenFormat) (content path : String) (width : Nat) (o : Occurrence) :
    Prop where
  line : 0 < o.line
  column : 0 < o.column
  taking : o.matchedText ≠ ""
  /-- The matched text stands in the line at the column, and it is what the pattern prefers
  there. -/
  matched : ∃ rest, textAt content (o.line - 1) (o.column - 1) = o.matchedText.toList ++ rest ∧
    f.pattern.Prefers o.matchedText.toList rest
  /-- The context is the part of the line on both sides of the place, as far as the line goes. -/
  context : o.context = String.ofList ((textAt content (o.line - 1) 0).extract
    (o.column - 1 - width)
    (min (textAt content (o.line - 1) 0).length (o.column - 1 + width)))
  filePath : o.filePath = path
  formatName : o.formatName = f.name

/-- A list of occurrences tells all that a format has in a content. -/
structure IsReading (f : TokenFormat) (content path : String) (width : Nat)
    (os : List Occurrence) : Prop where
  faithful : ∀ o ∈ os, f.IsFaithful content path width o
  /-- The occurrences are in the order of the content and do not overlap. -/
  apart : os.Pairwise Occurrence.Clears
  /-- Where the pattern takes some text there is an occurrence, or the place is inside one. -/
  complete : ∀ line start t rest, textAt content line start = t ++ rest →
    f.pattern.Takes t rest → ∃ o ∈ os, o.Covers line start

variable {f : TokenFormat} {content path : String} {width : Nat} {os os' : List Occurrence}
  {o o' : Occurrence}

/-- The occurrence at a place is what the format prefers there. -/
theorem IsFaithful.eq (h : f.IsFaithful content path width o)
    (h' : f.IsFaithful content path width o') (hline : o.line = o'.line)
    (hcolumn : o.column = o'.column) : o = o' := by
  obtain ⟨rest, htext, hprefers⟩ := h.matched
  obtain ⟨rest', htext', hprefers'⟩ := h'.matched
  rw [← hline, ← hcolumn, htext] at htext'
  have hmatched : o.matchedText = o'.matchedText :=
    String.ext (hprefers.unique hprefers' htext').1
  have hcontext := h.context
  rw [hline, hcolumn, ← h'.context] at hcontext
  have hpath := h.filePath.trans h'.filePath.symm
  have hname := h.formatName.trans h'.formatName.symm
  cases o
  cases o'
  simp_all

/-- What is noted at a match of the pattern is faithful. -/
theorem isFaithful_noted (hf : f.pattern.IsTaking) {line start : Nat} {m : Pattern.Match}
    (hm : f.pattern.matchAt (textAt content line start) = some m) :
    f.IsFaithful content path width (f.noted content path width line start m).2 := by
  obtain ⟨htext, hprefers⟩ := Pattern.prefers_of_matchAt hm
  refine ⟨Nat.succ_pos _, Nat.succ_pos _, ?_, ⟨m.rest, ?_, ?_⟩, ?_, rfl, rfl⟩
  · exact fun h => hf _ _ hm (String.ofList_eq_empty_iff.mp h)
  · simpa [noted] using htext
  · simpa [noted] using hprefers
  · simp only [noted, contextAround_eq_extract]
    rfl

/-- What a format finds in a content is a reading of it. -/
theorem isReading_occurrences (hf : f.pattern.IsTaking) (content path : String) (width : Nat) :
    f.IsReading content path width (f.occurrences content path width) := by
  refine ⟨fun o ho => ?_, ?_, fun line start t rest htext htakes => ?_⟩
  · obtain ⟨x, hx, rfl⟩ := List.mem_map.mp ho
    obtain ⟨line, l, m, hline, hm, rfl⟩ := mem_matchesIn.mp hx
    obtain ⟨i, hstart, -, hmatch⟩ := (hf.isLeftmost_findAll l).matched m hm
    rw [Nat.zero_add] at hstart
    rw [hstart]
    refine isFaithful_noted hf ?_
    rwa [textAt_of_line hline]
  · refine List.pairwise_map.mpr (pairwise_matchesIn (fun line l _ => ?_) fun x y => .inl)
    refine (hf.isLeftmost_findAll l).apart.imp fun {m m'} hapart => .inr ⟨rfl, ?_⟩
    simp only [noted, String.length_ofList]
    unfold Pattern.Found.stop at hapart
    omega
  · obtain ⟨m, hm⟩ := htakes.exists_matchAt
    rw [← htext] at hm
    obtain ⟨l, hline⟩ := exists_line_of_matchAt hf hm
    rw [textAt_of_line hline] at hm
    obtain ⟨found, hfound, hle, hlt⟩ :=
      (hf.isLeftmost_findAll l).covered start m (Nat.zero_le _) hm
    refine ⟨(f.noted content path width line found.start found.found).2,
      List.mem_map_of_mem (mem_matchesIn.mpr ⟨line, l, found, hline, hfound, rfl⟩), rfl, ?_, ?_⟩
    · simp only [noted]
      omega
    · simp only [noted, String.length_ofList]
      unfold Pattern.Found.stop at hlt
      omega

/-- Of two occurrences in a reading, none is inside the other. -/
theorem IsReading.clears (h : f.IsReading content path width os) (ho : o ∈ os) (ho' : o' ∈ os)
    (hlt : o.Before o') : o.Clears o' := by
  have hone : os.Pairwise fun o o' => o.Clears o' ∨ o'.Clears o := h.apart.imp .inl
  have : Std.Symm fun o o' : Occurrence => o.Clears o' ∨ o'.Clears o := ⟨fun _ _ => Or.symm⟩
  have hne : o ≠ o' := ne_of_irrefl hlt
  rcases hone.forall ho ho' hne with hclears | hclears
  · exact hclears
  · exact absurd (antisymm hlt (hclears.before (h.faithful o' ho').taking)) hne

/-- What is in one reading is in any other. -/
theorem IsReading.mem (h : f.IsReading content path width os)
    (h' : f.IsReading content path width os') (ho : o ∈ os) : o ∈ os' := by
  -- The first occurrence in which two readings differ would be covered in one of them by an
  -- occurrence that starts before it, and that occurrence is in both.
  induction hcolumn : o.column using Nat.strongRecOn generalizing o os os' with
  | ind column ih =>
    have hfaithful := h.faithful o ho
    obtain ⟨rest, htext, hprefers⟩ := hfaithful.matched
    obtain ⟨o', ho', hline, hle, hlt⟩ := h'.complete _ _ _ _ htext hprefers.takes
    rw [Nat.sub_add_cancel hfaithful.line] at hline
    rw [Nat.sub_add_cancel hfaithful.column] at hle hlt
    rcases Nat.eq_or_lt_of_le hle with heq | hbefore
    · rwa [hfaithful.eq (h'.faithful o' ho') hline.symm heq.symm]
    · have hmem : o' ∈ os := ih o'.column (hcolumn ▸ hbefore) h' h ho' rfl
      have hclears := h.clears hmem ho (.inr ⟨hline, .inl hbefore⟩)
      unfold Occurrence.Clears at hclears
      omega

/-- What a format of the sets finds in a content are the leftmost matches of its lines that do not
overlap, each with its place, its text and the part of the line around it; and nothing else is a
list of them. -/
theorem occurrences_eq_iff_isReading {preset : String × List TokenFormat}
    (hpreset : preset ∈ presets) (hf : f ∈ preset.2) :
    f.occurrences content path width = os ↔ f.IsReading content path width os := by
  have htaking := Pattern.isTaking_of_nullable (nullable_presets preset hpreset f hf)
  have hreading := isReading_occurrences htaking content path width
  constructor
  · rintro rfl
    exact hreading
  · intro h
    have hbefore : ∀ {os : List Occurrence}, f.IsReading content path width os →
        os.Pairwise Occurrence.Before := fun h =>
      h.apart.imp_of_mem fun ho _ hclears => hclears.before (h.faithful _ ho).taking
    exact (hbefore hreading).eq_of_mem_iff (hbefore h) fun o =>
      ⟨hreading.mem h, h.mem hreading⟩

/-- The general format for lists of classes. -/
def classes : TokenFormat := general.get ⟨3, by decide⟩

theorem isReading_classes : ("default", general) ∈ presets ∧ classes ∈ general ∧
    classes.IsReading "<p>\n<b class=\"m-1 a\"><i class='p-2'>" "a.html" 3
      [⟨"a.html", 2, 4, "<b cla", "class=\"m-1 a", "tailwind-classes"⟩,
        ⟨"a.html", 2, 21, "<i cla", "class='p-2", "tailwind-classes"⟩] := by
  have hpreset : ("default", general) ∈ presets := List.mem_cons_of_mem _ List.mem_cons_self
  have hclasses : classes ∈ general := List.get_mem _ _
  exact ⟨hpreset, hclasses, (occurrences_eq_iff_isReading hpreset hclasses).mp (by decide +kernel)⟩

end TokenFormat

end DesignTokens

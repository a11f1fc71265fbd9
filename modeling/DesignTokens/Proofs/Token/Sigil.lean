import DesignTokens.Proofs.Token.Grouping
import DesignTokens.Proofs.Token.Variable

/-!
# Variables with a sigil

The general format for variables refers to a token at every sigil that stands before a character of
a name, and nowhere else. The name goes on as long as there are such characters; so the usages of a
stylesheet count the names after its sigils.
-/

namespace DesignTokens

open Pattern

namespace TokenFormat

/-- The general format for variables with the sigil. -/
def sigiled : TokenFormat := general.get ⟨1, by decide⟩

theorem keepsApart_sigiled : sigiled.pattern.KeepsApart :=
  keepsApart_seq_lit (c := '$') rfl (by decide) rfl

/-- The reference to a variable before a text: its name is the longest run of name characters. -/
def variableBefore (tail : List Char) : Match :=
  ⟨'$' :: tail.takeWhile isNameChar, tail.dropWhile isNameChar,
    [⟨1, tail, tail.dropWhile isNameChar⟩]⟩

theorem tokenName_variableBefore {tail : List Char} (h : tail.takeWhile isNameChar ≠ []) :
    (variableBefore tail).tokenName = tail.takeWhile isNameChar := by
  have hcapture : (variableBefore tail).capture 1 = tail.takeWhile isNameChar :=
    before_dropWhile isNameChar tail
  exact (Match.tokenName_of_capture (hcapture ▸ h)).trans hcapture

/-- A sigil with a name after it is a reference to this name. -/
theorem matchAt_sigiled {tail : List Char} (h : tail.takeWhile isNameChar ≠ []) :
    sigiled.pattern.matchAt ('$' :: tail) = some (variableBefore tail) := by
  change exec (seq (lit "$") (group 1 (many1 isNameChar))) ("$".toList ++ tail) [] _ = _
  rw [exec.eq_4, exec_lit_append_left, exec.eq_7, exec_many1 rfl, if_neg h]
  exact congrArg (fun text => some (Match.mk text _ _))
    (before_append_dropWhile isNameChar ['$'] tail)

/-- Nothing else is a reference. -/
theorem exists_of_matchAt_sigiled {s : List Char} {m : Match}
    (h : sigiled.pattern.matchAt s = some m) :
    ∃ tail, s = '$' :: tail ∧ tail.takeWhile isNameChar ≠ [] := by
  change exec (seq (lit "$") (group 1 (many1 isNameChar))) s [] _ = _ at h
  rw [exec.eq_4] at h
  obtain ⟨tail, rfl, h⟩ := exists_of_exec_lit h
  rw [exec.eq_7] at h
  exact ⟨tail, rfl, takeWhile_ne_nil_of_exec_many1 h⟩

/-- Whether a text begins with a sigil and a character of a name. -/
def opensName : List Char → Bool
  | '$' :: c :: _ => isNameChar c
  | _ => false

theorem opensName_iff {s : List Char} :
    opensName s = true ↔ ∃ tail, s = '$' :: tail ∧ tail.takeWhile isNameChar ≠ [] := by
  constructor
  · intro h
    unfold opensName at h
    split at h
    next c tail => exact ⟨c :: tail, rfl, by simp [h]⟩
    next => cases h
  · rintro ⟨tail, rfl, hname⟩
    cases tail with
    | nil => exact absurd rfl hname
    | cons c tail =>
      by_contra hc
      exact hname (List.takeWhile_cons_of_neg hc)

/-- The places of a content where a sigil stands before a character of a name, each given by its
line and its index in the line. -/
def sigils (content : String) : List (Nat × Nat) :=
  (Text.splitOn '\n' content.toList).zipIdx.flatMap fun l =>
    ((List.range l.1.length).filter fun start => opensName (l.1.drop start)).map fun start =>
      (l.2, start)

/-- The longest run of name characters behind the character at a place. -/
def nameAfter (content : String) (place : Nat × Nat) : String :=
  String.ofList ((textAt content place.1 (place.2 + 1)).takeWhile isNameChar)

/-- The reference to the variable at a place: its name and the occurrence. -/
def variableAt (content path : String) (contextLength : Int) (place : Nat × Nat) :
    String × Occurrence :=
  (nameAfter content place,
    { filePath := path
      line := place.1 + 1
      column := place.2 + 1
      context := String.ofList
        (contextAround (textAt content place.1 0) place.2 contextLength)
      matchedText := "$" ++ nameAfter content place
      formatName := sigiled.name })

variable {content path : String} {contextLength : Int}

theorem mem_sigils_iff {line start : Nat} :
    (line, start) ∈ sigils content ↔ opensName (textAt content line start) = true := by
  simp only [sigils, List.mem_flatMap, List.mem_map, List.mem_filter, List.mem_range,
    Prod.mk.injEq]
  constructor
  · rintro ⟨⟨l, i⟩, hl, start, ⟨-, hopens⟩, rfl, rfl⟩
    rwa [textAt_of_line (List.mem_zipIdx_iff_getElem?.mp hl)]
  · intro hopens
    obtain ⟨tail, htail, -⟩ := opensName_iff.mp hopens
    obtain ⟨l, hline⟩ := exists_line_of_textAt (by rw [htail]; exact List.cons_ne_nil _ _)
    rw [textAt_of_line hline] at hopens htail
    have hlt : start < l.length := by
      by_contra hout
      rw [List.drop_of_length_le (Nat.le_of_not_lt hout)] at htail
      cases htail
    exact ⟨(l, line), List.mem_zipIdx_iff_getElem?.mpr hline, start, ⟨hlt, hopens⟩, rfl, rfl⟩

/-- The sigils are in the order of the content. -/
theorem pairwise_sigils (content : String) :
    (sigils content).Pairwise fun p p' => p.1 < p'.1 ∨ p.1 = p'.1 ∧ p.2 < p'.2 := by
  refine pairwise_flatMap_zipIdx (fun line l _ => ?_) fun l l' hlt p hp p' hp' => .inl ?_
  · rw [List.pairwise_map]
    exact (List.pairwise_lt_range.filter _).imp fun hlt => .inr ⟨rfl, hlt⟩
  · obtain ⟨start, -, rfl⟩ := List.mem_map.mp hp
    obtain ⟨start', -, rfl⟩ := List.mem_map.mp hp'
    exact hlt

/-- What is noted at a sigil is the reference to its variable. -/
theorem noted_sigiled {line start : Nat} {tail : List Char}
    (h : textAt content line start = '$' :: tail) (hname : tail.takeWhile isNameChar ≠ []) :
    sigiled.noted content path contextLength line start (variableBefore tail) =
      variableAt content path contextLength (line, start) := by
  have hafter : textAt content line (start + 1) = tail := by
    have hdrop : textAt content line (start + 1) = (textAt content line start).drop 1 := by
      unfold textAt
      rw [List.drop_drop]
    rw [hdrop, h]
    rfl
  unfold noted variableAt nameAfter
  rw [tokenName_variableBefore hname, hafter]
  simp only [variableBefore, Prod.mk.injEq, Occurrence.mk.injEq, true_and, and_true]
  refine ⟨rfl, ?_⟩
  change String.ofList (['$'] ++ _) = _
  exact String.ofList_append

/-- The format refers to tokens at the sigils of a content. -/
theorem matchesIn_sigiled (content path : String) (contextLength : Int) :
    sigiled.matchesIn content path contextLength =
      (sigils content).map (variableAt content path contextLength) := by
  have hirrefl : Std.Irrefl fun x y : String × Occurrence => x.2.Before y.2 :=
    ⟨fun x => irrefl x.2⟩
  have hantisymm : Std.Antisymm fun x y : String × Occurrence => x.2.Before y.2 :=
    ⟨fun x y h h' => absurd (antisymm h h') (ne_of_irrefl h)⟩
  have hfound := List.pairwise_map.mp (pairwise_occurrences sigiled content path contextLength)
  have hsigils : ((sigils content).map (variableAt content path contextLength)).Pairwise
      fun x y => x.2.Before y.2 := by
    refine List.pairwise_map.mpr ((pairwise_sigils content).imp ?_)
    rintro p p' (hline | ⟨hline, hstart⟩)
    · exact .inl (Nat.succ_lt_succ hline)
    · exact .inr ⟨congrArg (· + 1) hline, .inl (Nat.succ_lt_succ hstart)⟩
  refine hfound.eq_of_mem_iff hsigils fun x => ?_
  rw [mem_matchesIn_iff keepsApart_sigiled, List.mem_map]
  constructor
  · rintro ⟨line, start, m, hm, rfl⟩
    obtain ⟨tail, htail, hname⟩ := exists_of_matchAt_sigiled hm
    rw [htail, matchAt_sigiled hname] at hm
    obtain rfl := Option.some.inj hm
    exact ⟨(line, start), mem_sigils_iff.mpr (opensName_iff.mpr ⟨tail, htail, hname⟩),
      (noted_sigiled htail hname).symm⟩
  · rintro ⟨⟨line, start⟩, hmem, rfl⟩
    obtain ⟨tail, htail, hname⟩ := opensName_iff.mp (mem_sigils_iff.mp hmem)
    refine ⟨line, start, variableBefore tail, ?_, (noted_sigiled htail hname).symm⟩
    rw [htail]
    exact matchAt_sigiled hname

end TokenFormat

namespace Usage

open TokenFormat

/-- The references to variables in a content are at its sigils, one at each, with the longest names
there are; and the usages of a stylesheet count these names. -/
theorem counts_sigils (content path : String) (contextLength : Int) :
    (sigils content).Nodup ∧
      (∀ line start, (line, start) ∈ sigils content ↔
        opensName (textAt content line start) = true) ∧
      sigiled.matchesIn content path contextLength =
        (sigils content).map (variableAt content path contextLength) ∧
      (∃ us, inFile general content path contextLength none = .ok us) ∧
      ∀ categorizer us, IsSass path →
        inFile general content path contextLength categorizer = .ok us →
          Counts us sigiled ((sigils content).map (nameAfter content)) := by
  refine ⟨(pairwise_sigils content).imp ?_, fun _ _ => mem_sigils_iff,
    matchesIn_sigiled content path contextLength,
    exists_inFile general content path contextLength none nofun,
    fun categorizer us hpath h => ?_⟩
  · rintro p _ hbefore rfl
    omega
  · have hcounts := counts_of_inFile nodup_name_general (List.get_mem general ⟨1, by decide⟩)
      (appliesTo_of_isSass rfl hpath) h
    change Counts us sigiled ((sigiled.matchesIn content path contextLength).map (·.1)) at hcounts
    rw [matchesIn_sigiled, List.map_map] at hcounts
    exact hcounts

theorem counts_sigils_inStylesheet : IsSass "a.scss" ∧
    ∃ us, inFile general "$a$b-2 $-$$a;\n$" "a.scss" 0 none = .ok us ∧
      Counts us sigiled ["a", "b-2", "-", "a"] := by
  have hpath : IsSass "a.scss" := by decide
  obtain ⟨-, -, -, ⟨us, hus⟩, hcounts⟩ := counts_sigils "$a$b-2 $-$$a;\n$" "a.scss" 0
  exact ⟨hpath, us, hus, hcounts none us hpath hus⟩

end Usage

end DesignTokens

import DesignTokens.Proofs.Diff.Account

/-!
# Line numbers of changes

While a diff is read a counter goes along: the header of a hunk sets it, and of the other lines all
but those that begin with a dash advance it. So the number of a change can be told from the text
before its own line alone: it is the start in the last header before that line, and the count of
the lines between that do not begin with a dash. Which lines were paired has no part in it.
-/

namespace DesignTokens

namespace DiffLine

/-- The start of the hunk in the old file, in a line that is the header of a hunk. -/
def hunkStart? (line : List Char) : Option Nat :=
  (hunkDigits? line).map fun digits => Text.ofDigits (digits.filterMap Text.digitValue?)

/-- Whether a line does not begin with a dash. -/
def isCounted (line : List Char) : Bool := !List.isPrefixOf ['-'] line

/-- The counter behind a line. -/
def counterAfter (n : Nat) : DiffLine → Nat
  | .hunk start => start
  | .removed _ => n
  | .added _ => n + 1
  | .other advances => if advances then n + 1 else n

private theorem isCounted_of_isRemoved {line : List Char} (h : isRemoved line = true) :
    isCounted line = false := by
  unfold isRemoved at h
  rw [Pattern.begins_lit, Bool.and_eq_true] at h
  exact congrArg not h.1

private theorem isCounted_of_isAdded {line : List Char} (h : isAdded line = true) :
    isCounted line = true := by
  cases line with
  | nil => rfl
  | cons c s =>
    have hc : c ≠ '-' := by
      rintro rfl
      simp [isAdded, Pattern.begins_lit] at h
    simp [isCounted, List.isPrefixOf, hc.symm]

/-- The counter goes on as the text of the line says. -/
theorem Reads.counterAfter_eq {line : List Char} {l : DiffLine} (h : Reads line l) (n : Nat) :
    l.counterAfter n = (hunkStart? line).getD (if isCounted line then n + 1 else n) := by
  have hread := h.read
  cases hdigits : hunkDigits? line with
  | some digits =>
    rw [read_of_hunkDigits? hdigits] at hread
    split at hread
    · cases hread
    · obtain rfl := Except.ok.inj hread
      simp [hunkStart?, hdigits, counterAfter]
  | none =>
    rw [read_of_hunkDigits?_eq_none hdigits] at hread
    obtain rfl := Except.ok.inj hread
    simp only [hunkStart?, hdigits, Option.map_none, Option.getD_none]
    cases hr : isRemoved line with
    | true => simp [counterAfter, isCounted_of_isRemoved hr]
    | false =>
      cases ha : isAdded line with
      | true => simp [counterAfter, isCounted_of_isAdded ha]
      | false => simp [counterAfter, isCounted, Pattern.begins_lit]

end DiffLine

namespace TokenChange

variable {raw : List (List Char)} {i j : Nat}

/-- The start in the header at an index, if there is a header. -/
def headerAt (raw : List (List Char)) (i : Nat) : Option Nat :=
  (raw[i]?).bind DiffLine.hunkStart?

/-- The last header before an index: where it is, and the start in it. -/
def lastHeader? (raw : List (List Char)) (i : Nat) : Option (Nat × Nat) :=
  (List.range i).reverse.findSome? fun h => (headerAt raw h).map fun start => (h, start)

/-- How many lines from one index up to another do not begin with a dash. -/
def countedBetween (raw : List (List Char)) (first stop : Nat) : Nat :=
  ((raw.take stop).drop first).countP DiffLine.isCounted

/-- The number of the line at an index: counted from the last header before it, or from zero and
the beginning of the text. -/
def lineNumberAt (raw : List (List Char)) (i : Nat) : Nat :=
  match lastHeader? raw i with
  | some (h, start) => start + countedBetween raw (h + 1) i
  | none => countedBetween raw 0 i

theorem lastHeader?_succ (raw : List (List Char)) (i : Nat) :
    lastHeader? raw (i + 1) =
      ((headerAt raw i).map fun start => (i, start)).or (lastHeader? raw i) := by
  unfold lastHeader?
  rw [List.range_succ, List.reverse_append, List.reverse_singleton, List.singleton_append,
    List.findSome?_cons]
  cases headerAt raw i <;> rfl

/-- The last header is before the index. -/
theorem lt_of_lastHeader? {h start : Nat} (heq : lastHeader? raw i = some (h, start)) : h < i := by
  obtain ⟨k, hk, hheader⟩ := List.exists_of_findSome?_eq_some heq
  obtain ⟨n, -, hn⟩ := Option.map_eq_some_iff.mp hheader
  obtain ⟨rfl, -⟩ := Prod.mk.inj hn
  rwa [List.mem_reverse, List.mem_range] at hk

theorem countedBetween_self (raw : List (List Char)) (i : Nat) : countedBetween raw i i = 0 := by
  unfold countedBetween
  rw [List.drop_take_self, List.countP_nil]

theorem countedBetween_succ {line : List Char} (hline : raw[i]? = some line) (h : j ≤ i) :
    countedBetween raw j (i + 1) =
      if DiffLine.isCounted line then countedBetween raw j i + 1 else countedBetween raw j i := by
  have hlength : j ≤ (raw.take i).length := by
    have hlt := (List.getElem?_eq_some_iff.mp hline).1
    rw [List.length_take]
    omega
  unfold countedBetween
  rw [List.take_add_one, hline, Option.toList_some, List.drop_append_of_le_length hlength,
    List.countP_append, List.countP_singleton]
  split <;> rfl

/-- From one line to the next the number changes as the counter does. -/
theorem lineNumberAt_succ {line : List Char} (hline : raw[i]? = some line) :
    lineNumberAt raw (i + 1) =
      (DiffLine.hunkStart? line).getD
        (if DiffLine.isCounted line then lineNumberAt raw i + 1 else lineNumberAt raw i) := by
  have hheader : headerAt raw i = DiffLine.hunkStart? line := by
    rw [headerAt, hline, Option.bind_some]
  unfold lineNumberAt
  rw [lastHeader?_succ, hheader]
  cases DiffLine.hunkStart? line with
  | some start => simp [countedBetween_self]
  | none =>
    rw [Option.map_none, Option.none_or, Option.getD_none]
    cases hlast : lastHeader? raw i with
    | none =>
      dsimp only
      rw [countedBetween_succ hline (Nat.zero_le i)]
    | some header =>
      obtain ⟨h, start⟩ := header
      dsimp only
      rw [countedBetween_succ hline (lt_of_lastHeader? hlast)]
      split <;> rfl

/-- Within a hunk line numbers never decrease. -/
theorem lineNumberAt_le (h : i ≤ j) (hlength : j ≤ raw.length)
    (hhunk : ∀ k, i ≤ k → k < j → headerAt raw k = none) :
    lineNumberAt raw i ≤ lineNumberAt raw j := by
  induction j, h using Nat.le_induction with
  | base => exact Nat.le_refl _
  | succ j hij ih =>
    have hprevious := ih (by omega) fun k hik hkj => hhunk k hik (by omega)
    have hline : raw[j]? = some raw[j] := List.getElem?_eq_getElem hlength
    have hnone := hhunk j hij (Nat.lt_succ_self j)
    rw [headerAt, hline, Option.bind_some] at hnone
    rw [lineNumberAt_succ hline, hnone, Option.getD_none]
    split <;> omega

/-- The partner that the search finds has a value. -/
private theorem exists_partner? {name : String} {reach : Nat} {lines : List DiffLine}
    {taken : List Bool} (h : partnerIndex? name reach lines taken = some j) :
    ∃ value, partner? name reach lines taken = some (value, mark j taken) := by
  obtain ⟨hfree, -, -⟩ := partnerIndex?_eq_some_iff.mp h
  obtain ⟨token, htoken, -⟩ := (Option.any_eq_true ..).mp (Bool.and_eq_true_iff.mp hfree).2
  exact ⟨token.value, by rw [partner?_eq, h, Option.bind_some, htoken, Option.map_some]⟩

/-- A line without a definition only moves the counter. -/
private theorem ofLines_cons_of_silent {line : DiffLine}
    (hr : ∀ token, line = .removed (some token) → False)
    (ha : ∀ token, line = .added (some token) → False) (reach n : Nat) (lines : List DiffLine)
    (taken : List Bool) :
    ofLines reach n (line :: lines) taken =
      ofLines reach (line.counterAfter n) lines taken.tail := by
  cases line with
  | hunk start => rfl
  | removed token =>
    cases token with
    | none => rfl
    | some token => exact (hr token rfl).elim
  | added token =>
    cases token with
    | none => rfl
    | some token => exact (ha token rfl).elim
  | other advances => rfl

/-- A counter at the number of the first of the lines goes on to that of the next one. -/
private theorem ReadsFrom.counterAfter_eq {line : DiffLine} {lines : List DiffLine}
    (h : ReadsFrom raw i (line :: lines)) {n : Nat} (hn : n = lineNumberAt raw i) :
    line.counterAfter n = lineNumberAt raw (i + 1) := by
  obtain ⟨text, rest, hreads, -, hdrop⟩ := List.forall₂_cons_right_iff.mp h
  have htext : raw[i]? = some text := by rw [← List.head?_drop, hdrop, List.head?_cons]
  rw [lineNumberAt_succ htext, hreads.counterAfter_eq, hn]

/-- A change has the number of its own line. -/
def Origin.Numbers (raw : List (List Char)) (o : Origin) (c : TokenChange) : Prop :=
  c.lineNumber = lineNumberAt raw o.own

/-- Every change has the number of its own line, when the counter begins with the number of the
first line. -/
theorem numbers_ofLines {lines : List DiffLine} (h : ReadsFrom raw i lines) (reach : Nat) {n : Nat}
    (hn : n = lineNumberAt raw i) (taken : List Bool) :
    List.Forall₂ (Origin.Numbers raw) (Origin.ofLines reach i lines taken)
      (ofLines reach n lines taken) := by
  fun_induction Origin.ofLines reach i lines taken generalizing n with
  | case1 => exact .nil
  | case2 i old lines taken j hj ih =>
    obtain ⟨value, hpartner⟩ := exists_partner? hj
    simp only [ofLines, hpartner]
    exact .cons (congrArg Nat.cast hn) (ih h.tail (h.counterAfter_eq hn))
  | case3 i old lines taken hnone ih =>
    have hpartner : partner? old.name reach lines taken.tail = none := by
      rw [partner?_eq, hnone, Option.bind_none]
    simp only [ofLines, hpartner]
    exact .cons (congrArg Nat.cast hn) (ih h.tail (h.counterAfter_eq hn))
  | case4 i new lines taken htaken ih =>
    simp only [ofLines, htaken, ite_true]
    exact ih h.tail (h.counterAfter_eq hn)
  | case5 i new lines taken htaken ih =>
    simp only [ofLines, htaken, Bool.false_eq_true, ite_false]
    exact .cons (congrArg Nat.cast hn) (ih h.tail (h.counterAfter_eq hn))
  | case6 i line lines taken hr ha ih =>
    rw [ofLines_cons_of_silent hr ha]
    exact ih h.tail (h.counterAfter_eq hn)

/-- The numbers of changes, told from the lines they come from. -/
structure Numbering (raw : List (List Char)) (origins : List Origin) (changes : List TokenChange) :
    Prop where
  /-- Each change has the number of its own line. -/
  numbers : List.Forall₂ (Origin.Numbers raw) origins changes
  /-- Without a header between their own lines a later change has no smaller number. -/
  rises : (origins.zip changes).Pairwise fun p q =>
    (∀ k, p.1.own < k → k < q.1.own → headerAt raw k = none) → p.2.lineNumber ≤ q.2.lineNumber

/-- A line with a definition is no header. -/
private theorem headerAt_eq_none {line : List Char} (hline : raw[i]? = some line)
    (h : DiffLine.removedToken? line ≠ none ∨ DiffLine.addedToken? line ≠ none) :
    headerAt raw i = none := by
  have hdigits : DiffLine.hunkDigits? line = none := by
    by_contra hsome
    obtain ⟨digits, hdigits⟩ := Option.ne_none_iff_exists'.mp hsome
    obtain ⟨hr, ha⟩ := DiffLine.tokens_of_hunkDigits? hdigits
    exact h.elim (absurd hr) (absurd ha)
  rw [headerAt, hline, Option.bind_some, DiffLine.hunkStart?, hdigits, Option.map_none]

/-- The own line of a change is in the diff, and is no header. -/
private theorem Origin.Tells.own {o : Origin} {c : TokenChange} (h : o.Tells raw c) :
    o.own < raw.length ∧ headerAt raw o.own = none := by
  cases h with
  | deletion hold | modification hold =>
    obtain ⟨line, hline, htoken⟩ := Option.bind_eq_some_iff.mp hold
    exact ⟨(List.getElem?_eq_some_iff.mp hline).1,
      headerAt_eq_none hline (.inl (Option.ne_none_iff_exists'.mpr ⟨_, htoken⟩))⟩
  | addition hnew =>
    obtain ⟨line, hline, htoken⟩ := Option.bind_eq_some_iff.mp hnew
    exact ⟨(List.getElem?_eq_some_iff.mp hline).1,
      headerAt_eq_none hline (.inr (Option.ne_none_iff_exists'.mpr ⟨_, htoken⟩))⟩

/-- Numbers told from the own lines rise within a hunk. -/
theorem Account.numbering {reach : Nat} {origins : List Origin} {changes : List TokenChange}
    (h : Account raw reach origins changes)
    (hnumbers : List.Forall₂ (Origin.Numbers raw) origins changes) :
    Numbering raw origins changes := by
  refine ⟨hnumbers, ?_⟩
  have hordered : (origins.zip changes).Pairwise fun p q => p.1.own < q.1.own := by
    rw [← List.pairwise_map (f := Prod.fst) (R := fun a b : Origin => a.own < b.own),
      List.map_fst_zip h.tells.length_eq.le]
    exact h.ordered
  refine hordered.imp_of_mem fun {p q} hp hq hlt hbetween => ?_
  obtain ⟨-, hp_header⟩ := Origin.Tells.own ((List.forall₂_iff_zip.mp h.tells).2 hp)
  obtain ⟨hq_length, -⟩ := Origin.Tells.own ((List.forall₂_iff_zip.mp h.tells).2 hq)
  have hp_number : Origin.Numbers raw p.1 p.2 := (List.forall₂_iff_zip.mp hnumbers).2 hp
  have hq_number : Origin.Numbers raw q.1 q.2 := (List.forall₂_iff_zip.mp hnumbers).2 hq
  rw [hp_number, hq_number, Int.ofNat_le]
  refine lineNumberAt_le hlt.le hq_length.le fun k hk hkq => ?_
  rcases Nat.eq_or_lt_of_le hk with rfl | hk
  · exact hp_header
  · exact hbetween k hk hkq

/-- A diff whose numbers fit is read, and its changes are numbered by their own lines. -/
theorem exists_numbering {diff : String} (lookahead : Int)
    (hfits : ∀ line ∈ Text.splitOn '\n' diff.toList, DiffLine.NumberFits line) :
    ∃ changes origins, ofDiff diff lookahead = .ok changes ∧
      Account (Text.splitOn '\n' diff.toList) lookahead.toNat origins changes ∧
      Numbering (Text.splitOn '\n' diff.toList) origins changes := by
  obtain ⟨lines, hread, hreads⟩ := DiffLine.exists_mapM_read hfits
  have hfrom : ReadsFrom (Text.splitOn '\n' diff.toList) 0 lines := hreads
  have haccount := account_ofLines hreads lookahead.toNat
  refine ⟨_, _, ?_, haccount, haccount.numbering (numbers_ofLines hfrom _ rfl [])⟩
  rw [ofDiff_eq, hread]
  rfl

/-- The number of each change in a diff is the start in the last header before its own line, or
zero, and the count of the lines between that do not begin with a dash. So within a hunk numbers
never decrease, and with every other lookahead a change with the same own line has the same
number. -/
theorem exists_numbering_forall_lookahead (diff : String) (lookahead : Int)
    (hfits : ∀ line ∈ Text.splitOn '\n' diff.toList, DiffLine.NumberFits line) :
    ∃ changes origins, ofDiff diff lookahead = .ok changes ∧
      Account (Text.splitOn '\n' diff.toList) lookahead.toNat origins changes ∧
      Numbering (Text.splitOn '\n' diff.toList) origins changes ∧
      ∀ other, ∃ changes' origins', ofDiff diff other = .ok changes' ∧
        Account (Text.splitOn '\n' diff.toList) other.toNat origins' changes' ∧
        Numbering (Text.splitOn '\n' diff.toList) origins' changes' ∧
        ∀ p ∈ origins.zip changes, ∀ q ∈ origins'.zip changes', p.1.own = q.1.own →
          p.2.lineNumber = q.2.lineNumber := by
  obtain ⟨changes, origins, hread, haccount, hnumbering⟩ := exists_numbering lookahead hfits
  refine ⟨changes, origins, hread, haccount, hnumbering, fun other => ?_⟩
  obtain ⟨changes', origins', hread', haccount', hnumbering'⟩ := exists_numbering other hfits
  refine ⟨changes', origins', hread', haccount', hnumbering', fun p hp q hq hown => ?_⟩
  have hp_number : Origin.Numbers _ p.1 p.2 := (List.forall₂_iff_zip.mp hnumbering.numbers).2 hp
  have hq_number : Origin.Numbers _ q.1 q.2 := (List.forall₂_iff_zip.mp hnumbering'.numbers).2 hq
  rw [hp_number, hq_number, hown]

/-- A diff of two hunks with changes of every kind, and a line in it that is taken for the name of
a file. -/
def twoHunks : String :=
  "@@ -5,2 +5,3 @@\n context\n-$a: 1;\n--- $name: 0;\n+$a: 2;\n+$b: 3;\n" ++
    "@@ -40,2 +41,2 @@\n-$c: 4;\n context\n+$d: 5;"

/-- Each hunk is numbered from its own start; neither removed lines nor the name of a file count. -/
theorem exists_numbering_twoHunks :
    (∀ line ∈ Text.splitOn '\n' twoHunks.toList, DiffLine.NumberFits line) ∧
      ∃ changes origins, ofDiff twoHunks 4 = .ok changes ∧
        Numbering (Text.splitOn '\n' twoHunks.toList) origins changes ∧
        changes.map (fun c => (c.tokenName, c.lineNumber)) =
          [("$a", 6), ("$b", 7), ("$c", 40), ("$d", 41)] := by
  obtain ⟨changes, origins, hread, -, hnumbering, -⟩ :=
    exists_numbering_forall_lookahead twoHunks 4 (by decide)
  refine ⟨by decide, changes, origins, hread, hnumbering, ?_⟩
  have heval : (ofDiff twoHunks 4).toOption.map
      (List.map fun c => (c.tokenName, c.lineNumber)) =
      some [("$a", 6), ("$b", 7), ("$c", 40), ("$d", 41)] := by decide
  rw [hread] at heval
  exact Option.some.inj heval

end TokenChange

end DesignTokens

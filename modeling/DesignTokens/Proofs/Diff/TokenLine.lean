import DesignTokens.Diff.TokenLine
import DesignTokens.Proofs.Pattern.Leftmost
import DesignTokens.Proofs.Text.Blank

/-!
# Definitions by position

The definition in a line can be found with an index that goes from left to right: from a sigil to
the first colon after it and on to the first semicolon, or from one quote to the next. No choice is
left open on the way, so nothing has to be tried twice. `scan` reads a line in this manner and gives
what the forms of a definition give.
-/

namespace DesignTokens.TokenLine

open Pattern

/-! ## The scanner -/

/-- The part of a line from one index up to another. -/
def slice (chars : List Char) (first stop : Nat) : List Char := (chars.take stop).drop first

/-- The first index after another at which a character stands. -/
def firstAfter? (c : Char) (chars : List Char) (p : Nat) : Option Nat :=
  (List.range chars.length).find? fun i => p < i && chars[i]? == some c

/-- A definition with a name and a value as they stand in a line. -/
def stating (sigil : String) (name value : List Char) : TokenLine :=
  ⟨sigil ++ String.ofList (Text.trim name), String.ofList (Text.trim value)⟩

/-- The definition that begins with a sigil at an index: its name ends at the first colon and its
value at the first semicolon after that, and neither of them is empty. -/
def assignmentAt? (sigil : String) (chars : List Char) (p : Nat) : Option TokenLine := do
  let start := p + sigil.length
  let colon ← firstAfter? ':' chars p
  let semicolon ← firstAfter? ';' chars colon
  if sigil.toList.isPrefixOf (chars.drop p) ∧ start + 1 ≤ colon ∧ colon + 2 ≤ semicolon then
    some (stating sigil (slice chars start colon) (slice chars (colon + 1) semicolon))
  else none

/-- Where the text ends that is quoted from an index on, if it is not empty. -/
def closing? (chars : List Char) (p : Nat) : Option Nat := do
  let q ← firstAfter? '"' chars p
  if chars[p]? = some '"' ∧ p + 2 ≤ q then some q else none

/-- The definition that begins with a quote at an index: a colon comes directly after the name, and
a quoted value after that and white space. -/
def memberAt? (chars : List Char) (p : Nat) : Option TokenLine := do
  let q ← closing? chars p
  let opening := q + 2 + ((chars.drop (q + 2)).takeWhile Text.isBlank).length
  let r ← closing? chars opening
  if chars[q + 1]? = some ':' then
    some (stating "" (slice chars (p + 1) q) (slice chars (opening + 1) r))
  else none

/-- What is found at the first index at which something is. -/
def leftmost (at? : List Char → Nat → Option TokenLine) (chars : List Char) : Option TokenLine :=
  (List.range chars.length).findSome? (at? chars)

/-- The definition in a line: an assignment to a variable, else to a custom property, else a
member. -/
def scan (chars : List Char) : Option TokenLine :=
  ((leftmost (assignmentAt? "$") chars).or (leftmost (assignmentAt? "--") chars)).or
    (leftmost memberAt? chars)

/-! ## Positions -/

variable {chars x y : List Char} {c : Char} {p q : Nat}

theorem slice_add (h : chars.drop p = x ++ y) : slice chars p (p + x.length) = x := by
  rw [slice, ← List.take_drop, h, List.take_left]

theorem drop_add (h : chars.drop p = x ++ y) : chars.drop (p + x.length) = y := by
  rw [← List.drop_drop, h, List.drop_left]

theorem drop_succ (h : chars.drop p = c :: y) : chars.drop (p + 1) = y := by
  rw [← List.drop_drop, h, List.drop_one, List.tail_cons]

/-- The first index with a character cuts the rest of the line at that character. -/
theorem firstAfter?_eq_some_iff :
    firstAfter? c chars p = some q ↔
      ∃ x y, chars.drop (p + 1) = x ++ c :: y ∧ c ∉ x ∧ q = p + 1 + x.length := by
  unfold firstAfter?
  simp only [List.find?_range_eq_some, Bool.and_eq_true, decide_eq_true_eq, beq_iff_eq,
    List.mem_range, Bool.not_eq_true', Bool.and_eq_false_iff, decide_eq_false_iff_not]
  constructor
  · rintro ⟨⟨hpq, hc⟩, hlt, hbefore⟩
    obtain ⟨n, rfl⟩ := Nat.exists_eq_add_of_le hpq
    refine ⟨(chars.drop (p + 1)).take n, (chars.drop (p + 1)).drop (n + 1), ?_, fun hmem => ?_, ?_⟩
    · have hn : (chars.drop (p + 1))[n]? = some c := by rw [List.getElem?_drop, hc]
      obtain ⟨hlength, hget⟩ := List.getElem?_eq_some_iff.mp hn
      rw [← hget, List.getElem_cons_drop, List.take_append_drop]
    · obtain ⟨i, hi, hget⟩ := List.getElem_of_mem hmem
      rw [List.length_take] at hi
      rw [List.getElem_take, List.getElem_drop] at hget
      have hfree := hbefore (p + 1 + i) (by omega)
      rw [List.getElem?_eq_some_iff.mpr ⟨_, hget⟩] at hfree
      simp only [beq_self_eq_true, Bool.true_eq_false, or_false] at hfree
      omega
    · rw [List.length_take, List.length_drop]
      omega
  · rintro ⟨x, y, hrest, hx, rfl⟩
    have hget : ∀ i, chars[p + 1 + i]? = (x ++ c :: y)[i]? := fun i => by
      rw [← hrest, List.getElem?_drop]
    have hat : chars[p + 1 + x.length]? = some c := by
      rw [hget, List.getElem?_append_right (Nat.le_refl _), Nat.sub_self]
      rfl
    refine ⟨⟨by omega, hat⟩, (List.getElem?_eq_some_iff.mp hat).1, fun k hk => ?_⟩
    by_cases hpk : p < k
    · obtain ⟨n, rfl⟩ := Nat.exists_eq_add_of_le hpk
      have hn : n < x.length := by omega
      rw [hget, List.getElem?_append_left hn, List.getElem?_eq_getElem hn]
      exact .inr (beq_false_of_ne fun heq => hx (Option.some.inj heq ▸ List.getElem_mem hn))
    · exact .inl hpk

/-- After a sigil at an index the first colon ends the name. -/
theorem firstAfter?_colon_iff {sigil : String} {rest : List Char} (hne : sigil.toList ≠ [])
    (hcolon : ':' ∉ sigil.toList) (h : chars.drop p = sigil.toList ++ rest) :
    firstAfter? ':' chars p = some q ↔
      ∃ name after, rest = name ++ ':' :: after ∧ ':' ∉ name ∧
        q = p + sigil.length + name.length := by
  obtain ⟨d, ds, hsigil⟩ := List.exists_cons_of_ne_nil hne
  have hlength : sigil.length = ds.length + 1 := by
    rw [← String.length_toList, hsigil, List.length_cons]
  rw [hsigil] at hcolon h
  have hnext : chars.drop (p + 1) = ds ++ rest := drop_succ h
  rw [firstAfter?_eq_some_iff, hnext]
  constructor
  · rintro ⟨x, after, hsplit, hx, rfl⟩
    rcases List.append_eq_append_iff.mp hsplit with ⟨name, rfl, hrest⟩ | ⟨more, rfl, hrest⟩
    · refine ⟨name, after, hrest, fun hmem => hx (List.mem_append_right _ hmem), ?_⟩
      rw [List.length_append]
      omega
    · -- The sigil has no colon, so the first one comes directly after it or later.
      cases more with
      | nil =>
        refine ⟨[], after, hrest.symm, List.not_mem_nil, ?_⟩
        rw [List.append_nil] at hlength
        rw [List.length_nil]
        omega
      | cons e more =>
        obtain ⟨rfl, -⟩ := List.cons.inj hrest
        exact absurd (List.mem_cons_of_mem _ (List.mem_append_right _ List.mem_cons_self)) hcolon
  · rintro ⟨name, after, rfl, hname, rfl⟩
    refine ⟨ds ++ name, after, (List.append_assoc ..).symm, ?_, ?_⟩
    · exact fun hmem => (List.mem_append.mp hmem).elim (List.not_mem_of_not_mem_cons hcolon) hname
    · rw [List.length_append]
      omega

/-- A quoted text that is not empty. -/
theorem closing?_eq_some_iff :
    closing? chars p = some q ↔
      ∃ x y, chars.drop p = '"' :: (x ++ '"' :: y) ∧ x ≠ [] ∧ '"' ∉ x ∧ q = p + 1 + x.length := by
  unfold closing?
  simp only [Option.bind_eq_bind, Option.bind_eq_some_iff, Option.ite_none_right_eq_some,
    Option.some.injEq, firstAfter?_eq_some_iff]
  constructor
  · rintro ⟨_, ⟨x, y, hrest, hx, rfl⟩, ⟨hopen, hlength⟩, rfl⟩
    obtain ⟨hp, hget⟩ := List.getElem?_eq_some_iff.mp hopen
    refine ⟨x, y, ?_, ?_, hx, rfl⟩
    · rw [← hrest, ← hget, List.getElem_cons_drop]
    · rintro rfl
      simp at hlength
  · rintro ⟨x, y, hline, hne, hx, rfl⟩
    have hopen : chars[p]? = some '"' := by rw [← List.head?_drop, hline, List.head?_cons]
    have hlength := List.length_pos_iff.mpr hne
    exact ⟨_, ⟨x, y, drop_succ hline, hx, rfl⟩, ⟨hopen, by omega⟩, rfl⟩

/-! ## What is found at an index -/

/-- A text begins with an assignment to a name after a sigil, which states a definition. -/
inductive Assigns (sigil : String) : List Char → TokenLine → Prop
  | intro {name value tail : List Char} (hname : name ≠ []) (hcolon : ':' ∉ name)
    (hvalue : value ≠ []) (hsemicolon : ';' ∉ value) :
    Assigns sigil (sigil.toList ++ (name ++ ':' :: (value ++ ';' :: tail)))
      (stating sigil name value)

/-- A text begins with a member of an object, which states a definition. -/
inductive Pairs : List Char → TokenLine → Prop
  | intro {name blank value tail : List Char} (hname : name ≠ []) (hopen : '"' ∉ name)
    (hblank : ∀ c ∈ blank, Text.isBlank c = true) (hvalue : value ≠ []) (hclose : '"' ∉ value) :
    Pairs ('"' :: (name ++ '"' :: ':' :: (blank ++ '"' :: (value ++ '"' :: tail))))
      (stating "" name value)

variable {sigil : String} {s : List Char} {t : TokenLine}

/-- At an index the scanner finds what the text from there on begins with. -/
theorem assignmentAt?_eq_some_iff (hne : sigil.toList ≠ []) (hcolon : ':' ∉ sigil.toList) :
    assignmentAt? sigil chars p = some t ↔ Assigns sigil (chars.drop p) t := by
  unfold assignmentAt?
  simp only [Option.bind_eq_bind, Option.bind_eq_some_iff, Option.ite_none_right_eq_some]
  constructor
  · rintro ⟨colon, hfirst, semicolon, hsecond, ⟨hbegins, hcolon_le, hsemicolon_le⟩, hstates⟩
    obtain ⟨rest, hline⟩ := List.isPrefixOf_iff_prefix.mp hbegins
    obtain ⟨name, after, rfl, hname, rfl⟩ :=
      (firstAfter?_colon_iff hne hcolon hline.symm).mp hfirst
    obtain ⟨value, tail, hafter, hvalue, rfl⟩ := firstAfter?_eq_some_iff.mp hsecond
    have hstart := drop_add hline.symm
    rw [String.length_toList] at hstart
    obtain rfl : value ++ ';' :: tail = after := hafter.symm.trans (drop_succ (drop_add hstart))
    rw [slice_add hstart, slice_add hafter, Option.some.injEq] at hstates
    rw [← hline, ← hstates]
    refine .intro ?_ hname ?_ hvalue
    · rintro rfl
      rw [List.length_nil] at hcolon_le
      omega
    · rintro rfl
      rw [List.length_nil] at hsemicolon_le
      omega
  · intro h
    generalize hline : chars.drop p = s at h
    obtain @⟨name, value, tail, hname, hcolon_name, hvalue, hsemicolon⟩ := h
    have hstart := drop_add hline
    rw [String.length_toList] at hstart
    have hafter := drop_succ (drop_add hstart)
    refine ⟨_, (firstAfter?_colon_iff hne hcolon hline).mpr ⟨name, _, rfl, hcolon_name, rfl⟩, _,
      firstAfter?_eq_some_iff.mpr ⟨value, tail, hafter, hsemicolon, rfl⟩, ⟨?_, ?_, ?_⟩, ?_⟩
    · exact List.isPrefixOf_iff_prefix.mpr (List.prefix_append _ _)
    · have := List.length_pos_iff.mpr hname
      omega
    · have := List.length_pos_iff.mpr hvalue
      omega
    · rw [slice_add hstart, slice_add hafter]

theorem memberAt?_eq_some_iff : memberAt? chars p = some t ↔ Pairs (chars.drop p) t := by
  unfold memberAt?
  simp only [Option.bind_eq_bind, Option.bind_eq_some_iff, Option.ite_none_right_eq_some,
    closing?_eq_some_iff]
  constructor
  · rintro ⟨_, ⟨name, after, hline, hname, hopen, rfl⟩, _,
      ⟨value, tail, hrest, hvalue, hclose, rfl⟩, hcolon, hstates⟩
    have hfirst := drop_succ hline
    have hafter := drop_succ (drop_add hfirst)
    obtain ⟨after, rfl⟩ := List.head?_eq_some_iff.mp (hafter ▸ List.head?_drop.trans hcolon)
    have hgap : chars.drop (p + 1 + name.length + 2) =
        after.takeWhile Text.isBlank ++ after.dropWhile Text.isBlank :=
      (drop_succ hafter).trans List.takeWhile_append_dropWhile.symm
    rw [drop_succ hafter] at hrest hstates
    have hquoted := hrest.symm.trans (drop_add hgap)
    rw [slice_add hfirst, slice_add (drop_succ hrest), Option.some.injEq] at hstates
    rw [hline, ← hstates, ← List.takeWhile_append_dropWhile (p := Text.isBlank) (l := after),
      ← hquoted]
    exact .intro hname hopen (fun c => List.mem_takeWhile_imp) hvalue hclose
  · intro h
    generalize hline : chars.drop p = s at h
    obtain @⟨name, blank, value, tail, hname, hopen, hblank, hvalue, hclose⟩ := h
    have hfirst := drop_succ hline
    have hafter := drop_succ (drop_add hfirst)
    have hgap := drop_succ hafter
    have hrun : (chars.drop (p + 1 + name.length + 2)).takeWhile Text.isBlank = blank := by
      rw [hgap, List.takeWhile_append_of_pos hblank, List.takeWhile_cons_of_neg (by decide),
        List.append_nil]
    have hrest := drop_add hgap
    refine ⟨_, ⟨name, _, rfl, hname, hopen, rfl⟩, _, ⟨value, tail, ?_, hvalue, hclose, rfl⟩, ?_, ?_⟩
    · rw [hrun]
      exact hrest
    · rw [← List.head?_drop, hafter, List.head?_cons]
    · rw [hrun, slice_add hfirst, slice_add (drop_succ hrest)]

/-! ## What the forms match -/

/-- White space between the colon and the value makes no difference. -/
theorem stating_append_left {blank : List Char} (h : ∀ c ∈ blank, Text.isBlank c = true)
    (name value : List Char) : stating sigil name (blank ++ value) = stating sigil name value := by
  rw [stating, Text.trim_append_left h, ← stating]

/-- A run up to a character is a run without it. -/
theorem forall_bne_iff_notMem : (∀ d ∈ x, (d != c) = true) ↔ c ∉ x := by
  simp only [bne_iff_ne, ne_eq, List.forall_mem_ne']

/-- What an assignment matches begins with one, and the match states the same. -/
theorem assigns_of_matchAt {m : Match} (h : (assignment sigil).matchAt s = some m) :
    Assigns sigil s (ofMatch sigil m) := by
  simp only [matchAt, assignment, all, blanks, List.foldr, exec.eq_1, exec.eq_4, exec.eq_7] at h
  obtain ⟨_, rfl, h⟩ := exists_of_exec_lit h
  obtain ⟨name, _, rfl, hname, hcolon, h⟩ := exists_of_exec_many1 h
  obtain ⟨_, rfl, h⟩ := exists_of_exec_lit h
  obtain ⟨blank, _, rfl, hblank, h⟩ := exists_of_exec_many h
  obtain ⟨value, _, rfl, hvalue, hsemicolon, h⟩ := exists_of_exec_many1 h
  obtain ⟨tail, rfl, h⟩ := exists_of_exec_lit h
  obtain rfl := Option.some.inj h
  rw [forall_bne_iff_notMem] at hcolon hsemicolon
  change Assigns sigil _ (stating sigil (before (name ++ _) _) (before (value ++ _) _))
  rw [before_append, before_append, ← stating_append_left hblank, ← List.append_assoc blank]
  -- The white space belongs to what the scanner takes for the value.
  refine .intro hname hcolon (List.append_ne_nil_of_right_ne_nil _ hvalue) fun hmem => ?_
  rcases List.mem_append.mp hmem with hmem | hmem
  · exact absurd (hblank _ hmem) (by decide)
  · exact hsemicolon hmem

/-- Where a text begins with an assignment there is a match. -/
theorem exists_matchAt_of_assigns (h : Assigns sigil s t) :
    ∃ m, (assignment sigil).matchAt s = some m := by
  obtain @⟨name, value, tail, hname, hcolon, hvalue, hsemicolon⟩ := h
  rw [← forall_bne_iff_notMem] at hcolon hsemicolon
  have htakes : (assignment sigil).Takes
      (sigil.toList ++ (name ++ (":".toList ++ ([] ++ (value ++ (";".toList ++ [])))))) tail :=
    .seq (.lit sigil _) <| .seq (.group (.many1 hname hcolon _)) <| .seq (.lit ":" _) <|
      .seq (.many nofun) <| .seq (.group (.many1 hvalue hsemicolon _)) <| .seq (.lit ";" _) .empty
  simpa using htakes.exists_matchAt

/-- What a member matches begins with one, and the match states the same. -/
theorem pairs_of_matchAt {m : Match} (h : quotedPair.matchAt s = some m) :
    Pairs s (ofMatch "" m) := by
  simp only [matchAt, quotedPair, all, blanks, List.foldr, exec.eq_1, exec.eq_4, exec.eq_7] at h
  obtain ⟨_, rfl, h⟩ := exists_of_exec_lit h
  obtain ⟨name, _, rfl, hname, hopen, h⟩ := exists_of_exec_many1 h
  obtain ⟨_, rfl, h⟩ := exists_of_exec_lit h
  obtain ⟨blank, _, rfl, hblank, h⟩ := exists_of_exec_many h
  obtain ⟨_, rfl, h⟩ := exists_of_exec_lit h
  obtain ⟨value, _, rfl, hvalue, hclose, h⟩ := exists_of_exec_many1 h
  obtain ⟨tail, rfl, h⟩ := exists_of_exec_lit h
  obtain rfl := Option.some.inj h
  rw [forall_bne_iff_notMem] at hopen hclose
  change Pairs _ (stating "" (before (name ++ _) _) (before (value ++ _) _))
  rw [before_append, before_append]
  exact .intro hname hopen hblank hvalue hclose

/-- Where a text begins with a member there is a match. -/
theorem exists_matchAt_of_pairs (h : Pairs s t) : ∃ m, quotedPair.matchAt s = some m := by
  obtain @⟨name, blank, value, tail, hname, hopen, hblank, hvalue, hclose⟩ := h
  rw [← forall_bne_iff_notMem] at hopen hclose
  have htakes : quotedPair.Takes
      ("\"".toList ++ (name ++ ("\":".toList ++ (blank ++ ("\"".toList ++
        (value ++ ("\"".toList ++ []))))))) tail :=
    .seq (.lit "\"" _) <| .seq (.group (.many1 hname hopen _)) <| .seq (.lit "\":" _) <|
      .seq (.many hblank) <| .seq (.lit "\"" _) <| .seq (.group (.many1 hvalue hclose _)) <|
      .seq (.lit "\"" _) .empty
  simpa using htakes.exists_matchAt

/-! ## The two readings of a line -/

/-- A scanner finds at each index what a form matches there. -/
structure Agree (at? : List Char → Nat → Option TokenLine) (form : Pattern × String) : Prop where
  /-- The form matches something. -/
  taking : form.1.IsTaking
  /-- At each index both find the same. -/
  at_eq : ∀ chars p, (form.1.matchAt (chars.drop p)).map (ofMatch form.2) = at? chars p

/-- What is found is what a match states, if both are what the text begins with. -/
theorem map_matchAt_eq {form : Pattern × String} {States : List Char → TokenLine → Prop}
    {found : Option TokenLine} (hfound : ∀ t, found = some t ↔ States s t)
    (hsound : ∀ m, form.1.matchAt s = some m → States s (ofMatch form.2 m))
    (hcomplete : ∀ t, States s t → ∃ m, form.1.matchAt s = some m) :
    (form.1.matchAt s).map (ofMatch form.2) = found := by
  cases hmatch : form.1.matchAt s with
  | some m => exact ((hfound _).mpr (hsound m hmatch)).symm
  | none =>
    refine (Option.eq_none_iff_forall_ne_some.mpr fun t ht => ?_).symm
    obtain ⟨m, hm⟩ := hcomplete t ((hfound t).mp ht)
    rw [hmatch] at hm
    cases hm

theorem agree_assignment (sigil : String) (hne : sigil.toList ≠ [])
    (hcolon : ':' ∉ sigil.toList) : Agree (assignmentAt? sigil) (assignment sigil, sigil) where
  taking := isTaking_of_nullable (by simp [assignment, all, many1, nullable])
  at_eq chars p := map_matchAt_eq (fun _ => assignmentAt?_eq_some_iff hne hcolon)
    (fun _ => assigns_of_matchAt) fun _ => exists_matchAt_of_assigns

theorem agree_member : Agree memberAt? (quotedPair, "") where
  taking := isTaking_of_nullable (by decide)
  at_eq chars p := map_matchAt_eq (fun _ => memberAt?_eq_some_iff) (fun _ => pairs_of_matchAt)
    fun _ => exists_matchAt_of_pairs

/-- Where both find the same at each index, both find the same in a line. -/
theorem Agree.map_search {at? : List Char → Nat → Option TokenLine} {form : Pattern × String}
    (h : Agree at? form) (chars : List Char) :
    (form.1.search chars).map (ofMatch form.2) = leftmost at? chars := by
  rw [h.taking.search_eq_findSome?, List.map_findSome?]
  exact congrArg ((List.range chars.length).findSome? ·) (funext (h.at_eq chars))

/-- The definition that the forms give for a line is the one that reading it from left to right
gives. -/
theorem find_eq_scan (chars : List Char) : find chars = scan chars := by
  have hvariable := (agree_assignment "$" (by decide) (by decide)).map_search chars
  have hproperty := (agree_assignment "--" (by decide) (by decide)).map_search chars
  have hmember := agree_member.map_search chars
  dsimp only at hvariable hproperty hmember
  unfold find scan forms
  rw [List.findSome?_cons, List.findSome?_cons, List.findSome?_singleton, hvariable, hproperty,
    hmember]
  cases leftmost (assignmentAt? "$") chars <;> cases leftmost (assignmentAt? "--") chars <;> rfl

/-- A sigil without a name is passed over. -/
example : scan "$: $size: 4px;".toList = some ⟨"$size", "4px"⟩ := by decide

end DesignTokens.TokenLine

import DesignTokens.Proofs.Text.Lines
import DesignTokens.Proofs.Token.Grouping
import DesignTokens.Proofs.Token.Variable

/-!
# References to custom properties

What the format for custom properties finds in a line with references. The name that it takes from
a reference is everything up to the closing parenthesis; so a reference with a fallback is counted
under the property and the fallback together, and the usages count the properties exactly where no
reference has a fallback.
-/

namespace DesignTokens

open Pattern

/-- A reference to a custom property, perhaps with a fallback. -/
structure PropertyReference where
  name : String
  fallback : Option String
  name_ne : name ≠ ""
  isNameChar_of_mem : ∀ c ∈ name.toList, TokenFormat.isNameChar c = true
  fallback_ne : ∀ t ∈ fallback, t ≠ ""
  /-- A fallback is text without parentheses. -/
  fallback_text : ∀ t ∈ fallback, '(' ∉ t.toList ∧ ')' ∉ t.toList ∧ '\n' ∉ t.toList

namespace PropertyReference

/-- What stands between the dashes and the closing parenthesis. -/
def body (r : PropertyReference) : List Char :=
  r.name.toList ++ match r.fallback with
    | none => []
    | some t => ", ".toList ++ t.toList

/-- A reference as it is written. -/
def spelled (r : PropertyReference) : List Char := "var(--".toList ++ (r.body ++ [')'])

end PropertyReference

/-- A part of a line that has nothing like a reference in it. -/
structure PlainText where
  text : String
  plain : ¬"var(".toList <:+: text.toList
  oneLine : '\n' ∉ text.toList

/-- A line of references with text before, between and after them. -/
structure PropertyLine where
  pieces : List (PlainText × PropertyReference)
  last : PlainText

namespace PropertyLine

/-- The line as it is written. -/
def spelled (l : PropertyLine) : List Char :=
  (l.pieces.flatMap fun piece => piece.1.text.toList ++ piece.2.spelled) ++ l.last.text.toList

def references (l : PropertyLine) : List PropertyReference := l.pieces.map (·.2)

/-- The names of the properties that the line refers to, each as often as it does. -/
def names (l : PropertyLine) : List String := l.references.map (·.name)

/-- The properties with their fallbacks. -/
def bodies (l : PropertyLine) : List String := l.references.map fun r => String.ofList r.body

end PropertyLine

namespace PropertyReference

variable (r : PropertyReference)

/-- Something stands between the dashes and the closing parenthesis. -/
theorem body_ne_nil : r.body ≠ [] := by
  intro h
  have hname := (List.append_eq_nil_iff.mp h).1
  exact r.name_ne (String.toList_eq_nil_iff.mp hname)

/-- No character of a kind that neither names nor fallbacks have is in a reference. -/
theorem notMem_body {c : Char} (hname : TokenFormat.isNameChar c = false) (hcomma : c ∉ ", ".toList)
    (hfallback : ∀ t ∈ r.fallback, c ∉ t.toList) : c ∉ r.body := by
  unfold body
  rw [List.mem_append, not_or]
  constructor
  · intro hc
    rw [r.isNameChar_of_mem c hc] at hname
    cases hname
  · cases hr : r.fallback with
    | none => exact List.not_mem_nil
    | some t =>
      rw [List.mem_append, not_or]
      exact ⟨hcomma, hfallback t hr⟩

/-- What stands between the dashes and the closing parenthesis closes none. -/
theorem paren_notMem_body : ')' ∉ r.body :=
  r.notMem_body rfl (by decide) fun t ht => (r.fallback_text t ht).2.1

/-- A reference is spelled on one line. -/
theorem newline_notMem_spelled : '\n' ∉ r.spelled := by
  have hbody := r.notMem_body (c := '\n') rfl (by decide) fun t ht => (r.fallback_text t ht).2.2
  change '\n' ∉ "var(--".toList ++ (r.body ++ [')'])
  rw [List.mem_append, List.mem_append, not_or, not_or]
  exact ⟨by decide, hbody, by decide⟩

/-- Without a fallback the name is all. -/
theorem ofList_body (h : r.fallback = none) : String.ofList r.body = r.name := by
  unfold body
  rw [h, List.append_nil, String.ofList_toList]

/-- A fallback leaves its comma in the body, which no name has. -/
theorem ofList_body_ne_name (h : r.fallback ≠ none) (r' : PropertyReference) :
    String.ofList r.body ≠ r'.name := by
  obtain ⟨t, ht⟩ := Option.ne_none_iff_exists'.mp h
  intro hname
  have hcomma : ',' ∈ r.body := by
    unfold body
    rw [ht]
    exact List.mem_append_right _ (List.mem_append_left _ (by decide))
  rw [← String.toList_ofList (l := r.body), hname] at hcomma
  exact absurd (r'.isNameChar_of_mem ',' hcomma) (by decide)

end PropertyReference

/-- A line with references is one line. -/
theorem PropertyLine.newline_notMem_spelled (l : PropertyLine) : '\n' ∉ l.spelled := by
  unfold PropertyLine.spelled
  rw [List.mem_append, List.mem_flatMap, not_or]
  refine ⟨?_, l.last.oneLine⟩
  rintro ⟨piece, -, hc⟩
  rcases List.mem_append.mp hc with hc | hc
  · exact piece.1.oneLine hc
  · exact piece.2.newline_notMem_spelled hc

namespace TokenFormat

/-- The format for references to custom properties. -/
def customProperty : TokenFormat := general.get ⟨0, by decide⟩

theorem isTaking_customProperty : customProperty.pattern.IsTaking := isTaking_of_nullable rfl

/-- The match at a reference: the name is what stands between the dashes and the parenthesis. -/
def propertyMatch (r : PropertyReference) (rest : List Char) : Match :=
  ⟨r.spelled, rest, [⟨1, r.body ++ ')' :: rest, ')' :: rest⟩]⟩

/-- The name that a reference is given is all between its dashes and its closing parenthesis. -/
theorem tokenName_propertyMatch (r : PropertyReference) (rest : List Char) :
    (propertyMatch r rest).tokenName = r.body := by
  have hcapture : (propertyMatch r rest).capture 1 = r.body := before_append r.body (')' :: rest)
  exact (Match.tokenName_of_capture (hcapture ▸ r.body_ne_nil)).trans hcapture

/-- A reference is found where it stands. -/
theorem matchAt_spelled (r : PropertyReference) (rest : List Char) :
    customProperty.pattern.matchAt (r.spelled ++ rest) = some (propertyMatch r rest) := by
  have hbody : ∀ c ∈ r.body, (c != ')') = true := fun c hc =>
    bne_iff_ne.mpr fun heq => r.paren_notMem_body (heq ▸ hc)
  have hrun : (r.body ++ ')' :: rest).takeWhile (· != ')') = r.body := by
    rw [List.takeWhile_append_of_pos hbody, List.takeWhile_cons_of_neg (by decide),
      List.append_nil]
  have hstop : (r.body ++ ')' :: rest).dropWhile (· != ')') = ')' :: rest := by
    rw [List.dropWhile_append_of_pos hbody, List.dropWhile_cons_of_neg (by decide)]
  have hsplit : r.spelled ++ rest = "var(--".toList ++ (r.body ++ ')' :: rest) := by
    change ("var(--".toList ++ (r.body ++ [')'])) ++ rest = _
    rw [List.append_assoc, List.append_assoc, List.singleton_append]
  have hbefore : before (r.spelled ++ rest) rest = r.spelled := before_append _ _
  rw [hsplit] at hbefore ⊢
  change exec (seq (lit "var(--") (seq (group 1 (many1 (· != ')'))) (seq (lit ")") empty))) _ [] _ =
    _
  rw [exec.eq_4, exec_lit_append_left, exec.eq_4, exec.eq_7, exec_many1, if_neg]
  · rw [hrun]
    exact r.body_ne_nil
  · rw [hstop, exec.eq_4]
    change exec (lit ")") (")".toList ++ rest) _ _ = _
    rw [exec_lit_append_left, exec.eq_1, hbefore]
    rfl

/-- Plain text has no match at any of its places, neither before a reference nor at the end of a
line. -/
theorem matchAt_plainText {t : PlainText} {u s : List Char} (hne : u ≠ [])
    (hu : u <:+ t.text.toList) (hs : s = [] ∨ s.head? = some 'v') :
    customProperty.pattern.matchAt (u ++ s) = none := by
  rw [Option.eq_none_iff_forall_ne_some]
  intro m hm
  change exec (seq (lit "var(--") _) _ [] _ = _ at hm
  rw [exec.eq_4] at hm
  obtain ⟨rest, hopening, -⟩ := exists_of_exec_lit hm
  have hchars : u ++ s = 'v' :: 'a' :: 'r' :: '(' :: '-' :: '-' :: rest := hopening
  -- What follows the text does not go on with what it may have begun of an opening.
  have hinside : "var(".toList <+: u := by
    rcases u with _ | ⟨a, _ | ⟨b, _ | ⟨c, _ | ⟨d, u⟩⟩⟩⟩
    case nil => exact absurd rfl hne
    case cons.cons.cons.cons =>
      simp only [List.cons_append, List.cons.injEq] at hchars
      obtain ⟨rfl, rfl, rfl, rfl, -⟩ := hchars
      exact ⟨u, rfl⟩
    all_goals
      simp only [List.cons_append, List.nil_append, List.cons.injEq] at hchars
      simp [hchars] at hs
  exact t.plain (hinside.isInfix.trans hu.isInfix)

/-- What is found in a line are its references, by their bodies. -/
theorem map_tokenName_findFrom (pieces : List (PlainText × PropertyReference)) (last : PlainText)
    (position : Nat) :
    (customProperty.pattern.findFrom position 0
        ((pieces.flatMap fun piece => piece.1.text.toList ++ piece.2.spelled) ++
          last.text.toList)).map (·.found.tokenName) =
      pieces.map fun piece => piece.2.body := by
  induction pieces generalizing position with
  | nil =>
    rw [List.flatMap_nil, List.nil_append, ← List.append_nil last.text.toList,
      isTaking_customProperty.findFrom_append_of_none fun u hne hu =>
        matchAt_plainText hne hu (.inl rfl),
      isTaking_customProperty.findFrom_nil]
    rfl
  | cons piece pieces ih =>
    obtain ⟨text, r⟩ := piece
    rw [List.flatMap_cons, List.append_assoc, List.append_assoc,
      isTaking_customProperty.findFrom_append_of_none fun u hne hu =>
        matchAt_plainText hne hu (.inr rfl),
      isTaking_customProperty.findFrom_append_of_some (matchAt_spelled r _) rfl, List.map_cons,
      List.map_cons, ih, tokenName_propertyMatch]

/-- The format notes the references of a line under their bodies. -/
theorem map_fst_matchesIn_customProperty (l : PropertyLine) (path : String) (contextLength : Int) :
    (customProperty.matchesIn (String.ofList l.spelled) path contextLength).map (·.1) =
      l.bodies := by
  have hline : Text.splitOn '\n' (String.ofList l.spelled).toList = [l.spelled] := by
    rw [String.toList_ofList]
    exact Text.splitOn_of_notMem l.newline_notMem_spelled
  have hnames := congrArg (List.map String.ofList) (map_tokenName_findFrom l.pieces l.last 0)
  rw [List.map_map, List.map_map] at hnames
  unfold PropertyLine.bodies PropertyLine.references
  rw [matchesIn_eq, hline, List.zipIdx_singleton, List.flatMap_singleton, List.map_map,
    List.map_map]
  exact hnames

end TokenFormat

namespace Usage

open TokenFormat

/-- The usages of a line count its references under their bodies, so they count them under the
names of the properties exactly where no reference has a fallback. -/
theorem counts_names_iff (l : PropertyLine) {path : String}
    (happlies : customProperty.appliesTo path = true) (contextLength : Int) :
    (∃ us, inFile general (String.ofList l.spelled) path contextLength none = .ok us) ∧
      ∀ categorizer us,
        inFile general (String.ofList l.spelled) path contextLength categorizer = .ok us →
          Counts us customProperty l.bodies ∧
            (Counts us customProperty l.names ↔ ∀ r ∈ l.references, r.fallback = none) := by
  refine ⟨exists_inFile _ _ _ _ none nofun, fun categorizer us h => ?_⟩
  have hbodies := counts_of_inFile nodup_name_general (List.get_mem general ⟨0, by decide⟩)
    happlies h
  change Counts us customProperty ((customProperty.matchesIn _ _ _).map (·.1)) at hbodies
  rw [map_fst_matchesIn_customProperty] at hbodies
  refine ⟨hbodies, fun hnames r hr => ?_, fun hplain => ?_⟩
  · by_contra hfallback
    have hbody : String.ofList r.body ∈ l.bodies := List.mem_map_of_mem hr
    rw [← hbodies.mem_iff, hnames.mem_iff] at hbody
    obtain ⟨r', -, hname⟩ := List.mem_map.mp hbody
    exact r.ofList_body_ne_name hfallback r' hname.symm
  · have hsame : l.bodies = l.names :=
      List.map_congr_left fun r hr => r.ofList_body (hplain r hr)
    rwa [hsame] at hbodies

theorem counts_names_twoReferences : customProperty.appliesTo "a.css" = true ∧
    ∃ us, inFile general "color: var(--a); margin: var(--a);" "a.css" 0 none = .ok us ∧
      Counts us customProperty ["a", "a"] := by
  let r : PropertyReference :=
    ⟨"a", none, by decide, List.all_eq_true.mp (by decide), nofun, nofun⟩
  let l : PropertyLine :=
    ⟨[(⟨"color: ", by decide +kernel, by decide⟩, r),
      (⟨"; margin: ", by decide +kernel, by decide⟩, r)], ⟨";", by decide, by decide⟩⟩
  have happlies : customProperty.appliesTo "a.css" = true := by decide
  have hcontent : String.ofList l.spelled = "color: var(--a); margin: var(--a);" := by
    decide +kernel
  have hnames : l.names = ["a", "a"] := rfl
  have hplain : ∀ r ∈ l.references, r.fallback = none :=
    List.forall_mem_cons.mpr ⟨rfl, List.forall_mem_singleton.mpr rfl⟩
  obtain ⟨⟨us, hus⟩, hcounts⟩ := counts_names_iff l happlies 0
  have hcounted := (hcounts none us hus).2.mpr hplain
  rw [hcontent] at hus
  rw [hnames] at hcounted
  exact ⟨happlies, us, hus, hcounted⟩

/-- A reference with a fallback is not counted under its property. -/
theorem not_forall_counts_names : ¬∀ (l : PropertyLine) {path : String},
    customProperty.appliesTo path = true → ∀ {contextLength : Int} {us : List Usage},
      inFile general (String.ofList l.spelled) path contextLength none = .ok us →
        Counts us customProperty l.names := by
  intro hcounts
  let r : PropertyReference :=
    ⟨"a", some "red", by decide, List.all_eq_true.mp (by decide), by simp, by simp⟩
  let l : PropertyLine := ⟨[(⟨"", by decide, by decide⟩, r)], ⟨"", by decide, by decide⟩⟩
  have happlies : customProperty.appliesTo "a.css" = true := by decide
  obtain ⟨⟨us, hus⟩, hiff⟩ := counts_names_iff l happlies 0
  have hplain := (hiff none us hus).2.mp (hcounts l happlies hus)
  exact Option.some_ne_none "red" (hplain r List.mem_cons_self)

end Usage

end DesignTokens

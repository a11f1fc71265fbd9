import DesignTokens.Proofs.Pattern.Apart
import DesignTokens.Proofs.Token.Usage

/-!
# Places of references

A format whose matches keep apart refers to a token at exactly those places of a text where its
pattern matches. Each usage is made of all the places with one name, and every place is in one
usage.
-/

namespace DesignTokens

open Pattern

/-- The text from a place on to the end of its line; there is none outside of the content. -/
def textAt (content : String) (line start : Nat) : List Char :=
  ((Text.splitOn '\n' content.toList)[line]?.getD []).drop start

/-- One occurrence is before another in the order of their content: it begins before it, or it is
the empty one of two that begin at one place. -/
def Occurrence.Before (o o' : Occurrence) : Prop :=
  o.line < o'.line ∨ o.line = o'.line ∧ (o.column < o'.column ∨
    o.column = o'.column ∧ o.matchedText = "" ∧ o'.matchedText ≠ "")

instance : Std.Irrefl Occurrence.Before := ⟨fun o h => by
  unfold Occurrence.Before at h
  grind⟩

instance : Std.Antisymm Occurrence.Before := ⟨fun o o' h h' => by
  unfold Occurrence.Before at h h'
  grind⟩

namespace Pattern.Match

variable {m : Match}

/-- What the first group kept is the name, if it kept something. -/
theorem tokenName_of_capture (h : m.capture 1 ≠ []) : m.tokenName = m.capture 1 := by
  unfold tokenName
  split
  · rename_i hnil
    exact absurd hnil h
  · rfl

/-- Where the first group kept nothing, the whole match is the name. -/
theorem tokenName_of_capture_eq_nil (h : m.capture 1 = []) : m.tokenName = m.text := by
  unfold tokenName
  rw [h]

end Pattern.Match

namespace TokenFormat

variable {f : TokenFormat} {content path : String} {contextLength : Int}

/-- A match at a place as it is noted: the name of the token and the occurrence. -/
def noted (f : TokenFormat) (content path : String) (contextLength : Int) (line start : Nat)
    (m : Match) : String × Occurrence :=
  (String.ofList m.tokenName,
    { filePath := path
      line := line + 1
      column := start + 1
      context := String.ofList
        (contextAround ((Text.splitOn '\n' content.toList)[line]?.getD []) start contextLength)
      matchedText := String.ofList m.text
      formatName := f.name })

/-- What is noted in a content, line by line. -/
theorem matchesIn_eq (f : TokenFormat) (content path : String) (contextLength : Int) :
    f.matchesIn content path contextLength =
      (Text.splitOn '\n' content.toList).zipIdx.flatMap fun l =>
        (f.pattern.findAll l.1).map fun m =>
          f.noted content path contextLength l.2 m.start m.found := by
  unfold matchesIn
  refine List.flatMap_congr fun l hl => ?_
  unfold matchesInLine noted
  rw [List.mem_zipIdx_iff_getElem?.mp hl]
  rfl

/-- What is noted in a content is found in one of its lines. -/
theorem mem_matchesIn {x : String × Occurrence} :
    x ∈ f.matchesIn content path contextLength ↔
      ∃ line l m, (Text.splitOn '\n' content.toList)[line]? = some l ∧ m ∈ f.pattern.findAll l ∧
        x = f.noted content path contextLength line m.start m.found := by
  simp only [matchesIn_eq, List.mem_flatMap, List.mem_map]
  constructor
  · rintro ⟨⟨l, line⟩, hl, m, hm, rfl⟩
    exact ⟨line, l, m, List.mem_zipIdx_iff_getElem?.mp hl, hm, rfl⟩
  · rintro ⟨line, l, m, hline, hm, rfl⟩
    exact ⟨(l, line), List.mem_zipIdx_iff_getElem?.mpr hline, m, hm, rfl⟩

/-- What holds between the matches of one line and between occurrences in different lines holds
between all occurrences in a content. -/
theorem pairwise_matchesIn {r : String × Occurrence → String × Occurrence → Prop}
    (hsame : ∀ line l, (Text.splitOn '\n' content.toList)[line]? = some l →
      (f.pattern.findAll l).Pairwise fun m m' =>
        r (f.noted content path contextLength line m.start m.found)
          (f.noted content path contextLength line m'.start m'.found))
    (hlater : ∀ x y, x.2.line < y.2.line → r x y) :
    (f.matchesIn content path contextLength).Pairwise r := by
  rw [matchesIn_eq]
  refine pairwise_flatMap_zipIdx (fun line l hline => ?_) fun l l' hlt x hx y hy => ?_
  · rw [List.pairwise_map]
    exact hsame line l hline
  · obtain ⟨m, -, rfl⟩ := List.mem_map.mp hx
    obtain ⟨m', -, rfl⟩ := List.mem_map.mp hy
    exact hlater _ _ (Nat.succ_lt_succ hlt)

/-- The occurrences in a content are in its order. -/
theorem pairwise_occurrences (f : TokenFormat) (content path : String) (contextLength : Int) :
    (f.occurrences content path contextLength).Pairwise Occurrence.Before := by
  refine List.pairwise_map.mpr (pairwise_matchesIn (fun line l _ => ?_) fun x y => .inl)
  refine (pairwise_findFrom f.pattern 0 0 l).imp fun {m m'} hbefore => .inr ⟨rfl, ?_⟩
  rcases hbefore with hlt | ⟨hsame, hempty, htaking⟩
  · exact .inl (Nat.succ_lt_succ hlt)
  · refine .inr ⟨congrArg (· + 1) hsame, ?_, ?_⟩
    · simp [noted, hempty]
    · simpa [noted] using htaking

theorem textAt_of_line {line : Nat} {l : List Char}
    (h : (Text.splitOn '\n' content.toList)[line]? = some l) (start : Nat) :
    textAt content line start = l.drop start := by
  unfold textAt
  rw [h]
  rfl

/-- A place with some text is in a line of the content. -/
theorem exists_line_of_textAt {line start : Nat} (h : textAt content line start ≠ []) :
    ∃ l, (Text.splitOn '\n' content.toList)[line]? = some l := by
  unfold textAt at h
  cases hline : (Text.splitOn '\n' content.toList)[line]? with
  | none => simp [hline] at h
  | some l => exact ⟨l, rfl⟩

/-- A place with a match is in a line of the content. -/
theorem exists_line_of_matchAt (hf : f.pattern.IsTaking) {line start : Nat} {m : Match}
    (h : f.pattern.matchAt (textAt content line start) = some m) :
    ∃ l, (Text.splitOn '\n' content.toList)[line]? = some l := by
  have hne : textAt content line start ≠ [] := by
    intro hnil
    rw [hnil, hf.matchAt_nil] at h
    cases h
  exact exists_line_of_textAt hne

/-- What is noted in a content are the matches at all its places. -/
theorem mem_matchesIn_iff (hf : f.pattern.KeepsApart) {x : String × Occurrence} :
    x ∈ f.matchesIn content path contextLength ↔
      ∃ line start m, f.pattern.matchAt (textAt content line start) = some m ∧
        x = f.noted content path contextLength line start m := by
  rw [mem_matchesIn]
  constructor
  · rintro ⟨line, l, m, hline, hm, rfl⟩
    refine ⟨line, m.start, m.found, ?_, rfl⟩
    rw [textAt_of_line hline]
    exact hf.mem_findAll_iff.mp hm
  · rintro ⟨line, start, m, hm, rfl⟩
    obtain ⟨l, hline⟩ := exists_line_of_matchAt hf.isTaking hm
    rw [textAt_of_line hline] at hm
    exact ⟨line, l, ⟨start, m⟩, hline, hf.mem_findAll_iff.mpr hm, rfl⟩

/-- The references of a kind are what a format finds in a content: there is a match with its name at
the place of each, and no match elsewhere. -/
structure Finds (f : TokenFormat) (content : String) {ρ : Type} (place : ρ → Nat × Nat)
    (name : ρ → List Char) : Prop where
  found : ∀ r, ∃ m, f.pattern.matchAt (textAt content (place r).1 (place r).2) = some m ∧
    m.tokenName = name r
  only : ∀ line start m, f.pattern.matchAt (textAt content line start) = some m →
    ∃ r, place r = (line, start)

section Usages

variable {categorizer : Option Categorizer} {us : List Usage} {u v : Usage}

/-- A usage with all that a format notes under its name in a content, and the category of this
name. -/
structure Collects (f : TokenFormat) (content path : String) (contextLength : Int)
    (categorizer : Option Categorizer) (u : Usage) : Prop where
  tokenType : u.tokenType = f.name
  mem_iff : ∀ o, o ∈ u.occurrences ↔ (u.tokenName, o) ∈ f.matchesIn content path contextLength
  category : ∀ c ∈ categorizer, ∃ category,
    c.categorize u.tokenName (some path) = .ok category ∧ u.category = some category

/-- What is noted under the name of a usage is in it. -/
theorem Collects.mem_occurrences (hu : f.Collects content path contextLength categorizer u)
    {x : String × Occurrence} (hx : x ∈ f.matchesIn content path contextLength)
    (hname : u.tokenName = x.1) : x.2 ∈ u.occurrences := by
  rw [hu.mem_iff, hname]
  exact hx

/-- Each usage of a format has all that is noted under its name. -/
theorem collects_of_mem_usages (h : f.usages content path contextLength categorizer = .ok us)
    (hu : u ∈ us) : f.Collects content path contextLength categorizer u := by
  obtain ⟨g, hg, hgathers⟩ := exists_of_mem_forall₂ (forall₂_gathers h) hu
  refine ⟨hgathers.tokenType, fun o => ?_, hgathers.category⟩
  obtain ⟨name, -, rfl⟩ := List.mem_map.mp hg
  rw [hgathers.occurrences, hgathers.tokenName]
  simp

/-- What is noted has a usage. -/
theorem exists_mem_usages (h : f.usages content path contextLength categorizer = .ok us)
    {x : String × Occurrence} (hx : x ∈ f.matchesIn content path contextLength) :
    ∃ u ∈ us, u.tokenName = x.1 := by
  obtain ⟨u, hu, hgathers⟩ :=
    exists_of_mem_forall₂ (forall₂_gathers h).flip (mem_groupByKey hx)
  exact ⟨u, hu, hgathers.tokenName⟩

theorem nodup_tokenName_usages (h : f.usages content path contextLength categorizer = .ok us) :
    (us.map (·.tokenName)).Nodup := by
  have hnames : us.map (·.tokenName) =
      (groupByKey (·.1) (f.matchesIn content path contextLength)).map (·.1) := by
    rw [← List.forall₂_eq_eq_eq, List.forall₂_map_left_iff, List.forall₂_map_right_iff]
    exact (forall₂_gathers h).flip.imp fun _ _ hgathers => hgathers.tokenName
  rw [hnames]
  exact nodup_groupByKey (·.1) (f.matchesIn content path contextLength)

/-- Each name has one usage. -/
theorem eq_of_mem_usages (h : f.usages content path contextLength categorizer = .ok us)
    (hu : u ∈ us) (hv : v ∈ us) (hname : u.tokenName = v.tokenName) : u = v :=
  List.inj_on_of_nodup_map (nodup_tokenName_usages h) hu hv hname

end Usages

end TokenFormat

namespace Usage

variable {formats : List TokenFormat} {f : TokenFormat} {content path : String}
  {contextLength : Int} {categorizer : Option Categorizer} {us : List Usage}

/-- The usages with the name of a format. -/
def ofFormat (us : List Usage) (f : TokenFormat) : List Usage :=
  us.filter fun u => u.tokenType == f.name

theorem mem_ofFormat {u : Usage} : u ∈ ofFormat us f ↔ u ∈ us ∧ u.tokenType = f.name := by
  simp [ofFormat]

/-- With names that tell the formats apart, the usages of a file are those of the formats that apply
to it, one format after another. -/
theorem inFile_eq_ok_iff (hnames : (formats.map (·.name)).Nodup) :
    inFile formats content path contextLength categorizer = .ok us ↔
      (∀ f ∈ formats, f.appliesTo path = true →
          f.usages content path contextLength categorizer = .ok (ofFormat us f)) ∧
        us = (formats.filter (·.appliesTo path)).flatMap (ofFormat us) := by
  unfold inFile
  constructor
  · intro h
    obtain ⟨found, hfound, hflat⟩ := bind_eq_ok_iff.mp h
    obtain rfl := Except.ok.inj hflat
    have hanswers := mapM_eq_ok_iff.mp hfound
    have hparts : (formats.filter (·.appliesTo path)).map (ofFormat found.flatten) = found := by
      refine filter_flatten_of_forall₂ hanswers (hnames.sublist (List.filter_sublist.map _)) ?_
      exact fun f us hf u hu => (TokenFormat.collects_of_mem_usages hf hu).tokenType
    refine ⟨fun f hf happlies => ?_, ?_⟩
    · rw [← hparts, List.forall₂_map_right_iff, List.forall₂_same] at hanswers
      exact hparts ▸ hanswers f (List.mem_filter.mpr ⟨hf, happlies⟩)
    · rw [List.flatMap_def, hparts]
  · rintro ⟨husages, heq⟩
    refine bind_eq_ok_iff.mpr ⟨(formats.filter (·.appliesTo path)).map (ofFormat us), ?_, ?_⟩
    · rw [mapM_eq_ok_iff, List.forall₂_map_right_iff, List.forall₂_same]
      exact fun f hf => husages f (List.mem_filter.mp hf).1 (List.mem_filter.mp hf).2
    · rw [← List.flatMap_def, ← heq]

/-- A file has its usages if the categorizer judges the names that the formats find there. -/
theorem exists_inFile_iff :
    (∃ us, inFile formats content path contextLength categorizer = .ok us) ↔
      ∀ f ∈ formats, f.appliesTo path = true → ∀ x ∈ f.matchesIn content path contextLength,
        ∀ c ∈ categorizer, ∃ category, c.categorize x.1 (some path) = .ok category := by
  simp only [← TokenFormat.exists_usages_iff]
  constructor
  · rintro ⟨us, h⟩ f hf happlies
    obtain ⟨found, hfound, -⟩ := bind_eq_ok_iff.mp h
    obtain ⟨us, -, hus⟩ := exists_ok_of_mapM hfound (List.mem_filter.mpr ⟨hf, happlies⟩)
    exact ⟨us, hus⟩
  · intro h
    obtain ⟨found, hfound⟩ := exists_mapM_eq_ok fun f hf =>
      h f (List.mem_filter.mp hf).1 (List.mem_filter.mp hf).2
    exact ⟨found.flatten, bind_eq_ok_iff.mpr ⟨found, hfound, rfl⟩⟩

/-- With names that tell the formats apart, the usages of a file under the name of a format are
those that the format finds there. -/
theorem exists_usages_of_inFile (hnames : (formats.map (·.name)).Nodup) (hf : f ∈ formats)
    (happlies : f.appliesTo path = true)
    (h : inFile formats content path contextLength categorizer = .ok us) :
    ∃ found, f.usages content path contextLength categorizer = .ok found ∧
      ∀ u, u ∈ us ∧ u.tokenType = f.name ↔ u ∈ found :=
  ⟨ofFormat us f, ((inFile_eq_ok_iff hnames).mp h).1 f hf happlies, fun _ => mem_ofFormat.symm⟩

/-- A file has its usages if the categorizer judges every token. -/
theorem exists_inFile (formats : List TokenFormat) (content path : String)
    (contextLength : Int) (categorizer : Option Categorizer)
    (h : ∀ c ∈ categorizer, ∀ token, ∃ category,
      c.categorize token (some path) = .ok category) :
    ∃ us, inFile formats content path contextLength categorizer = .ok us :=
  exists_inFile_iff.mpr fun _ _ _ x _ c hc => h c hc x.1

end Usage

/-- The usage refers to a token at a place. -/
def Usage.RefersFrom (u : Usage) (line start : Nat) : Prop :=
  ∃ o ∈ u.occurrences, o.line = line + 1 ∧ o.column = start + 1

/-- A match in a file has exactly one usage of its format, and the categorizer judges this usage by
the name that the match gives. -/
theorem Usage.exists_of_matchAt {formats : List TokenFormat} {f : TokenFormat}
    {content path : String} {contextLength : Int} {c : Categorizer} {us : List Usage}
    {line start : Nat} {m : Match} (hnames : (formats.map (·.name)).Nodup) (hf : f ∈ formats)
    (happlies : f.appliesTo path = true) (hkeeps : f.pattern.KeepsApart)
    (h : inFile formats content path contextLength (some c) = .ok us)
    (hm : f.pattern.matchAt (textAt content line start) = some m) :
    ∃ u category,
      (∀ v, (v ∈ us ∧ v.tokenType = f.name ∧ v.RefersFrom line start) ↔ v = u) ∧
        c.categorize (String.ofList m.tokenName) (some path) = .ok category ∧
        u.category = some category := by
  obtain ⟨found, hfound, hmem⟩ := exists_usages_of_inFile hnames hf happlies h
  have hnoted : f.noted content path contextLength line start m ∈
      f.matchesIn content path contextLength :=
    (TokenFormat.mem_matchesIn_iff hkeeps).mpr ⟨line, start, m, hm, rfl⟩
  obtain ⟨u, hu, huname⟩ := TokenFormat.exists_mem_usages hfound hnoted
  have hcollects := TokenFormat.collects_of_mem_usages hfound hu
  obtain ⟨category, hcategory, hhas⟩ := hcollects.category c rfl
  rw [huname] at hcategory
  refine ⟨u, category, fun v => ⟨?_, ?_⟩, hcategory, hhas⟩
  · rintro ⟨hv, htype, o, ho, hline, hcolumn⟩
    have hvfound := (hmem v).mp ⟨hv, htype⟩
    rw [(TokenFormat.collects_of_mem_usages hfound hvfound).mem_iff,
      TokenFormat.mem_matchesIn_iff hkeeps] at ho
    obtain ⟨line', start', m', hm', hx⟩ := ho
    obtain ⟨hvname, rfl⟩ := Prod.mk.inj hx
    -- What is noted on this line and column is the match itself.
    obtain rfl : line' = line := Nat.succ.inj hline
    obtain rfl : start' = start := Nat.succ.inj hcolumn
    obtain rfl := Option.some.inj (hm'.symm.trans hm)
    exact TokenFormat.eq_of_mem_usages hfound hvfound hu (hvname.trans huname.symm)
  · rintro rfl
    obtain ⟨hv, htype⟩ := (hmem v).mpr hu
    exact ⟨hv, htype, _, hcollects.mem_occurrences hnoted huname, rfl, rfl⟩

end DesignTokens

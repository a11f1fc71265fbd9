import DesignTokens.Proofs.History.Store
import DesignTokens.Proofs.Report.Totals
import DesignTokens.Report.Files

/-!
# What a report inserts into its page

The pieces of a page are those of its skeleton, which is markup with places between, and texts in
the places. How many tokens, repositories, patterns and errors there are gives the skeleton, and
the values of the report in their order give the texts. A text is written with entities, so it has
no character that means something in markup, and the value can be read back from it. The file that
is written holds the page as it is.
-/

namespace DesignTokens

namespace Page

/-! ## Entities -/

/-- The characters that begin and end tags and values in markup. -/
def markup : List Char := ['<', '>', '\'', '"']

/-- A text with the characters that entities stand for in their places. -/
def unescape : List Char → List Char
  | '&' :: 'a' :: 'm' :: 'p' :: ';' :: rest => '&' :: unescape rest
  | '&' :: 'l' :: 't' :: ';' :: rest => '<' :: unescape rest
  | '&' :: 'g' :: 't' :: ';' :: rest => '>' :: unescape rest
  | '&' :: '#' :: '3' :: '9' :: ';' :: rest => '\'' :: unescape rest
  | '&' :: '#' :: '3' :: '4' :: ';' :: rest => '"' :: unescape rest
  | c :: rest => c :: unescape rest
  | [] => []

/-- A character without an entity stands for itself. -/
theorem escapeChar_of_notMem {c : Char} (h : c ∉ '&' :: markup) : escapeChar c = [c] := by
  simp only [markup, List.mem_cons, List.not_mem_nil, or_false, not_or] at h
  simp [escapeChar, h]

/-- A character that begins no escape is read as it is. -/
theorem unescape_cons {c : Char} (h : c ≠ '&') (rest : List Char) :
    unescape (c :: rest) = c :: unescape rest := by
  rw [unescape] <;> simp [h]

/-- A character is read back from what is written for it. -/
theorem unescape_escapeChar_append (c : Char) (rest : List Char) :
    unescape (escapeChar c ++ rest) = c :: unescape rest := by
  by_cases hc : c ∈ '&' :: markup
  · simp only [markup, List.mem_cons, List.not_mem_nil, or_false] at hc
    rcases hc with rfl | rfl | rfl | rfl | rfl <;> rfl
  · rw [escapeChar_of_notMem hc]
    exact unescape_cons (List.ne_of_not_mem_cons hc) rest

/-- A text is read back from what is written for it. -/
theorem unescape_escape (text : List Char) : unescape (escape text) = text := by
  induction text with
  | nil => rfl
  | cons c text ih =>
    change unescape (escapeChar c ++ escape text) = c :: text
    rw [unescape_escapeChar_append, ih]

/-- What is written for a character has no markup. -/
theorem notMem_markup_of_mem_escapeChar (c : Char) : ∀ d ∈ escapeChar c, d ∉ markup := by
  by_cases hc : c ∈ '&' :: markup
  · simp only [markup, List.mem_cons, List.not_mem_nil, or_false] at hc
    rcases hc with rfl | rfl | rfl | rfl | rfl <;> simp [escapeChar, markup]
  · rw [escapeChar_of_notMem hc, List.forall_mem_singleton]
    exact List.not_mem_of_not_mem_cons hc

/-- What is written for a text has no markup. -/
theorem notMem_markup_of_mem_escape (text : List Char) : ∀ d ∈ escape text, d ∉ markup := by
  intro d hd
  obtain ⟨c, -, hd⟩ := List.mem_flatMap.mp hd
  exact notMem_markup_of_mem_escapeChar c d hd

/-! ## Places -/

/-- The markup of a piece; an inserted one is a place. -/
def place : PagePiece → Option String
  | .fixed text => some text
  | .inserted _ => none

/-- The texts that are inserted, in order. -/
def insertedIn (ps : List PagePiece) : List Spelling :=
  ps.filterMap fun
    | .fixed _ => none
    | .inserted text => some text

/-- Markup with texts in the places. -/
def fill : List (Option String) → List (List Char) → List Char
  | [], _ => []
  | some text :: places, texts => text.toList ++ fill places texts
  | none :: places, [] => fill places []
  | none :: places, text :: texts => text ++ fill places texts

/-- The markup without the places. -/
def markupOf (places : List (Option String)) : List Char :=
  places.flatMap fun place => (place.getD "").toList

/-- The page of pieces is their markup with the inserted texts in the places. -/
theorem fill_map_place (ps : List PagePiece) :
    fill (ps.map place) ((insertedIn ps).map fun text => escape text.shown.toList) =
      ps.flatMap writtenPiece := by
  induction ps with
  | nil => rfl
  | cons p ps ih =>
    rw [List.flatMap_cons, ← ih]
    cases p <;> rfl

/-- There is a text for each place. -/
theorem count_map_place (ps : List PagePiece) :
    (ps.map place).count none = (insertedIn ps).length := by
  induction ps with
  | nil => rfl
  | cons p ps ih =>
    rw [List.map_cons, List.count_cons, ih]
    cases p <;> rfl

/-- Pages that are filled with values: texts with entities stand in the places. -/
structure IsFilled (places : List (Option String)) (values : List String)
    (texts : List (List Char)) (page : List Char) : Prop where
  page_eq : page = fill places texts
  /-- There is a text for each place. -/
  length_eq : texts.length = places.count none
  /-- The value of a place is what its text gives without entities. -/
  values_eq : texts.map unescape = values.map String.toList
  /-- No text has any markup. -/
  harmless : ∀ text ∈ texts, ∀ c ∈ text, c ∉ markup

/-- All characters that mean something in markup are those of the markup. -/
theorem filter_fill {places : List (Option String)} {texts : List (List Char)}
    (h : ∀ text ∈ texts, ∀ c ∈ text, c ∉ markup) :
    (fill places texts).filter (· ∈ markup) = (markupOf places).filter (· ∈ markup) := by
  have hnone : ∀ text ∈ texts, text.filter (· ∈ markup) = [] := by
    intro text htext
    simpa [List.filter_eq_nil_iff] using h text htext
  induction places, texts using fill.induct with
  | case1 texts => rfl
  | case2 texts text places ih =>
    rw [fill, markupOf, List.flatMap_cons, List.filter_append, List.filter_append, ih h hnone]
    rfl
  | case3 places ih => exact ih h hnone
  | case4 places text texts ih =>
    rw [List.forall_mem_cons] at h hnone
    rw [fill, List.filter_append, hnone.1, List.nil_append, ih h.2 hnone.2]
    rfl

/-- The page of pieces is filled with what they insert. -/
theorem exists_isFilled (ps : List PagePiece) :
    ∃ texts, IsFilled (ps.map place) ((insertedIn ps).map Spelling.shown) texts
      (ps.flatMap writtenPiece) := by
  refine ⟨(insertedIn ps).map fun text => escape text.shown.toList, ?_⟩
  constructor
  case page_eq => exact (fill_map_place ps).symm
  case length_eq => rw [List.length_map, count_map_place]
  case values_eq =>
    rw [List.map_map, List.map_map]
    exact List.map_congr_left fun text _ => unescape_escape text.shown.toList
  case harmless =>
    intro text htext
    obtain ⟨t, -, rfl⟩ := List.mem_map.mp htext
    exact notMem_markup_of_mem_escape t.shown.toList

/-! ## The skeleton -/

/-- How many entries of each kind a report has. -/
structure Shape where
  tokens : Nat
  /-- The patterns and the errors of each repository. -/
  repositories : List (Nat × Nat)

namespace Shape

def ofResult (r : ScanResult) : Nat × Nat := (r.patterns.length, r.errors.length)

def ofReport (r : Report) : Shape :=
  ⟨r.summary.topTokens.length, r.repositories.map ofResult⟩

/-- A result with entries that have nothing in them. -/
def blankResult (n : Nat × Nat) : ScanResult :=
  { (default : ScanResult) with
    patterns := List.replicate n.1 default
    errors := List.replicate n.2 "" }

/-- A report with entries that have nothing in them. -/
def blank (s : Shape) : Report where
  scanDate := default
  totalTokens := 0
  uniqueTokens := 0
  repositories := s.repositories.map blankResult
  summary := ⟨0, none, [], [], List.replicate s.tokens default⟩

end Shape

/-- The markup of pages of a shape, with places between. -/
def skeleton (s : Shape) : List (Option String) :=
  (pieces default s.blank).map place

section Table

variable {α : Type} {row : α → List PagePiece}

/-- Rows between a top and a bottom, if there are any. -/
def table (top bottom : PagePiece) (row : α → List PagePiece) (xs : List α) : List PagePiece :=
  if xs.isEmpty then [] else top :: (xs.flatMap row ++ [bottom])

/-- Where all rows have the same markup, the markup depends on their number alone. -/
theorem map_place_table_congr {top bottom : PagePiece} {xs ys : List α}
    (hrow : ∀ x y, (row x).map place = (row y).map place) (h : xs.length = ys.length) :
    (table top bottom row xs).map place = (table top bottom row ys).map place := by
  have hrows : (xs.flatMap row).map place = (ys.flatMap row).map place := by
    induction xs generalizing ys with
    | nil => rw [List.eq_nil_of_length_eq_zero h.symm]
    | cons x xs ih =>
      obtain ⟨y, ys, rfl⟩ := List.exists_cons_of_length_eq_add_one h.symm
      rw [List.flatMap_cons, List.flatMap_cons, List.map_append, List.map_append, hrow x y,
        ih (Nat.succ.inj h)]
  have hempty : xs.isEmpty = ys.isEmpty := by
    rw [Bool.eq_iff_iff, List.isEmpty_iff_length_eq_zero, List.isEmpty_iff_length_eq_zero, h]
  unfold table
  rw [hempty]
  split
  · rfl
  · rw [List.map_cons, List.map_cons, List.map_append, List.map_append, hrows]

/-- What a table inserts is what its rows insert. -/
theorem insertedIn_table (top bottom : String) (row : α → List PagePiece) (xs : List α) :
    insertedIn (table (.fixed top) (.fixed bottom) row xs) =
      xs.flatMap fun x => insertedIn (row x) := by
  cases xs with
  | nil => rfl
  | cons x xs =>
    change insertedIn ((x :: xs).flatMap row ++ [.fixed bottom]) = _
    simp [insertedIn, List.filterMap_append, List.filterMap_flatMap]

end Table

/-- The three tables of a page. -/
theorem exists_table_topTokens : ∃ top bottom, ∀ tokens, topTokens tokens =
    table (.fixed top) (.fixed bottom)
      (fun t => row (.text t.name) (.int t.usage) (.text (t.category.getD ""))) tokens :=
  ⟨_, _, fun _ => rfl⟩

/-- The table of patterns is one in the common layout. -/
theorem exists_table_patterns : ∃ top bottom, ∀ found, patterns found =
    table (.fixed top) (.fixed bottom)
      (fun p => row (.text p.name) (.int p.count) (.text p.complexity.word)) found :=
  ⟨_, _, fun _ => rfl⟩

/-- The list of errors is one in the common layout. -/
theorem exists_table_errors : ∃ top bottom, ∀ messages, errors messages =
    table (.fixed top) (.fixed bottom)
      (fun e => [.fixed "<div>", .inserted (Spelling.ofString e), .fixed "</div>"]) messages :=
  ⟨_, _, fun _ => rfl⟩

/-- Lists of as many tokens have values in the same places. -/
theorem map_place_topTokens_congr {tokens tokens' : List TopToken}
    (h : tokens.length = tokens'.length) :
    (topTokens tokens).map place = (topTokens tokens').map place := by
  obtain ⟨top, bottom, htable⟩ := exists_table_topTokens
  rw [htable, htable]
  exact map_place_table_congr (fun _ _ => rfl) h

/-- Results of one shape have values in the same places. -/
theorem map_place_repository_congr {r r' : ScanResult} (h : Shape.ofResult r = Shape.ofResult r') :
    (repository r).map place = (repository r').map place := by
  obtain ⟨hpatterns, herrors⟩ := Prod.mk.inj h
  obtain ⟨top, bottom, htable⟩ := exists_table_patterns
  obtain ⟨top', bottom', htable'⟩ := exists_table_errors
  have hfirst : (patterns r.patterns).map place = (patterns r'.patterns).map place := by
    rw [htable, htable]
    exact map_place_table_congr (fun _ _ => rfl) hpatterns
  have hsecond : (errors r.errors).map place = (errors r'.errors).map place := by
    rw [htable', htable']
    exact map_place_table_congr (fun _ _ => rfl) herrors
  simp only [repository, List.map_append, hfirst, hsecond]
  rfl

/-- A blank result has the shape it is made for. -/
theorem Shape.ofResult_blankResult (n : Nat × Nat) : ofResult (blankResult n) = n := by
  simp [ofResult, blankResult]

/-- A blank report has the shape it is made for. -/
theorem Shape.ofReport_blank (s : Shape) : ofReport s.blank = s := by
  simp [ofReport, blank, Function.comp_def, ofResult_blankResult]

/-- The sections on repositories have the markup of sections with nothing in them. -/
theorem map_place_flatMap_repository (rs : List ScanResult) :
    (rs.flatMap repository).map place = (rs.map Shape.ofResult).flatMap fun n =>
      (repository (Shape.blankResult n)).map place := by
  rw [List.map_flatMap, List.flatMap_map]
  exact List.flatMap_congr fun r _ =>
    map_place_repository_congr (Shape.ofResult_blankResult _).symm

/-- All reports have the values of the overview in the same places. -/
theorem map_place_overview_congr (r r' : Report) :
    (overview r).map place = (overview r').map place := rfl

/-- The markup of a page and its places depend on the shape of the report alone. -/
theorem map_place_pieces_congr {r r' : Report} (h : Shape.ofReport r = Shape.ofReport r')
    (generated generated' : Timestamp) :
    (pieces generated r).map place = (pieces generated' r').map place := by
  obtain ⟨htokens, hrepositories⟩ := Shape.mk.inj h
  unfold pieces
  simp only [List.map_append, map_place_topTokens_congr htokens, map_place_flatMap_repository,
    hrepositories, map_place_overview_congr r r']
  rfl

/-- They are the skeleton for the shape. -/
theorem map_place_pieces (generated : Timestamp) (r : Report) :
    (pieces generated r).map place = skeleton (Shape.ofReport r) :=
  map_place_pieces_congr (Shape.ofReport_blank (Shape.ofReport r)).symm generated default

/-! ## The values -/

/-- The values of a result, in the order of their places. -/
def valuesOf (r : ScanResult) : List Value :=
  [r.repository.name, .int r.summary.scannedFiles, .int r.summary.totalFiles, .int r.totalUsage,
    .int r.coverage] ++
  (r.patterns.flatMap fun p => [.text p.name, .int p.count, .text p.complexity.word]) ++
  r.errors.map fun e => .text e

/-- The values of a report and its date, in the order of their places. -/
def values (generated : Timestamp) (r : Report) : List Value :=
  [.text generated.plain, .int r.repositories.length, .int r.totalTokens, .int r.uniqueTokens,
    r.summary.averageValue] ++
  (r.summary.topTokens.flatMap fun t =>
    [.text t.name, .int t.usage, .text (t.category.getD "")]) ++
  r.repositories.flatMap valuesOf

/-- The texts inserted in two parts are those of the one and of the other. -/
theorem insertedIn_append (ps qs : List PagePiece) :
    insertedIn (ps ++ qs) = insertedIn ps ++ insertedIn qs := List.filterMap_append

/-- The texts inserted for many items are those for each. -/
theorem insertedIn_flatMap {α : Type} (f : α → List PagePiece) (xs : List α) :
    insertedIn (xs.flatMap f) = xs.flatMap fun x => insertedIn (f x) :=
  List.filterMap_flatMap

/-- In fixed lines nothing is inserted. -/
theorem insertedIn_lines (parts : List String) : insertedIn [lines parts] = [] := rfl

/-- The part about a repository has its values inserted in order. -/
theorem insertedIn_repository (r : ScanResult) :
    insertedIn (repository r) = (valuesOf r).map Value.spelled := by
  obtain ⟨top, bottom, htable⟩ := exists_table_patterns
  obtain ⟨top', bottom', htable'⟩ := exists_table_errors
  have hpatterns : insertedIn (patterns r.patterns) = (r.patterns.flatMap fun p =>
      [.text p.name, .int p.count, .text p.complexity.word]).map Value.spelled := by
    rw [htable, insertedIn_table, List.map_flatMap]
    rfl
  have herrors : insertedIn (errors r.errors) =
      (r.errors.map fun e : String => Value.text e).map Value.spelled := by
    rw [htable', insertedIn_table, List.map_map]
    exact List.map_eq_flatMap.symm
  unfold repository valuesOf
  simp only [insertedIn_append, List.map_append, ← hpatterns, ← herrors, insertedIn_lines,
    List.append_nil]
  rfl

/-- The page has the values of the report inserted in order. -/
theorem insertedIn_pieces (generated : Timestamp) (r : Report) :
    insertedIn (pieces generated r) = (values generated r).map Value.spelled := by
  obtain ⟨top, bottom, htable⟩ := exists_table_topTokens
  have htokens : insertedIn (topTokens r.summary.topTokens) =
      (r.summary.topTokens.flatMap fun t =>
        [.text t.name, .int t.usage, .text (t.category.getD "")]).map Value.spelled := by
    rw [htable, insertedIn_table, List.map_flatMap]
    rfl
  have hrepositories : insertedIn (r.repositories.flatMap repository) =
      (r.repositories.flatMap valuesOf).map Value.spelled := by
    rw [insertedIn_flatMap, List.map_flatMap]
    exact List.flatMap_congr fun x _ => insertedIn_repository x
  unfold pieces values
  simp only [insertedIn_append, List.map_append, ← htokens, ← hrepositories, insertedIn_lines,
    List.append_nil]
  rfl

/-! ## Halves of pairs -/

/-- A page holds no lone half if no inserted text does. -/
theorem halvesFrom_eq_none_iff (position : Nat) (ps : List PagePiece) :
    halvesFrom position ps = none ↔ ∀ text ∈ insertedIn ps, text.halves? = none := by
  induction ps generalizing position with
  | nil => exact iff_of_true rfl nofun
  | cons p ps ih =>
    cases p with
    | fixed text => exact ih _
    | inserted text =>
      change _ ↔ ∀ t ∈ text :: insertedIn ps, _
      rw [List.forall_mem_cons, ← ih (position + (writtenPiece (.inserted text)).length)]
      cases hhalves : text.halves? <;> simp [halvesFrom, halvesIn, hhalves]

/-- A page has no halves of pairs exactly when none of its values has. -/
theorem halves?_eq_none_iff (generated : Timestamp) (r : Report) :
    halves? generated r = none ↔ ∀ v ∈ values generated r, v.spelled.halves? = none := by
  rw [halves?, halvesFrom_eq_none_iff, insertedIn_pieces, List.forall_mem_map]

end Page

namespace Report

open Page

variable {results : List ScanResult} {directory : Value} {path : String} {w w' : World}

/-- A report is collected if there is one and the fields of the results are not nested too
deeply. -/
theorem collect_eq_ok_iff [Nesting.Room] {now : Timestamp} {report : Report} :
    collect now results = .ok report ↔
      (∀ r ∈ results, isShallow r = true) ∧ ofResults now results = .ok report := by
  unfold collect
  split_ifs with hshallow
  · exact (and_iff_right (List.all_eq_true.mp hshallow)).symm
  · rw [← List.all_eq_true]
    exact iff_of_false nofun fun h => hshallow h.1

/-- The file that is written holds the page, which has no halves of pairs. -/
theorem of_writePage [Nesting.Room] (h : outcome (writePage results directory) w = (.ok path, w')) :
    ∃ report, ofResults w.now results = .ok report ∧ halves? w.now report = none ∧
      w'.files.read w'.directory path =
        .ok (Text.Utf8.encode (Page.ofReport w.now report).toList) := by
  unfold writePage at h
  rw [outcome_bind_of_ok (outcome_get w)] at h
  obtain ⟨report, w₁, hmade, h⟩ := exists_of_outcome_bind h
  rw [outcome_ofExcept] at hmade
  obtain ⟨hreport, rfl⟩ := Prod.mk.inj hmade
  obtain ⟨asked, w₂, -, h⟩ := exists_of_outcome_bind h
  obtain ⟨made, w₃, -, h⟩ := exists_of_outcome_bind h
  dsimp only at h
  refine ⟨report, (collect_eq_ok_iff.mp hreport).2, ?_⟩
  cases hhalves : halves? w.now report with
  | some halves =>
    rw [hhalves] at h
    obtain ⟨-, w₄, -, h⟩ := exists_of_outcome_bind h
    cases h
  | none =>
    rw [hhalves] at h
    obtain ⟨_, w₄, hwritten, h⟩ := exists_of_outcome_bind h
    obtain ⟨files, hfiles, rfl⟩ := Run.write_of_writeBytes hwritten
    rw [outcome_bind_of_ok (outcome_say _ _)] at h
    obtain ⟨hpath, rfl⟩ := Prod.mk.inj h
    obtain rfl := Except.ok.inj hpath
    refine ⟨rfl, ?_⟩
    have hbase := World.base_said { w₃ with files := files } (Terminal.paint Terminal.green
      ("HTML report generated at: " ++ PathText.append made "token-scan-report.html"))
    rw [World.files_of_base hbase, World.directory_of_base hbase]
    exact FileTree.read_of_write hfiles

/-- The page on the report that is made of results has the skeleton for its shape, with a text in
each place that gives back the value of this place, and all its markup is that of the skeleton.
There is such a report if every team can be a key and the coverages have a mean. The page that is
written is this one, and it has no halves of pairs. -/
theorem page_isFilled [Nesting.Room] (results : List ScanResult) (directory : Value) (w : World) :
    ((∃ report, ofResults w.now results = .ok report) ↔
        (∀ r ∈ results, (ReportSummary.teamOf r).isKey = true) ∧
          ∃ mean, ReportSummary.average results = .ok mean) ∧
      (∀ report, ofResults w.now results = .ok report → ∃ texts,
        IsFilled (skeleton (Shape.ofReport report))
          ((values w.now report).map Value.displayString) texts
          (Page.ofReport w.now report).toList ∧
        (Page.ofReport w.now report).toList.filter (· ∈ markup) =
          (markupOf (skeleton (Shape.ofReport report))).filter (· ∈ markup)) ∧
      ∀ path w', outcome (writePage results directory) w = (.ok path, w') →
        ∃ report, ofResults w.now results = .ok report ∧
          (∀ v ∈ values w.now report, v.spelled.halves? = none) ∧
          w'.files.read w'.directory path =
            .ok (Text.Utf8.encode (Page.ofReport w.now report).toList) := by
  refine ⟨exists_ofResults_iff_average, fun report _ => ?_, fun path w' h => ?_⟩
  · obtain ⟨texts, hfilled⟩ := exists_isFilled (pieces w.now report)
    rw [map_place_pieces, insertedIn_pieces, List.map_map] at hfilled
    have hpage : (Page.ofReport w.now report).toList =
        (pieces w.now report).flatMap writtenPiece := String.toList_ofList
    rw [hpage]
    refine ⟨texts, hfilled, ?_⟩
    rw [hfilled.page_eq]
    exact filter_fill hfilled.harmless
  · obtain ⟨report, hreport, hhalves, hread⟩ := of_writePage h
    exact ⟨report, hreport, (halves?_eq_none_iff w.now report).mp hhalves, hread⟩

/-- A failed result that has markup in its name and in its error. -/
def withMarkup : ScanResult :=
  .failed (Repository.ofDirectory "/repo" "<b>'repo'</b>") default "\"gone\" &lt; <script>"

attribute [local instance] Nesting.Room.ample

/-- The page with this result is filled and written. -/
theorem page_isFilled_withMarkup : ∃ report texts path w',
    ofResults (World.ofFiles ⟨[]⟩).now [withMarkup] = .ok report ∧
      IsFilled (skeleton (Shape.ofReport report))
        ((values (World.ofFiles ⟨[]⟩).now report).map Value.displayString) texts
        (Page.ofReport (World.ofFiles ⟨[]⟩).now report).toList ∧
      outcome (writePage [withMarkup] (.text "reports")) (World.ofFiles ⟨[]⟩) = (.ok path, w') ∧
      w'.files.read w'.directory path =
        .ok (Text.Utf8.encode (Page.ofReport (World.ofFiles ⟨[]⟩).now report).toList) := by
  have hpath : (outcome (writePage [withMarkup] (.text "reports"))
      (World.ofFiles ⟨[]⟩)).1.toOption = some "reports/token-scan-report.html" := by
    decide +kernel
  obtain ⟨w', h⟩ := exists_outcome_of_toOption hpath
  obtain ⟨-, hfilled, hwritten⟩ :=
    page_isFilled [withMarkup] (.text "reports") (World.ofFiles ⟨[]⟩)
  obtain ⟨report, hreport, -, hread⟩ := hwritten _ w' h
  obtain ⟨texts, hpage, -⟩ := hfilled report hreport
  exact ⟨report, texts, _, w', hreport, hpage, h, hread⟩

end Report

end DesignTokens

import DesignTokens.Proofs.History.Exchanges
import DesignTokens.Proofs.History.Subject

/-!
# From replies to records

What a report tells, record by record, is determined by the replies to the commands: the lines of
the log, the lines about the files of each commit, and the change of each modified file. The lines
about files are those of the reply without the white space around it, so that a line at its
beginning or end may be read differently from how it stands there.
-/

namespace DesignTokens

/-! ## The files listed in a reply -/

/-- A token file in a line about the files of a commit. -/
structure ListedFile where
  status : List Char
  path : String

/-- A line with at least two fields between tabs lists the file in its last field, if that is a
token file; the status is the first field. -/
def ListedFile.ofLine? (line : List Char) : Option ListedFile :=
  let fields := Text.splitOn '\t' line
  let path := String.ofList (fields.getLastD [])
  if 2 ≤ fields.length ∧ TokenFile.isTokenFile path = true then some ⟨fields.headD [], path⟩
  else none

/-- The lines of a reply without the white space around it. -/
def trimmedLines (reply : String) : List (List Char) :=
  Text.splitLines (Text.trim reply.toList)

/-- The lines of a reply as it stands. -/
def plainLines (reply : String) : List (List Char) := Text.splitLines reply.toList

/-- A line about a file touched is read as its status and its path. -/
theorem Detector.touched?_eq (line : List Char) :
    touched? line = (ListedFile.ofLine? line).map fun f => (f.status, f.path) := by
  unfold touched? ListedFile.ofLine?
  match hfields : Text.splitOn '\t' line with
  | [] => rfl
  | [_] => rfl
  | status :: next :: more =>
    have hlast : (status :: next :: more).getLastD [] = (next :: more).getLast?.getD next := by
      rw [List.getLastD_cons, List.getLastD_eq_getLast?, List.getLast?_cons]
      rfl
    simp only [hlast, List.length_cons, Nat.le_add_left, true_and]
    split <;> rfl

/-- The files that are read from a reply are those listed in its trimmed lines. -/
theorem Detector.filterMap_touched? (reply : String) :
    (Text.splitLines (Text.trim reply.toList)).filterMap touched? =
      ((trimmedLines reply).filterMap ListedFile.ofLine?).map fun f => (f.status, f.path) := by
  rw [List.map_filterMap]
  exact List.filterMap_congr fun line _ => touched?_eq line

/-! ## What a record tells -/

/-- A record is about a file in a commit. -/
structure ChangeRecord.IsAbout (r : ChangeRecord) (c : Commit) (path : String) : Prop where
  commit : r.commit.toList = c.hash.toList.take 8
  filePath : r.filePath = path
  category : r.category = TokenFile.category path
  severity : r.severity = "warning" ↔ r.kind = .removed

/-- A record tells a change of a token: what happened follows from the values that are present. -/
structure ChangeRecord.Tells (r : ChangeRecord) (change : TokenChange) : Prop where
  tokenName : r.tokenName = change.tokenName
  oldValue : r.oldValue = change.oldValue
  newValue : r.newValue = change.newValue
  updated : r.kind = .updated ↔ change.oldValue.isSome = true ∧ change.newValue.isSome = true
  added : r.kind = .added ↔ change.oldValue = none ∧ change.newValue.isSome = true
  removed : r.kind = .removed ↔ change.oldValue.isSome = true ∧ change.newValue = none

/-- The records about a listed file, and the exchanges they come from. -/
inductive ListedFile.Tells (lookahead : Int) (c : Commit) (f : ListedFile) :
    List ChangeRecord → List Exchange → Prop
  /-- One record for each change in the reply. -/
  | changed {diff : String} {changes : List TokenChange} {records : List ChangeRecord}
    (hadded : f.status.head? ≠ some 'A') (hdeleted : f.status.head? ≠ some 'D')
    (hchanges : TokenChange.ofDiff diff lookahead = .ok changes)
    (hrecords : List.Forall₂ (fun change r => ChangeRecord.Tells r change ∧ r.IsAbout c f.path)
      changes records) :
    Tells lookahead c f records [⟨.diffOf c.hash f.path, .ok diff⟩]
  /-- The command fails, and there is no record. -/
  | untold {e : GitFailure} (hadded : f.status.head? ≠ some 'A')
    (hdeleted : f.status.head? ≠ some 'D') (hgit : e.cause.isGit = true) :
    Tells lookahead c f [] [⟨.diffOf c.hash f.path, .error e⟩]
  /-- One record named after the file, and no command. -/
  | added {r : ChangeRecord} (hadded : f.status.head? = some 'A') (habout : r.IsAbout c f.path)
    (hkind : r.kind = .added) (hname : r.tokenName = PathText.stem f.path) :
    Tells lookahead c f [r] []
  /-- Neither a record nor a command. -/
  | deleted (hdeleted : f.status.head? = some 'D') : Tells lookahead c f [] []

/-- The records about a commit, and the exchanges they come from. The lines of a reply are read by
`linesOf`. -/
inductive Commit.Tells (linesOf : String → List (List Char)) (lookahead : Int) (c : Commit) :
    List ChangeRecord → List Exchange → Prop
  | listed {reply : String} {records : List (List ChangeRecord)} {talk : List Exchange}
    (h : InTurn (ListedFile.Tells lookahead c) ((linesOf reply).filterMap ListedFile.ofLine?)
      records talk) :
    Tells linesOf lookahead c records.flatten (⟨.filesOf c.hash, .ok reply⟩ :: talk)
  /-- A command that fails counts as an empty reply. -/
  | unlisted {e : GitFailure} (hgit : e.cause.isGit = true) :
    Tells linesOf lookahead c [] [⟨.filesOf c.hash, .error e⟩]

/-- The commands before the one about the log. -/
def Request.opening (d : Detector) : Request → List GitCall
  | .sinceLast => [.opened d.path, .head]
  | .recent _ => [.opened d.path]

/-- The commits that a turn reports are those of the log, and their records come, commit by commit,
from the exchanges of the turn. -/
def Turn.Tells (linesOf : String → List (List Char)) (t : Turn) (found : List Commit) : Prop :=
  ∃ opening range since reply records talk,
    t.world.Exchanges t.left (opening ++ ⟨.log range since, .ok reply⟩ :: talk) ∧
    opening.map Exchange.call = t.request.opening t.before ∧
    found.map Commit.logFields = Detector.fieldsIn reply ∧
    InTurn (Commit.Tells linesOf t.before.lookahead) found records talk ∧
    ChangeRecord.ofCommits found = records.flatten

/-! ## The records of a file -/

namespace ChangeRecord

variable {c : Commit} {path : String}

/-- A record is a warning if it tells of a removal. -/
theorem severity_eq_warning_iff (r : ChangeRecord) :
    r.severity = "warning" ↔ r.kind = .removed := by
  unfold severity
  split
  next h => simp [h]
  next h => simp [h]

/-- The short hash is the first eight characters of the hash. -/
theorem toList_shortHash (c : Commit) : c.shortHash.toList = c.hash.toList.take 8 :=
  String.toList_ofList

/-- The record of a new file is about the file and its commit. -/
theorem isAbout_ofNewFile (c : Commit) (path : String) : (ofNewFile c path).IsAbout c path :=
  ⟨toList_shortHash c, rfl, rfl, severity_eq_warning_iff _⟩

/-- The record of a change of a token is about the file and its commit. -/
theorem isAbout_ofTokenChange (c : Commit) (path : String) (change : TokenChange) :
    (ofTokenChange c path change).IsAbout c path :=
  ⟨toList_shortHash c, rfl, rfl, severity_eq_warning_iff _⟩

/-- The record of a change of a token tells the token and its values. -/
theorem tells_ofTokenChange (c : Commit) (path : String) {change : TokenChange}
    (h : change.oldValue.isSome = true ∨ change.newValue.isSome = true) :
    (ofTokenChange c path change).Tells change := by
  have hkind : (ofTokenChange c path change).kind = change.kind := rfl
  refine ⟨rfl, rfl, rfl, ?_, ?_, ?_⟩ <;> rw [hkind] <;> unfold TokenChange.kind <;>
    cases hold : change.oldValue <;> cases hnew : change.newValue <;> simp_all

/-- Every change in a diff is told by the record of it. -/
theorem forall₂_ofTokenChange (c : Commit) (path : String) {diff : String} {lookahead : Int}
    {changes : List TokenChange} (h : TokenChange.ofDiff diff lookahead = .ok changes) :
    List.Forall₂ (fun change r => Tells r change ∧ r.IsAbout c path) changes
      (changes.map (ofTokenChange c path)) := by
  have hreadable : ¬Unreadable diff := by
    intro hdiff
    obtain ⟨digits, hrefused⟩ := TokenChange.exists_ofDiff_eq_error hdiff lookahead
    cases hrefused.symm.trans h
  obtain ⟨told, origins, htold, haccount⟩ :=
    TokenChange.exists_origins lookahead (not_unreadable_iff.mp hreadable)
  obtain rfl := Except.ok.inj (htold.symm.trans h)
  rw [List.forall₂_map_right_iff, List.forall₂_same]
  exact fun change hchange => ⟨tells_ofTokenChange c path
    (haccount.isSome_or_isSome change hchange), isAbout_ofTokenChange c path change⟩

end ChangeRecord

/-- An added file has one record. -/
theorem ChangeRecord.ofFileChange_added (c : Commit) (path : String) :
    ofFileChange c ⟨.added, path, none, none⟩ = [ofNewFile c path] := rfl

/-- A deleted file has no record. -/
theorem ChangeRecord.ofFileChange_deleted (c : Commit) (path : String) :
    ofFileChange c ⟨.deleted, path, none, none⟩ = [] := rfl

/-- A modified file has a record for each change of a token. -/
theorem ChangeRecord.ofFileChange_modified (c : Commit) (path diff : String)
    (changes : List TokenChange) :
    ofFileChange c ⟨.modified, path, some diff, some changes⟩ =
      changes.map (ofTokenChange c path) := by
  cases changes <;> rfl

/-- The records of the files that a commit touches. -/
def Commit.records (c : Commit) : List ChangeRecord :=
  c.changes.flatMap (ChangeRecord.ofFileChange c)

/-- The first letter of the status alone decides on the kind of change. -/
theorem FileChangeKind.ofStatus_cases (status : List Char) :
    status.head? = some 'A' ∧ ofStatus status = .added ∨
      status.head? = some 'D' ∧ ofStatus status = .deleted ∨
      (status.head? ≠ some 'A' ∧ status.head? ≠ some 'D') ∧ ofStatus status = .modified := by
  unfold ofStatus
  split
  · exact .inl ⟨rfl, rfl⟩
  · exact .inr (.inl ⟨rfl, rfl⟩)
  next hadded hdeleted =>
    refine .inr (.inr ⟨⟨fun h => ?_, fun h => ?_⟩, rfl⟩)
    · obtain ⟨rest, rfl⟩ := List.head?_eq_some_iff.mp h
      exact hadded rest rfl
    · obtain ⟨rest, rfl⟩ := List.head?_eq_some_iff.mp h
      exact hdeleted rest rfl

namespace Detector

variable {lookahead : Int} {hash : String}

/-- Asking for a diff is one command; if it fails, the diff is taken to be empty. -/
theorem conducts_diffOf (hash file : String) :
    Run.Conducts (diffOf hash file) fun diff talk =>
      talk = [⟨.diffOf hash file, .ok diff⟩] ∨
        ∃ e, e.cause.isGit = true ∧ talk = [⟨.diffOf hash file, .error e⟩] ∧ diff = "" := by
  unfold diffOf
  rw [← bind_pure (Run.ask _)]
  refine Run.Conducts.ask.imp ?_
  rintro diff talk (⟨reply, rfl, rfl⟩ | hfailed)
  · exact .inl rfl
  · exact .inr hfailed

/-- A listed file is told by the records of its change. -/
theorem conducts_fileChange (lookahead : Int) (hash : String) (f : ListedFile) :
    Run.Conducts (fileChange lookahead hash f.status f.path) fun change talk =>
      ∀ c : Commit, c.hash = hash →
        f.Tells lookahead c (ChangeRecord.ofFileChange c change) talk := by
  unfold fileChange
  rcases FileChangeKind.ofStatus_cases f.status with
    ⟨hadded, hkind⟩ | ⟨hdeleted, hkind⟩ | ⟨⟨hadded, hdeleted⟩, hkind⟩
  · rw [hkind]
    refine .pure fun c hc => ?_
    rw [ChangeRecord.ofFileChange_added]
    exact .added hadded (ChangeRecord.isAbout_ofNewFile c f.path) rfl
      (by simp only [ChangeRecord.ofNewFile])
  · rw [hkind]
    refine .pure fun c hc => ?_
    rw [ChangeRecord.ofFileChange_deleted]
    exact .deleted hdeleted
  · rw [hkind]
    refine (conducts_diffOf hash f.path).bind fun diff talk htalk => ?_
    refine (Run.Conducts.ofExcept _).bind fun changes more hread => ?_
    obtain ⟨hchanges, rfl⟩ := hread
    refine .pure fun c hc => ?_
    subst hc
    rw [List.append_nil, List.append_nil, ChangeRecord.ofFileChange_modified]
    rcases htalk with rfl | ⟨e, hgit, rfl, rfl⟩
    · exact .changed hadded hdeleted hchanges
        (ChangeRecord.forall₂_ofTokenChange c f.path hchanges)
    · -- The diff that is not told is taken for one without changes.
      obtain rfl : changes = [] := (Except.ok.inj hchanges).symm
      exact .untold hadded hdeleted hgit

/-- A commit is told by the records of its changes. -/
theorem conducts_changesOf (lookahead : Int) (hash : String) :
    Run.Conducts (changesOf lookahead hash) fun changes talk =>
      ∀ c : Commit, c.hash = hash →
        c.Tells trimmedLines lookahead (changes.flatMap (ChangeRecord.ofFileChange c)) talk := by
  refine Run.Conducts.ask.bind ?_
  rintro listed talk (⟨reply, rfl, rfl⟩ | ⟨e, hgit, rfl, rfl⟩)
  · simp only [filterMap_touched?]
    refine (Conducts.mapM (fun t : List Char × String =>
      conducts_fileChange lookahead hash ⟨t.1, t.2⟩) _).imp ?_
    intro changes talk htalk c hc
    have htold := htalk.of_map.imp fun f change talk h => h c hc
    subst hc
    exact .listed (htold.map (ChangeRecord.ofFileChange c))
  · refine .pure fun c hc => ?_
    subst hc
    exact .unlisted hgit

/-- The records of a commit tell what its commands were answered. -/
theorem conducts_commitOf (lookahead : Int) (fields : String × String × String × String) :
    Run.Conducts (commitOf lookahead fields) fun c talk =>
      c.logFields = fields ∧ c.Tells trimmedLines lookahead c.records talk := by
  refine (conducts_changesOf lookahead fields.1).bind fun changes talk htalk => ?_
  refine .pure ⟨rfl, ?_⟩
  rw [List.append_nil]
  exact htalk _ rfl

/-- What the commits of a log are told by: the exchange about the log, then those about each of
them. -/
def TellsLog (lookahead : Int) (found : List Commit) (talk : List Exchange) : Prop :=
  ∃ range since reply more, talk = ⟨.log range since, .ok reply⟩ :: more ∧
    found.map Commit.logFields = fieldsIn reply ∧
    InTurn (Commit.Tells trimmedLines lookahead) found (found.map Commit.records) more

/-- Commits that are found were told in the log and by the commands about each of them. -/
theorem conducts_commits (d : Detector) (range since : Option String) :
    Run.Conducts (d.commits range since) fun found talk =>
      found ≠ [] → TellsLog d.lookahead found talk := by
  refine Run.Conducts.ask.bind ?_
  rintro listed talk (⟨reply, rfl, rfl⟩ | ⟨e, hgit, rfl, rfl⟩)
  · refine (Conducts.mapM (conducts_commitOf d.lookahead) (fieldsIn reply)).imp ?_
    intro found more hmore _
    exact ⟨range, since, reply, more, rfl, hmore.of_answers Commit.logFields Commit.records⟩
  · exact .pure fun hne => absurd rfl hne

/-- The commits up to one were told in the log and by the commands about each of them. -/
theorem conducts_commitsUpTo (d : Detector) (latest : String) :
    Run.Conducts (d.commitsUpTo latest) fun found talk =>
      found ≠ [] → TellsLog d.lookahead found talk := by
  have hsaid (line : String) (range since : Option String) :
      Run.Conducts (do Run.say line; d.commits range since) fun found talk =>
        found ≠ [] → TellsLog d.lookahead found talk := by
    refine (Run.Conducts.say line).bind fun _ talk htalk => ?_
    subst htalk
    exact conducts_commits d range since
  unfold commitsUpTo
  split
  · exact hsaid _ _ _
  · split
    · refine (Run.Conducts.say _).bind fun _ talk htalk => ?_
      exact .pure fun hne => absurd rfl hne
    · exact hsaid _ _ _

/-! ## The records of a turn -/

open Detection

/-- Moving the pointer issues no command. -/
theorem conducts_advance [Nesting.Room] (hash : String) :
    Detection.Conducts (advance hash) fun _ talk => talk = [] := by
  refine Conducts.detector.bind fun d talk htalk => ?_
  refine (Conducts.ofRun (.of_spares (d.store.spares_save hash))).bind fun store talk' htalk' => ?_
  refine (Conducts.put _).bind fun _ talk₂ htalk₂ => ?_
  refine (Conducts.put _).bind fun _ talk₃ htalk₃ => ?_
  refine (Conducts.ofRun (Run.Conducts.say _)).imp fun _ talk₄ htalk₄ => ?_
  subst htalk htalk' htalk₂ htalk₃ htalk₄
  rfl

/-- A report up to a commit tells what its commands were answered. -/
theorem conducts_reportUpTo [Nesting.Room] (d : Detector) (latest : String) :
    Detection.Conducts (d.reportUpTo (some latest)) fun found talk =>
      found ≠ [] → TellsLog d.lookahead found talk := by
  refine (Conducts.ofRun (conducts_commitsUpTo d latest)).bind fun found talk htold => ?_
  cases hempty : found.isEmpty with
  | true => exact .pure fun hne => absurd (List.isEmpty_iff.mp hempty) hne
  | false =>
    refine (conducts_advance latest).bind fun _ more hmore => ?_
    subst hmore
    refine .pure fun hne => ?_
    rw [List.append_nil, List.append_nil]
    exact htold hne

variable {d d' : Detector} {w w₁ : World} {found : List Commit}

/-- Opening the repository is one exchange. -/
theorem exchanges_openRepository (h : outcome d.openRepository w = (.ok true, w₁)) :
    ∃ e : Exchange, e.call = .opened d.path ∧ w.Exchanges w₁ [e] := by
  rw [issued_of_openRepository h]
  exact ⟨_, rfl, .issued w _⟩

/-- What is found for a request is told by the exchanges after the repository is open. -/
def TellsFound (d : Detector) (request : Request) (w w₁ : World) (found : List Commit) : Prop :=
  ∃ opening talk, w.Exchanges w₁ (opening ++ talk) ∧
    opening.map Exchange.call = request.opening d ∧ TellsLog d.lookahead found talk

/-- What a look for recent commits finds was told to it. -/
theorem tellsFound_scanRecent {span : Lookback}
    (h : outcome (scanRecent span) (d, w) = (.ok found, d', w₁)) (hne : found ≠ []) :
    d.TellsFound (.recent span) w w₁ found := by
  unfold scanRecent at h
  rw [outcome_bind_of_ok outcome_detector] at h
  obtain ⟨opened, w₂, hopened, h⟩ := exists_of_outcome_bind_ofRun h
  cases opened with
  | false =>
    cases h
    exact absurd rfl hne
  | true =>
    obtain ⟨e, hcall, hopening⟩ := exchanges_openRepository hopened
    rw [if_pos rfl, outcome_bind_of_ok (outcome_ofRun (outcome_say _ w₂))] at h
    obtain ⟨talk, htalk, htold⟩ := Conducts.ofRun (conducts_commits d none _) h
    have hread := (World.Exchanges.said w₂ _).trans htalk
    exact ⟨[e], talk, hopening.trans hread, by rw [List.map_singleton, hcall]; rfl, htold hne⟩

/-- What a look for commits after the pointer finds was told to it. -/
theorem tellsFound_scanSinceLast [Nesting.Room]
    (h : outcome scanSinceLast (d, w) = (.ok found, d', w₁))
    (hne : found ≠ []) : d.TellsFound .sinceLast w w₁ found := by
  unfold scanSinceLast at h
  rw [outcome_bind_of_ok outcome_detector] at h
  obtain ⟨opened, w₂, hopened, h⟩ := exists_of_outcome_bind_ofRun h
  cases opened with
  | false =>
    cases h
    exact absurd rfl hne
  | true =>
    obtain ⟨e, hcall, hopening⟩ := exchanges_openRepository hopened
    rw [if_pos rfl] at h
    obtain ⟨latest, w₃, hlatest, h⟩ := exists_of_outcome_bind_ofRun h
    cases latest with
    | none =>
      rw [outcome_reportUpTo_none] at h
      exact absurd (Except.ok.inj (Prod.mk.inj h).1).symm hne
    | some latest =>
      obtain ⟨text, -, -, rfl⟩ := answer_of_latestCommit hlatest
      obtain ⟨talk, htalk, htold⟩ := conducts_reportUpTo d latest h
      have hopening := hopening.trans (.issued w₂ .head)
      exact ⟨_, talk, hopening.trans htalk, by simp [hcall, Request.opening], htold hne⟩

/-- A report that is not empty is that of the search. -/
theorem exists_outcome_of_reporting {what : String} {body : Detection (List Commit)}
    (h : outcome (reporting what body) (d, w) = (.ok found, d', w₁)) (hne : found ≠ []) :
    outcome body (d, w) = (.ok found, d', w₁) := by
  rcases hbody : outcome body (d, w) with ⟨e | answer, d₁, w₂⟩
  · obtain ⟨answer, w₃, hreport, hanswer⟩ := exists_outcome_reporting_of_error what hbody
    rw [hreport] at h
    exact absurd (hanswer found (Prod.mk.inj h).1) hne
  · rw [← h]
    exact (outcome_recover_of_ok hbody _ _).symm

@[simp] theorem request_turn [Nesting.Room] (d : Detector) (request : Request) (w : World) :
    (d.turn request w).request = request := rfl

@[simp] theorem before_turn [Nesting.Room] (d : Detector) (request : Request) (w : World) :
    (d.turn request w).before = d := rfl

/-- For every request that is answered with commits, the records of the answer are those that the
replies of the turn tell: in the order of the log and, within a commit, of the trimmed lines about
its files. -/
theorem tells_turn [Nesting.Room] {request : Request} (h : (d.turn request w).answer = .ok found)
    (hne : found ≠ []) : (d.turn request w).Tells trimmedLines found := by
  rcases hdetect : outcome request.detect (d, w) with ⟨answer, after, left⟩
  rw [turn_eq hdetect] at h ⊢
  obtain rfl : answer = .ok found := h
  have hfound : d.TellsFound request w left found := by
    cases request with
    | sinceLast => exact tellsFound_scanSinceLast (exists_outcome_of_reporting hdetect hne) hne
    | recent span => exact tellsFound_scanRecent (exists_outcome_of_reporting hdetect hne) hne
  obtain ⟨opening, _, htalk, hopening, range, since, reply, more, rfl, hfields, htold⟩ := hfound
  exact ⟨opening, range, since, reply, found.map Commit.records, more, htalk, hopening, hfields,
    htold, rfl⟩

end Detector

/-- A world with a repository at its root with one commit, about whose files a reply is given. -/
def filesWorld (reply : String) : World :=
  { redWorld with
    git :=
      { redService with
        answer := fun _ call => match call with
          | .head => .ok "a1"
          | .log _ _ => .ok (LogRecord.logText [barRecord])
          | .filesOf _ => .ok reply
          | .diffOf _ _ => .ok redDiff
          | _ => .ok "" } }

/-- A modified, an added and a removed file, a line without a status, and a file without tokens. -/
def mixedReply : String :=
  "R100\told.css\tcolors.scss\nA\ttokens.scss\nD\tspacing.css\ntheme.css\nM\tindex.html"

attribute [local instance] Nesting.Room.ample

/-- One record for the change in the first file and one for the second file. -/
theorem tells_turn_mixedReply :
    ∃ found, (rootDetector.turn .sinceLast (filesWorld mixedReply)).answer = .ok found ∧
      found ≠ [] ∧
      (rootDetector.turn .sinceLast (filesWorld mixedReply)).Tells trimmedLines found ∧
      (ChangeRecord.ofCommits found).map (fun r => (r.kind, r.tokenName, r.category, r.severity)) =
        [(.updated, "$red", "colors", "info"), (.added, "tokens", "misc", "info")] := by
  have hanswer :
      (rootDetector.turn .sinceLast (filesWorld mixedReply)).answer.toOption.map (fun found =>
        (ChangeRecord.ofCommits found).map fun r =>
          (r.kind, r.tokenName, r.category, r.severity)) =
        some [(.updated, "$red", "colors", "info"), (.added, "tokens", "misc", "info")] := by
    decide +kernel
  obtain ⟨found, hfound, hrecords⟩ := Option.map_eq_some_iff.mp hanswer
  have hne : found ≠ [] := by
    rintro rfl
    cases hrecords
  have hok := eq_ok_of_toOption hfound
  exact ⟨found, hok, hne, Detector.tells_turn hok hne, hrecords⟩

/-- A modified file whose name ends with a space. -/
def spacedReply : String := "M\ttokens.scss "

/-- The lines of a reply as it stands do not tell the records: the name of the last file loses the
space at its end, and with it a file that defines no tokens becomes one that does. -/
theorem not_forall_tells_plainLines :
    ¬∀ (d : Detector) (request : Request) (w : World) (found : List Commit),
      (d.turn request w).answer = .ok found → found ≠ [] →
        (d.turn request w).Tells plainLines found := by
  intro htells
  have hanswer : (rootDetector.turn .sinceLast (filesWorld spacedReply)).answer.toOption.map
      List.length = some 1 := by
    decide +kernel
  have hissued : (rootDetector.turn .sinceLast (filesWorld spacedReply)).left.calls.length = 5 := by
    decide +kernel
  obtain ⟨found, hfound, hlength⟩ := Option.map_eq_some_iff.mp hanswer
  obtain ⟨c, rfl⟩ := List.length_eq_one_iff.mp hlength
  obtain ⟨opening, range, since, reply, records, talk, hexchanges, hopening, -, htold, -⟩ :=
    htells _ _ _ _ (eq_ok_of_toOption hfound) (List.cons_ne_nil c [])
  rw [Detector.request_turn, Detector.before_turn] at hopening
  have hanswers := hexchanges.answers
  have hcalls := hexchanges.calls
  rw [Detector.world_turn] at hanswers hcalls
  have hnone : (plainLines spacedReply).filterMap ListedFile.ofLine? = [] := by decide +kernel
  -- As the lines stand no file is listed, so that the question about the files is the last one.
  have htalk : talk.length = 1 := by
    cases htold with
    | cons hcommit hmore =>
      cases hmore
      cases hcommit with
      | unlisted hgit => rfl
      | listed hfiles =>
        obtain ⟨-, -, hreply, -⟩ := GitService.answers_append.mp hanswers
        obtain rfl := Except.ok.inj hreply
        rw [hnone] at hfiles
        cases hfiles
        rfl
  have htwo : opening.length = 2 := by simpa [Request.opening] using congrArg List.length hopening
  have hfour := congrArg List.length hcalls
  rw [hissued] at hfour
  have hnothing : (filesWorld spacedReply).calls = [] := rfl
  simp only [hnothing, List.nil_append, List.length_map, List.length_append, List.length_cons,
    htalk, htwo] at hfour
  cases hfour

end DesignTokens

import DesignTokens.Proofs.Files.Discovery

/-!
# Containment of discovery

A pattern that starts at the root of the file system is refused unless it starts at the repository;
a relative one is not checked, and can step out of the repository and find files there. So discovery
stays inside and complains about what leads outside exactly when no pattern finds files outside; it
does whenever no pattern takes more steps up than it has names before them.
-/

namespace DesignTokens

namespace Glob

variable {t : FileTree} {root pattern : String} {at_ : Location}

/-- Whether a pattern starts below a root, or anywhere if it is relative. -/
def StartsBelow (root pattern : String) : Prop :=
  PathText.isAbsolute pattern = true → PathText.root pattern = "/" ∧
    PathText.plainSegments root <+: PathText.plainSegments pattern

/-- A pattern that reaches outside a directory: it starts elsewhere, or some file outside matches
it. -/
def ReachesOutside [Nesting.Room] (t : FileTree) (root : String) (at_ : Location)
    (pattern : String) : Prop :=
  ¬ StartsBelow root pattern ∨
    ∃ relative parsed way location, Reads root pattern relative parsed ∧
      Leads t parsed at_ way location ∧ t.hasFile location = true ∧
        ((PathText.segments relative).any isHidden = true ∨ way.any isHidden = false) ∧
        ¬ at_ <+: location

/-- A pattern that starts elsewhere is refused. -/
theorem relativePattern_of_not_startsBelow (h : ¬ StartsBelow root pattern) :
    relativePattern root pattern = .error (.outside root) := by
  unfold StartsBelow at h
  obtain ⟨habsolute, hbelow⟩ := Classical.not_imp.mp h
  have hempty : pattern ≠ "" := by
    rintro rfl
    exact absurd habsolute (by decide)
  unfold relativePattern
  rw [if_neg hempty, habsolute, if_neg (by decide)]
  rw [← List.isPrefixOf_iff_prefix] at hbelow
  exact if_neg hbelow

/-- What finds nothing outside and still reaches outside is answered with a fault. -/
theorem exists_fault_of_reachesOutside [Nesting.Room]
    (hinside : ∀ way location, Finds t root at_ pattern way location → at_ <+: location)
    (hanswered : ∃ answer, files t root at_ pattern = .ok answer)
    (h : ReachesOutside t root at_ pattern) :
    ∃ fault, files t root at_ pattern = .ok (.error fault) := by
  obtain ⟨answer, hanswer⟩ := hanswered
  cases answer with
  | error fault => exact ⟨fault, hanswer⟩
  | ok ways =>
    obtain ⟨relative, parsed, husable⟩ := exists_usable hanswer
    rcases h with hstart | ⟨relative', parsed', way, location, hreads, hleads, hfile, hshown, hout⟩
    · have hbelow := husable.below
      rw [relativePattern_of_not_startsBelow hstart] at hbelow
      cases hbelow
    · obtain rfl := Except.ok.inj (hreads.below.symm.trans husable.below)
      obtain rfl := Except.ok.inj (Except.ok.inj (hreads.cut.symm.trans husable.cut))
      exact absurd (hinside way location ⟨_, _, husable, hleads, hfile, hshown⟩) hout

end Glob

namespace Discovery

variable {d : Discovery} {w : World} {root top : String} {at_ : Location}
  {paths complaints : List String}

/-- What discovery promises about the directory of a repository: every path leads to a file inside,
and a pattern that reaches outside gives a complaint and no files. -/
structure Contained [Nesting.Room] (d : Discovery) (w : World) (root : String) (at_ : Location)
    (paths complaints : List String) : Prop where
  inside : ∀ path ∈ paths, ∃ location, w.files.locate w.directory path = .ok location ∧
    w.files.hasFile location = true ∧ at_ <+: location
  refused : ∀ p : Spelling, .text p ∈ d.includePatterns →
    ∀ expanded ∈ Braces.expand (Wildcard.characters p),
      Glob.ReachesOutside w.files root at_ (String.ofList expanded) →
        ∃ fault, Glob.files w.files root at_ (String.ofList expanded) = .ok (.error fault) ∧
          complaint p fault ∈ complaints

/-- Every fault of an expansion is complained about. -/
theorem mem_complaintsOf [Nesting.Room] {p : Spelling} {expanded : List Char} {fault : Glob.Fault}
    (hp : .text p ∈ d.includePatterns)
    (hexpanded : expanded ∈ Braces.expand (Wildcard.characters p))
    (h : Glob.files w.files root at_ (String.ofList expanded) = .ok (.error fault)) :
    complaint p fault ∈ complaintsOf w.files root at_ d := by
  unfold complaintsOf complaintsOfPattern
  refine List.mem_flatMap.mpr ⟨.text p, hp, List.mem_flatMap.mpr ⟨expanded, hexpanded, ?_⟩⟩
  unfold complaintOf
  rw [h]
  exact List.mem_singleton_self _

/-- If nothing is found outside, discovery is contained. -/
theorem contained_of_finds [Nesting.Room] (hw : w.Grounded)
    (hroot : openRoot w root = .ok (top, at_))
    (h : outcome (d.discover w root) [] = (.ok paths, complaints))
    (hinside : ∀ p : Spelling, .text p ∈ d.includePatterns →
      ∀ expanded ∈ Braces.expand (Wildcard.characters p), ∀ way location,
        Glob.Finds w.files top at_ (String.ofList expanded) way location → at_ <+: location) :
    Contained d w top at_ paths complaints := by
  obtain ⟨rfl, hdirectory⟩ := of_openRoot hw hroot
  have hdiscovered := discovered_of_outcome hw hroot h
  constructor
  · intro path hpath
    obtain ⟨way, location, hreaches, -, rfl⟩ := (hdiscovered.mem_iff path).mp hpath
    obtain ⟨p, hp, expanded, hexpanded, hfinds⟩ := hreaches
    have hlocate := hfinds.locate_eq hw.tree hdirectory w.directory
    have hprefix := hinside p hp expanded hexpanded way location hfinds
    obtain ⟨relative, parsed, -, -, hfile, -⟩ := hfinds
    exact ⟨location, hlocate, hfile, hprefix⟩
  · intro p hp expanded hexpanded hreaches
    have hanswered := hdiscovered.answered p hp expanded hexpanded
    obtain ⟨fault, hfault⟩ := Glob.exists_fault_of_reachesOutside
      (hinside p hp expanded hexpanded) hanswered hreaches
    rw [hdiscovered.complaints_eq]
    exact ⟨fault, hfault, mem_complaintsOf hp hexpanded hfault⟩

/-- Discovery is contained exactly when no expansion of an include pattern finds a file outside, and
in any case when every expansion stays below its start. -/
theorem contained_iff [Nesting.Room] (hw : w.Grounded) (hroot : openRoot w root = .ok (top, at_))
    (h : outcome (d.discover w root) [] = (.ok paths, complaints)) :
    (Contained d w top at_ paths complaints ↔
      ∀ p : Spelling, .text p ∈ d.includePatterns →
        ∀ expanded ∈ Braces.expand (Wildcard.characters p), ∀ way location,
          Glob.Finds w.files top at_ (String.ofList expanded) way location → at_ <+: location) ∧
    ((∀ p : Spelling, .text p ∈ d.includePatterns →
        ∀ expanded ∈ Braces.expand (Wildcard.characters p), ∀ relative parsed,
          Glob.Reads top (String.ofList expanded) relative parsed →
            Glob.staysBelow 0 parsed = true) →
      Contained d w top at_ paths complaints) := by
  constructor
  · constructor
    · intro hcontained p hp expanded hexpanded way location hfinds
      obtain ⟨relative, parsed, husable, hleads, hfile, hshown⟩ := hfinds
      by_contra hout
      have hreaches : Glob.ReachesOutside w.files top at_ (String.ofList expanded) :=
        .inr ⟨relative, parsed, way, location, husable.toReads, hleads, hfile, hshown, hout⟩
      obtain ⟨fault, hfault, -⟩ := hcontained.refused p hp expanded hexpanded hreaches
      rw [Glob.files_of_usable husable] at hfault
      cases hfault
    · exact contained_of_finds hw hroot h
  · intro hstays
    apply contained_of_finds hw hroot h
    intro p hp expanded hexpanded way location hfinds
    obtain ⟨relative, parsed, husable, hleads, -, -⟩ := hfinds
    have hbelow := hstays p hp expanded hexpanded relative parsed husable.toReads
    rw [← List.append_nil at_] at hleads
    exact Glob.prefix_of_leads hw.tree (Nat.zero_le _) hbelow hleads

/-- A repository beside another directory, with a stylesheet in each. -/
def twoDirectories : FileTree :=
  ⟨[(["repo"], .directory), (["repo", "a.css"], .file []),
    (["other"], .directory), (["other", "x.css"], .file [])]⟩

theorem wellFormed_twoDirectories : twoDirectories.WellFormed := ⟨by decide, by decide, by decide⟩

attribute [local instance] Nesting.Room.ample

/-- A pattern that only goes down finds the stylesheet of the repository, and nothing outside. -/
theorem contained_down :
    ∃ complaints, outcome (discover ⟨[.text "*.css"], [], none⟩ (World.ofFiles twoDirectories)
        "/repo") [] = (.ok ["/repo/a.css"], complaints) ∧
      Contained ⟨[.text "*.css"], [], none⟩ (World.ofFiles twoDirectories) "/repo" ["repo"]
        ["/repo/a.css"] complaints ∧
      ∀ p : Spelling, .text p ∈ [Value.text "*.css"] →
        ∀ expanded ∈ Braces.expand (Wildcard.characters p), ∀ way location,
          Glob.Finds twoDirectories "/repo" ["repo"] (String.ofList expanded) way location →
            ["repo"] <+: location := by
  have hroot : openRoot (World.ofFiles twoDirectories) "/repo" = .ok ("/repo", ["repo"]) := rfl
  have hpaths : (outcome (discover ⟨[.text "*.css"], [], none⟩ (World.ofFiles twoDirectories)
      "/repo") []).1.toOption = some ["/repo/a.css"] := by
    decide +kernel
  obtain ⟨complaints, houtcome⟩ := exists_outcome_of_toOption hpaths
  have hiff := contained_iff (World.grounded_ofFiles wellFormed_twoDirectories) hroot houtcome
  have hcontained := hiff.2 <| by
    intro p hp expanded hexpanded relative parsed hreads
    obtain rfl : p = "*.css" := Value.text.inj (List.mem_singleton.mp hp)
    have hexpand : Braces.expand (Wildcard.characters "*.css") = ["*.css".toList] := rfl
    rw [hexpand, List.mem_singleton] at hexpanded
    subst hexpanded
    obtain rfl : relative = "*.css" := (Except.ok.inj hreads.below).symm
    cases hreads.cut
    rfl
  exact ⟨complaints, houtcome, hcontained, hiff.1.mp hcontained⟩

/-- A pattern that steps out of the repository finds a file beside it, and nothing is complained
about. -/
theorem not_contained_up :
    ∃ complaints, outcome (discover ⟨[.text "../other/*.css"], [], none⟩
        (World.ofFiles twoDirectories) "/repo") [] = (.ok ["/repo/../other/x.css"], complaints) ∧
      complaints = [] ∧
      ¬ Contained ⟨[.text "../other/*.css"], [], none⟩ (World.ofFiles twoDirectories) "/repo"
        ["repo"] ["/repo/../other/x.css"] complaints := by
  have hpaths : (outcome (discover ⟨[.text "../other/*.css"], [], none⟩
      (World.ofFiles twoDirectories) "/repo") []).1.toOption = some ["/repo/../other/x.css"] := by
    decide +kernel
  have hquiet : (outcome (discover ⟨[.text "../other/*.css"], [], none⟩
      (World.ofFiles twoDirectories) "/repo") []).2 = [] := by
    decide +kernel
  obtain ⟨complaints, houtcome⟩ := exists_outcome_of_toOption hpaths
  rw [houtcome] at hquiet
  refine ⟨complaints, houtcome, hquiet, ?_⟩
  intro hcontained
  obtain ⟨location, hlocate, -, hprefix⟩ := hcontained.inside _ (List.mem_singleton_self _)
  have hother : (World.ofFiles twoDirectories).files.locate (World.ofFiles twoDirectories).directory
      "/repo/../other/x.css" = .ok ["other", "x.css"] := rfl
  obtain rfl := Except.ok.inj (hother.symm.trans hlocate)
  exact absurd hprefix (by decide)

end Discovery

end DesignTokens

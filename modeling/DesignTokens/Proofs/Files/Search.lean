import DesignTokens.Proofs.Files.Below
import DesignTokens.Proofs.Files.Opened

/-!
# Searches below a place

Patterns without steps up look only at what is below the directory they start from. In two trees
with the same below a directory they match the same, so the same files are discovered below it.
-/

namespace DesignTokens

namespace FileTree.SameBelow

variable {t t' : FileTree} {place at_ : Location}

/-- A list made of nodes below the place. -/
private theorem filterMap_below {β : Type} {f : Location × Node → Option β}
    (hf : ∀ n b, f n = some b → place <+: n.1) (t : FileTree) :
    (t.below place).filterMap f = t.nodes.filterMap f := by
  unfold below
  rw [List.filterMap_filter]
  refine List.filterMap_congr fun n _ => ?_
  cases hn : f n with
  | none => exact ite_self none
  | some b => rw [if_pos (List.isPrefixOf_iff_prefix.mpr (hf n b hn))]

/-- What is in a directory is below what the directory is below. -/
private theorem prefix_of_dropLast {location : Location} {name : String} (hle : place <+: at_)
    (h : (if location.dropLast = at_ then location.getLast? else none) = some name) :
    place <+: location := by
  split at h
  · rename_i habove
    exact hle.trans (habove ▸ List.dropLast_prefix location)
  · cases h

/-- What is alike below a place has the same names in the same directories there. -/
theorem children_eq (h : SameBelow place t t') (hle : place <+: at_) :
    t.children at_ = t'.children at_ := by
  have hbelow : ∀ (n : Location × Node) name,
      (if n.1.dropLast = at_ then n.1.getLast? else none) = some name → place <+: n.1 :=
    fun _ _ hn => prefix_of_dropLast hle hn
  unfold children
  rw [← filterMap_below hbelow t, ← filterMap_below hbelow t', h.below_eq]

/-- The names in a directory below the place are proper. -/
theorem isProper_of_mem_children (h : SameBelow place t t') (hle : place <+: at_) {name : String}
    (hname : name ∈ t.children at_) : PathText.IsProper name := by
  obtain ⟨n, hn, hlast⟩ := List.mem_filterMap.mp hname
  have hbelow := prefix_of_dropLast hle hlast
  split at hlast
  · exact h.proper n (List.mem_filter.mpr ⟨hn, List.isPrefixOf_iff_prefix.mpr hbelow⟩) name
      (List.mem_of_getLast? hlast)
  · cases hlast

/-- What is on a way from a directory is below what the directory is below. -/
private theorem prefix_of_drop {n : Location × Node} {way : List String} (hle : place <+: at_)
    (h : (if n.2 = .directory ∧ at_.isPrefixOf n.1 ∧ at_ ≠ n.1 then some (n.1.drop at_.length)
      else none) = some way) : place <+: n.1 := by
  split at h
  · rename_i hn
    exact hle.trans (List.isPrefixOf_iff_prefix.mp hn.2.1)
  · cases h

/-- What is alike below a place has the same directories there. -/
theorem directoriesBelow_eq (h : SameBelow place t t') (hle : place <+: at_) :
    t.directoriesBelow at_ = t'.directoriesBelow at_ := by
  have hbelow : ∀ (n : Location × Node) way,
      (if n.2 = .directory ∧ at_.isPrefixOf n.1 ∧ at_ ≠ n.1 then some (n.1.drop at_.length)
        else none) = some way → place <+: n.1 := fun _ _ hn => prefix_of_drop hle hn
  unfold directoriesBelow
  rw [← filterMap_below hbelow t, ← filterMap_below hbelow t', h.below_eq]

/-- The ways to the directories there are made of proper names. -/
theorem isProper_of_mem_directoriesBelow (h : SameBelow place t t') (hle : place <+: at_)
    {way : List String} (hway : way ∈ t.directoriesBelow at_) :
    ∀ name ∈ way, PathText.IsProper name := by
  rcases List.mem_cons.mp hway with rfl | hway
  · exact fun name hname => absurd hname List.not_mem_nil
  · obtain ⟨n, hn, hdrop⟩ := List.mem_filterMap.mp hway
    have hbelow := prefix_of_drop hle hdrop
    split at hdrop
    · intro name hname
      obtain rfl := Option.some.inj hdrop
      exact h.proper n (List.mem_filter.mpr ⟨hn, List.isPrefixOf_iff_prefix.mpr hbelow⟩) name
        (List.mem_of_mem_drop hname)
    · cases hdrop

end FileTree.SameBelow

namespace Glob

open FileTree

variable {t t' : FileTree} {place at_ : Location} {parsed rest : List Segment} {s : Segment}
  {hit n : Hit} {root pattern relative : String}

/-- Segments that name nothing but what has a name of its own. -/
def IsNamed (parsed : List Segment) : Prop := ∀ name, .fixed name ∈ parsed → PathText.IsProper name

/-- A match that is reached from another one below a place: it is below the place as well, and the
way to it goes on by proper names. -/
structure GoesOn (place : Location) (hit n : Hit) : Prop where
  below : place <+: n.location
  way : ∃ more, n.way = hit.way ++ more ∧ ∀ name ∈ more, PathText.IsProper name

/-- A hit below the place goes on from itself. -/
theorem GoesOn.refl (h : place <+: hit.location) : GoesOn place hit hit :=
  ⟨h, [], (List.append_nil _).symm, fun _ hname => absurd hname List.not_mem_nil⟩

/-- What goes on from a hit that goes on does so from the first one. -/
theorem GoesOn.trans {m : Hit} (h : GoesOn place hit m) (hm : GoesOn place m n) :
    GoesOn place hit n := by
  obtain ⟨-, before, hbefore, hproper⟩ := h
  obtain ⟨hbelow, more, hmore, hproper'⟩ := hm
  refine ⟨hbelow, before ++ more, by rw [hmore, hbefore, List.append_assoc], fun name hname => ?_⟩
  exact (List.mem_append.mp hname).elim (hproper name) (hproper' name)

/-- Where one segment leads below a place is the same in both trees. -/
theorem next_eq (h : SameBelow place t t') (hs : ∀ name, s = .fixed name → name ≠ "..")
    (hle : place <+: hit.location) : next t s hit = next t' s hit := by
  cases s with
  | directoryOnly => rfl
  | fixed name =>
    have hwalk : t.walk hit.location [name] = t'.walk hit.location [name] := by
      refine walk_congr (fun hmem => hs name rfl (List.mem_singleton.mp hmem).symm) fun l hl _ => ?_
      exact h.node?_eq (.inr (hle.trans hl))
    simp only [next, hwalk]
  | wild pattern => simp only [next, h.children_eq hle]
  | anyDirectories => simp only [next, h.directoriesBelow_eq hle]

/-- The next hits go on below the place. -/
theorem goesOn_of_mem_next (h : SameBelow place t t')
    (hs : ∀ name, s = .fixed name → PathText.IsProper name) (hle : place <+: hit.location)
    (hn : n ∈ next t s hit) : GoesOn place hit n := by
  cases s with
  | directoryOnly =>
    obtain rfl := List.mem_singleton.mp hn
    exact .refl hle
  | fixed name =>
    have hname := hs name rfl
    simp only [next] at hn
    split at hn
    · rename_i location hwalk
      obtain rfl := List.mem_singleton.mp hn
      refine ⟨?_, [name], rfl, List.forall_mem_singleton.mpr hname⟩
      have hup : ".." ∉ [name] := fun hmem => hname.2.2 (List.mem_singleton.mp hmem).symm
      rw [(walk_of_straight hup hwalk).1]
      exact hle.trans (List.prefix_append _ _)
    · cases hn
  | wild pattern =>
    obtain ⟨name, hname, rfl⟩ := List.mem_map.mp hn
    exact ⟨hle.trans (List.prefix_append _ _), [name], rfl, List.forall_mem_singleton.mpr
      (h.isProper_of_mem_children hle (List.mem_filter.mp hname).1)⟩
  | anyDirectories =>
    obtain ⟨way, hway, rfl⟩ := List.mem_map.mp hn
    exact ⟨hle.trans (List.prefix_append _ _), way, rfl,
      h.isProper_of_mem_directoriesBelow hle hway⟩

/-- A first segment with a fixed name has a proper one. -/
theorem IsNamed.head (h : IsNamed (s :: rest)) : ∀ name, s = .fixed name → PathText.IsProper name :=
  fun name hname => h name (hname ▸ List.mem_cons_self)

/-- The segments after the first one are named as well. -/
theorem IsNamed.tail (h : IsNamed (s :: rest)) : IsNamed rest :=
  fun name hname => h name (List.mem_cons_of_mem s hname)

/-- The next hits for a segment depend on what is below the place alone. -/
theorem nextFor_eq (h : SameBelow place t t') (hnamed : IsNamed (s :: rest))
    (hle : place <+: hit.location) : nextFor t rest s hit = nextFor t' rest s hit := by
  unfold nextFor
  rw [← next_eq h (fun name hname => (hnamed.head name hname).2.2) hle]
  refine List.filter_congr fun n hn => ?_
  rw [h.hasDirectory_eq (.inr (goesOn_of_mem_next h hnamed.head hle hn).below)]

/-- The next hits for a segment go on below the place. -/
theorem goesOn_of_mem_nextFor (h : SameBelow place t t') (hnamed : IsNamed (s :: rest))
    (hle : place <+: hit.location) (hn : n ∈ nextFor t rest s hit) : GoesOn place hit n :=
  goesOn_of_mem_next h hnamed.head hle (List.mem_filter.mp hn).1

/-- A search that goes on from each of the next matches in the same way. -/
private theorem flatMap_nextFor_eq {β : Type} {f f' : Hit → List β} (h : SameBelow place t t')
    (hnamed : IsNamed (s :: rest)) (hle : place <+: hit.location)
    (hf : ∀ n, place <+: n.location → f n = f' n) :
    (nextFor t rest s hit).flatMap f = (nextFor t' rest s hit).flatMap f' := by
  rw [← nextFor_eq h hnamed hle]
  unfold List.flatMap
  refine congrArg List.flatten (List.map_congr_left fun n hn => hf n ?_)
  exact (goesOn_of_mem_nextFor h hnamed hle hn).below

/-- What segments select depends on what is below the place alone. -/
theorem select_eq (h : SameBelow place t t') (hnamed : IsNamed parsed)
    (hle : place <+: hit.location) : select t parsed hit = select t' parsed hit := by
  induction parsed generalizing hit with
  | nil => rfl
  | cons s rest ih => exact flatMap_nextFor_eq h hnamed hle fun n hn => ih hnamed.tail hn

/-- What segments look at depends on what is below the place alone. -/
theorem looks_eq (h : SameBelow place t t') (hnamed : IsNamed parsed)
    (hle : place <+: hit.location) : looks t parsed hit = looks t' parsed hit := by
  induction parsed generalizing hit with
  | nil => rfl
  | cons s rest ih =>
    unfold looks
    rw [flatMap_nextFor_eq h hnamed hle fun n hn => ih hnamed.tail hn]

/-- What segments select goes on below the place. -/
theorem goesOn_of_mem_select (h : SameBelow place t t') (hnamed : IsNamed parsed)
    (hle : place <+: hit.location) (hn : n ∈ select t parsed hit) : GoesOn place hit n := by
  induction parsed generalizing hit with
  | nil =>
    obtain rfl := List.mem_singleton.mp hn
    exact .refl hle
  | cons s rest ih =>
    obtain ⟨m, hm, hn⟩ := List.mem_flatMap.mp hn
    have hnext := goesOn_of_mem_nextFor h hnamed hle hm
    exact hnext.trans (ih hnamed.tail hnext.below hn)

/-- The fixed names of a pattern without steps up are proper. -/
theorem Reads.isNamed [Nesting.Room] (h : Reads root pattern relative parsed)
    (hstraight : IsStraight root pattern) : IsNamed parsed := by
  intro name hname
  rcases h.exists_name hname with hend | ⟨own, hown, hmeaning⟩
  · cases hend
  have hsame : own = name := by
    unfold segment? at hmeaning
    split at hmeaning
    · cases hmeaning
    split at hmeaning
    · cases hmeaning
    split at hmeaning
    · cases hmeaning
    · exact Segment.fixed.inj (Option.some.inj hmeaning)
  subst hsame
  obtain ⟨hempty, hplace⟩ := ne_of_mem_plainSegments hown
  refine ⟨⟨hempty, PathText.slash_notMem_of_mem_segments (List.mem_filter.mp hown).1⟩, hplace, ?_⟩
  exact fun heq => hstraight relative h.below (heq ▸ hown)

/-- A pattern without steps up finds the same in both trees. -/
theorem files_eq [Nesting.Room] (h : SameBelow at_ t t') (hstraight : IsStraight root pattern) :
    files t root at_ pattern = files t' root at_ pattern := by
  unfold files
  cases hbelow : relativePattern root pattern with
  | error fault => rfl
  | ok relative =>
    dsimp only
    cases hcut : Glob.segments relative with
    | error e => rfl
    | ok answer =>
      cases answer with
      | error fault => rfl
      | ok parsed =>
        have hnamed := Reads.isNamed ⟨hbelow, hcut⟩ hstraight
        have hlooks : looks t parsed ⟨[], at_⟩ = looks t' parsed ⟨[], at_⟩ :=
          looks_eq h hnamed List.prefix_rfl
        have hselect : select t parsed ⟨[], at_⟩ = select t' parsed ⟨[], at_⟩ :=
          select_eq h hnamed List.prefix_rfl
        have hfile : ∀ n ∈ select t' parsed ⟨[], at_⟩,
            t.hasFile n.location = t'.hasFile n.location := by
          intro n hn
          rw [← hselect] at hn
          unfold hasFile
          rw [h.node?_eq (.inr (goesOn_of_mem_select h hnamed List.prefix_rfl hn).below)]
        simp only [bind, Except.bind, hlooks, hselect]
        split
        · rfl
        · refine congrArg (fun hits : List Hit => Except.ok (Except.ok (hits.map (·.way)))) ?_
          exact List.filter_congr fun n hn => by rw [hfile n hn]

/-- The ways to what a pattern without steps up finds consist of proper names. -/
theorem isProper_of_mem_files [Nesting.Room] (h : SameBelow at_ t t')
    (hstraight : IsStraight root pattern)
    {ways : List (List String)} (hfiles : files t root at_ pattern = .ok (.ok ways)) :
    ∀ way ∈ ways, ∀ name ∈ way, PathText.IsProper name := by
  obtain ⟨relative, parsed, husable⟩ := exists_usable hfiles
  rw [files_of_usable husable] at hfiles
  obtain rfl := Except.ok.inj (Except.ok.inj hfiles)
  intro way hway
  obtain ⟨n, hn, rfl⟩ := List.mem_map.mp hway
  obtain ⟨-, more, hmore, hproper⟩ := goesOn_of_mem_select h (husable.isNamed hstraight)
    List.prefix_rfl (List.mem_filter.mp hn).1
  rw [hmore, List.nil_append]
  exact hproper

end Glob

namespace Discovery

open FileTree

variable {d : Discovery} {w w' : World} {place : Location} {root : String}

/-- Include patterns without steps up find the same in both trees. -/
theorem findings_eq [Nesting.Room] {t t' : FileTree} (h : SameBelow place t t')
    (hstraight : d.IsStraight root) :
    d.findings t root place = d.findings t' root place := by
  unfold findings
  rw [mapM_congr fun pattern hpattern => ?_]
  cases pattern with
  | text p =>
    by_cases hlimit : Nesting.Site.expansion.limit < Braces.pairs (Wildcard.characters p)
    · have hmany : Braces.expansions (Wildcard.characters p) = .error (.tooDeep .groups) :=
        if_pos hlimit
      simp only [filesOfPattern, hmany]
    · have hexpand : Braces.expansions (Wildcard.characters p) =
          .ok (Braces.expand (Wildcard.characters p)) := if_neg hlimit
      simp only [filesOfPattern, hexpand]
      rw [mapM_congr fun expanded hexpanded => ?_]
      unfold filesOf
      rw [Glob.files_eq h (hstraight p hpattern expanded hexpanded)]
  | _ => rfl

section Rooted

variable (h : SameBelow place w.files w'.files) (hnames : ∀ name ∈ place, PathText.IsProper name)

include h hnames

/-- The path of a directory is opened in both worlds, or refused in both. -/
theorem openRoot_eq (hdirectory : w.directory = w'.directory) :
    openRoot w (PathText.rooted place) = openRoot w' (PathText.rooted place) := by
  have hspelled := PathText.spelled_rooted hnames w.directory
  have halong : Along place (PathText.spelled w.directory (PathText.rooted place)) := by
    rw [hspelled]
    exact .inl List.prefix_rfl
  have hstraight := PathText.isStraight_rooted hnames
  have hlocate := h.locate_eq hstraight halong
  unfold openRoot
  rw [expandRoot_rooted hnames, expandRoot_rooted hnames, ← hdirectory]
  simp only [bind, Except.bind, ← hlocate]
  cases hleads : w.files.locate w.directory (PathText.rooted place) with
  | error fault => cases fault <;> rfl
  | ok at_ =>
    have hat := eq_spelled_of_locate hstraight hleads
    rw [hspelled] at hat
    subst hat
    simp only [realPath_rooted hnames, h.hasDirectory_eq (.inl List.prefix_rfl)]

omit h in
/-- The path of a directory is opened as it is. -/
theorem eq_of_openRoot {top : String} {at_ : Location}
    (hroot : openRoot w (PathText.rooted place) = .ok (top, at_)) :
    top = PathText.rooted place ∧ at_ = place := by
  have hstraight := PathText.isStraight_rooted hnames
  unfold openRoot at hroot
  rw [expandRoot_rooted hnames] at hroot
  simp only [bind, Except.bind] at hroot
  split at hroot
  · cases hroot
  · cases hroot
  · rename_i found hleads
    split at hroot
    · obtain ⟨rfl, rfl⟩ := Prod.mk.inj (Except.ok.inj hroot)
      refine ⟨realPath_rooted hnames w, ?_⟩
      rw [eq_spelled_of_locate hstraight hleads, PathText.spelled_rooted hnames]
    · cases hroot

/-- What is discovered below a directory is the same in both worlds. -/
theorem discover_eq [Nesting.Room] (hdirectory : w.directory = w'.directory)
    (hstraight : d.IsStraight (PathText.rooted place)) :
    d.discover w (PathText.rooted place) = d.discover w' (PathText.rooted place) := by
  unfold discover
  rw [← openRoot_eq h hnames hdirectory]
  cases hroot : openRoot w (PathText.rooted place) with
  | error e =>
    have hstops : ∀ f : String × Location → Search (List String),
        ofExcept (.error e) >>= f = throw e := fun _ => rfl
    rw [hstops, hstops]
  | ok found =>
    obtain ⟨top, at_⟩ := found
    obtain ⟨rfl, rfl⟩ := eq_of_openRoot hnames hroot
    have hgoes : ofExcept (.ok (PathText.rooted at_, at_)) =
        (pure (PathText.rooted at_, at_) : Search (String × Location)) := rfl
    rw [hgoes, pure_bind, pure_bind]
    dsimp only
    rw [findings_eq h hstraight]

/-- The paths that are discovered go on from the directory by proper names. -/
theorem exists_way_of_discover [Nesting.Room] {paths complaints : List String}
    (hstraight : d.IsStraight (PathText.rooted place))
    (hdiscovered : outcome (d.discover w (PathText.rooted place)) [] = (.ok paths, complaints)) :
    ∀ path ∈ paths, ∃ way : List String, (∀ name ∈ way, PathText.IsProper name) ∧
      path = PathText.rooted (place ++ way) := by
  intro path hpath
  obtain ⟨top, at_, hroot⟩ := exists_openRoot hdiscovered
  obtain ⟨rfl, rfl⟩ := eq_of_openRoot hnames hroot
  obtain ⟨hselected, -⟩ := (gives_discover d hroot).outcome_eq hdiscovered
  obtain ⟨found, hfound, hselect⟩ := bind_eq_ok_iff.mp hselected
  obtain ⟨way, hway, -, rfl⟩ := (mem_of_select hselect).mp hpath
  obtain ⟨ways, hways, hway⟩ := List.mem_flatten.mp hway
  obtain ⟨pattern, hpattern, hanswer⟩ := (mem_iff_of_mapM hfound).mp hways
  have hproper : ∀ name ∈ way, PathText.IsProper name := by
    cases pattern with
    | text p =>
      obtain ⟨answers, hanswers, rfl⟩ := exists_of_waysOfPattern hanswer
      obtain ⟨answer, hmem, hway⟩ := List.mem_flatten.mp hway
      obtain ⟨expanded, hexpanded, hwaysOf⟩ := (mem_iff_of_mapM hanswers).mp hmem
      unfold waysOf at hwaysOf
      rcases hfiles : Glob.files w.files (PathText.rooted at_) at_ (String.ofList expanded) with
        e | fault | found
      · rw [hfiles] at hwaysOf
        cases hwaysOf
      · rw [hfiles] at hwaysOf
        obtain rfl := Except.ok.inj hwaysOf
        cases hway
      · rw [hfiles] at hwaysOf
        obtain rfl := Except.ok.inj hwaysOf
        exact Glob.isProper_of_mem_files h (hstraight p hpattern expanded hexpanded) hfiles way hway
    | _ => cases hanswer
  exact ⟨way, hproper, Glob.fullPath_rooted (fun name hname => (hnames name hname).1)
    fun name hname => (hproper name hname).1⟩

end Rooted

end Discovery

end DesignTokens

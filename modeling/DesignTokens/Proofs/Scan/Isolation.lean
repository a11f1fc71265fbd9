import DesignTokens.Proofs.Files.Made
import DesignTokens.Proofs.History.Store
import DesignTokens.Proofs.Scan.Complete
import DesignTokens.Proofs.Scan.Parallel

/-!
# Repositories that do not meet

Remote repositories with different names are copied to different places in the directory for copies.
If that is empty at first, each is scanned as if it were the only one: neither the copies of those
before it nor the directory that was made for them makes a difference.
-/

namespace DesignTokens

open FileTree PathText

variable {w w' base : World} {shelf place : Location} {path copies name url : String}

section Vacant

/-- Making directories depends on the files and on nothing that was issued or printed. -/
theorem Run.unlogged_makeDirectories [Nesting.Room] (path : String) :
    Unlogged (makeDirectories .copies path) := by
  refine Agree.makeDirectoriesFrom (fun _ => True) (fun _ _ _ => trivial) ?_
    (fun path _ => unlogged_makeDirectory path true) _ trivial
  intro w w' hw path _
  unfold World.pathExists
  rw [World.files_of_base hw, World.directory_of_base hw]

/-- Making directories changes nothing but what is on the way to them. -/
theorem Run.filter_nodes_of_makeDirectories [Nesting.Room] {p : Location → Bool}
    (hstraight : IsStraight path)
    (hp : ∀ l, l <+: spelled w.directory path → p l = false) :
    (outcome (makeDirectories .copies path) w).2.setting = w.setting ∧
      (outcome (makeDirectories .copies path) w).2.files.nodes.filter (fun n => p n.1) =
        w.files.nodes.filter fun n => p n.1 := by
  have hkeeps : ∀ path, IsStraight path → (∀ l, l <+: spelled w.directory path → p l = false) →
      Agree
        (fun u u' => u = u' ∧ u.setting = w.setting ∧
          u.files.nodes.filter (fun n => p n.1) = w.files.nodes.filter fun n => p n.1)
        (fun u u' => u = u' ∧ u.setting = w.setting ∧
          u.files.nodes.filter (fun n => p n.1) = w.files.nodes.filter fun n => p n.1)
        (makeDirectory path true) (makeDirectory path true) := by
    intro path hstraight hp
    unfold makeDirectory
    refine (Agree.requirePath path).bind fun _ => Agree.read fun u u' hu => ?_
    obtain ⟨rfl, hsetting, hnodes⟩ := hu
    cases hmake : u.files.makeDirectory u.directory path with
    | ok files =>
      refine Agree.set ⟨rfl, hsetting, ?_⟩
      rw [World.directory_of_setting hsetting] at hmake
      rw [eq_put_of_makeDirectory hstraight hmake,
        filter_put_of_neg (hp _ List.prefix_rfl), hnodes]
    | error e =>
      dsimp only
      split
      · exact .pure ()
      · exact .throw _
  have hmakes := Agree.makeDirectoriesFrom
    (fun path => IsStraight path ∧ ∀ l, l <+: spelled w.directory path → p l = false)
    (fun path h hne => ⟨h.1.parent, fun l hl =>
      h.2 l (hl.trans (spelled_parent_le w.directory hne))⟩)
    (fun u u' hu path _ => by rw [hu.1]) (fun path h => hkeeps path h.1 h.2)
    Nesting.Site.copies.limit ⟨hstraight, hp⟩
  exact (hmakes w w ⟨rfl, rfl, rfl⟩).2.2

/-- A directory for copies that is empty, or missing and can be made. -/
structure World.IsVacant [Nesting.Room] (w : World) (shelf : Location) : Prop where
  made : ∃ u, outcome (Run.makeDirectories .copies (rooted shelf)) w = (.ok (), u)
  empty : ∀ n ∈ w.files.nodes, shelf <+: n.1 → n.1 = shelf

/-- Two worlds with the setting of `base` in which nothing is at the place of a copy, and which are
parallel at it once the directory for copies is made. -/
structure Awaits [Nesting.Room] (base : World) (shelf : Location) (name : String) (w w' : World) :
    Prop where
  setting : w.setting = base.setting
  setting' : w'.setting = base.setting
  free : w.files.below (shelf ++ [name]) = []
  free' : w'.files.below (shelf ++ [name]) = []
  made : ∃ u u', outcome (Run.makeDirectories .copies (rooted shelf)) w = (.ok (), u) ∧
    outcome (Run.makeDirectories .copies (rooted shelf)) w' = (.ok (), u') ∧
      Parallel base (shelf ++ [name]) u u' ∧ u.files.below (shelf ++ [name]) = []

theorem Awaits.said [Nesting.Room] (h : Awaits base shelf name w w') (line : String) :
    Awaits base shelf name (w.said line) (w'.said line) := by
  obtain ⟨u, u', hmade, hmade', hparallel, hfree⟩ := h.made
  obtain ⟨v, hv, hbase⟩ :=
    Unlogged.exists_outcome (Run.unlogged_makeDirectories _) hmade (w.base_said line)
  obtain ⟨v', hv', hbase'⟩ :=
    Unlogged.exists_outcome (Run.unlogged_makeDirectories _) hmade' (w'.base_said line)
  refine ⟨(w.setting_said line).trans h.setting, (w'.setting_said line).trans h.setting', ?_, ?_,
    v, v', hv, hv', hparallel.of_base hbase hbase', ?_⟩
  · rw [World.files_of_base (w.base_said line)]
    exact h.free
  · rw [World.files_of_base (w'.base_said line)]
    exact h.free'
  · rw [World.files_of_base hbase]
    exact hfree

/-- The place of a copy is not on the way to the directory for copies. -/
theorem isPrefixOf_concat_eq_false {l : Location} (hle : l <+: shelf) :
    (shelf ++ [name]).isPrefixOf l = false := by
  rw [Bool.eq_false_iff]
  intro hprefix
  have hlength := (List.isPrefixOf_iff_prefix.mp hprefix).length_le.trans hle.length_le
  rw [List.length_append, List.length_singleton] at hlength
  omega

/-- At first, a world with an empty directory for copies awaits every copy. -/
theorem World.IsVacant.awaits [Nesting.Room] (h : w.IsVacant shelf)
    (hshelf : ∀ s ∈ shelf, IsProper s)
    (name : String) : ∃ base, Awaits base shelf name w w := by
  obtain ⟨u, hmade⟩ := h.made
  have hstraight := isStraight_rooted hshelf
  have hspelled := spelled_rooted hshelf
  have hfree : w.files.below (shelf ++ [name]) = [] := by
    refine List.filter_eq_nil_iff.mpr fun n hn hprefix => ?_
    have hle := List.isPrefixOf_iff_prefix.mp hprefix
    have heq := h.empty n hn ((List.prefix_append _ _).trans hle)
    rw [heq, isPrefixOf_concat_eq_false List.prefix_rfl] at hprefix
    cases hprefix
  obtain ⟨hsetting, hnodes⟩ := Run.filter_nodes_of_makeDirectories (w := w)
    (p := (shelf ++ [name]).isPrefixOf) hstraight fun l hl =>
      isPrefixOf_concat_eq_false (hspelled w.directory ▸ hl)
  rw [hmade] at hsetting hnodes
  have hfree' : u.files.below (shelf ++ [name]) = [] := hnodes.trans hfree
  have hthere := (Run.isDirectory_of_makeDirectories hshelf hmade).2
  have hopens : u.files.Opens (shelf ++ [name]) := by
    intro above hle hne
    refine opens_of_isDirectory hstraight (isAbsolute_rooted shelf) hthere above ?_
    rw [hspelled]
    exact (List.prefix_concat_iff.mp hle).resolve_left hne
  have hsame : SameBelow (shelf ++ [name]) u.files u.files :=
    .refl hopens fun n hn => by
      rw [hfree'] at hn
      cases hn
  exact ⟨u, hsetting.symm, hsetting.symm, hfree, hfree, u, u, hmade, hmade,
    ⟨rfl, rfl, rfl, hsame⟩, hfree'⟩

end Vacant

section Apart

variable {t t' t₁ : FileTree} {other : Location}

/-- What is changed at another place makes no difference. -/
theorem FileTree.SameBelow.of_outside (h : SameBelow place t t') (hapart : ¬ Along place other)
    (houtside : t₁.outside other = t.outside other) : SameBelow place t₁ t' := by
  have hkind : ∀ l, Along place l → (!other.isPrefixOf l) = true := by
    intro l hl
    rw [Bool.not_eq_true', Bool.eq_false_iff]
    intro hprefix
    exact hapart (hl.of_le (List.isPrefixOf_iff_prefix.mp hprefix))
  have hbelow : t₁.below place = t.below place := by
    have hsplit : ∀ t : FileTree, t.below place =
        (t.outside other).filter fun n => place.isPrefixOf n.1 := by
      intro t
      unfold below outside
      rw [List.filter_filter]
      refine List.filter_congr fun n _ => ?_
      cases hprefix : place.isPrefixOf n.1 with
      | false => rfl
      | true =>
        rw [Bool.true_and, hkind n.1 (.inr (List.isPrefixOf_iff_prefix.mp hprefix))]
    rw [hsplit, houtside, ← hsplit]
  refine ⟨fun above hle hne => ?_, h.opens', hbelow.trans h.below_eq, hbelow ▸ h.proper⟩
  have hdirectory := h.opens above hle hne
  unfold hasDirectory at hdirectory ⊢
  rwa [node?_eq_of_filter (p := fun l => !other.isPrefixOf l) (hkind above (.inl hle)) houtside]

/-- Copies with different names are apart. -/
theorem not_along_of_ne {other : String} (hne : name ≠ other) :
    ¬ Along (shelf ++ [name]) (shelf ++ [other]) := by
  have hlength : (shelf ++ [name]).length = (shelf ++ [other]).length := by
    rw [List.length_append, List.length_append]
    rfl
  rintro (hle | hle)
  · have heq := List.append_cancel_left (hle.eq_of_length hlength.symm)
    exact hne (List.singleton_inj.mp heq).symm
  · exact hne (List.singleton_inj.mp (List.append_cancel_left (hle.eq_of_length hlength)))

/-- After the scan of another repository, a copy is still awaited. -/
theorem Awaits.of_parallel [Nesting.Room] {base' u u' : World} {other : String}
    (hshelf : ∀ s ∈ shelf, IsProper s) (h : Awaits base shelf name w w')
    (hother : Awaits base' shelf other w w') (hne : name ≠ other)
    (hleft : Parallel base' (shelf ++ [other]) u u') : Awaits u shelf name u w' := by
  obtain ⟨v, v', hmade, hmade', hparallel, hfree⟩ := h.made
  obtain ⟨v₁, v₁', hmade₁, -, hparallel₁, -⟩ := hother.made
  rw [hmade] at hmade₁
  obtain rfl : v = v₁ := congrArg Prod.snd hmade₁
  have houtside : u.files.outside (shelf ++ [other]) = v.files.outside (shelf ++ [other]) :=
    hleft.outside.trans hparallel₁.outside.symm
  have hsame : SameBelow (shelf ++ [name]) u.files v'.files :=
    hparallel.same.of_outside (not_along_of_ne hne) houtside
  have hstart : u.setting = base.setting :=
    hleft.setting.trans (hother.setting.symm.trans h.setting)
  have hstraight := isStraight_rooted hshelf
  -- The directory for copies is there, so it is not made again.
  obtain ⟨hpossible, hthere⟩ := Run.isDirectory_of_makeDirectories hshelf hmade'
  obtain ⟨levels, hroom⟩ := Run.exists_limit_eq_succ hmade'
  have hkept : u.isDirectory (rooted shelf) = true := by
    have halong : Along (shelf ++ [name]) (spelled u.directory (rooted shelf)) := by
      rw [spelled_rooted hshelf]
      exact .inl (List.prefix_append _ _)
    unfold World.isDirectory at hthere ⊢
    rw [hsame.isDirectory_eq hstraight halong,
      World.directory_of_setting (hstart.trans hparallel.setting'.symm)]
    exact hthere
  refine ⟨rfl, h.setting'.trans hstart.symm, ?_, h.free', u, v',
    Run.outcome_makeDirectories_of_isDirectory hroom hshelf hpossible hkept, hmade',
    ⟨rfl, hparallel.setting'.trans hstart.symm, rfl, hsame⟩, ?_⟩
  · rw [hsame.below_eq, ← hparallel.same.below_eq, hfree]
  · rw [hsame.below_eq, ← hparallel.same.below_eq, hfree]

end Apart

/-- A remote repository without a directory of its own, by its location and its name. -/
structure Repository.IsRemote (r : Repository) (url name : String) : Prop where
  place : r.place = .ok (url, false)
  localPath : r.localPath.isGiven = false
  named : ∃ s : Spelling, r.name = .text s ∧ s.shown = name
  proper : IsProper name

namespace Checkout

variable {r : Repository}

/-- Nothing is a directory below a place where nothing is. -/
theorem isDirectory_eq_false_of_below (hstraight : IsStraight path)
    (hle : place <+: spelled w.directory path) (hne : spelled w.directory path ≠ [])
    (hfree : w.files.below place = []) : w.isDirectory path = false := by
  unfold World.isDirectory FileTree.isDirectory
  cases hlocate : w.files.locate w.directory path with
  | error fault => rfl
  | ok target =>
    have htarget := eq_spelled_of_locate hstraight hlocate
    have hbelow : place.isPrefixOf target = true :=
      List.isPrefixOf_iff_prefix.mpr (htarget ▸ hle)
    have hnode : w.files.node? target = FileTree.node? ⟨[]⟩ target :=
      node?_eq_of_filter hbelow hfree
    dsimp only
    unfold hasDirectory
    rw [hnode]
    unfold node?
    rw [if_neg (htarget ▸ hne)]
    rfl

variable (hbase : base.Anchored) (hcopies : IsShelf copies)
  (hshelf : spelled base.directory copies = shelf) (hname : IsProper name)

include hbase hcopies hshelf hname

/-- A copy that is awaited is made alike. -/
theorem agree_fetch [Nesting.Room] (hgit : IsSteady base.git url) (r : Repository) :
    Agree (Awaits base shelf name) (Parallel base (shelf ++ [name]))
      (fetch (append copies name) url r) (fetch (append copies name) url r) := by
  have hstraight := hcopies.straight.append_name hname
  have hplace : spelled base.directory (append copies name) = shelf ++ [name] := by
    rw [spelled_append_name hname, hshelf]
  have hmissing : ∀ w : World, w.setting = base.setting → w.files.below (shelf ++ [name]) = [] →
      w.isDirectory (append (append copies name) ".git") = false := by
    intro w hw hfree
    have hgitName : IsProper ".git" := by decide
    have hspelled : spelled w.directory (append (append copies name) ".git") =
        shelf ++ [name] ++ [".git"] := by
      rw [spelled_append_name hgitName, World.directory_of_setting hw, hplace]
    exact isDirectory_eq_false_of_below (hstraight.append_name hgitName)
      (hspelled ▸ List.prefix_append _ _)
      (hspelled ▸ List.append_ne_nil_of_right_ne_nil _ (List.cons_ne_nil _ _)) hfree
  have hmake : Agree (Awaits base shelf name) (Parallel base (shelf ++ [name]))
      (Run.makeDirectories .copies (rooted shelf)) (Run.makeDirectories .copies (rooted shelf)) := by
    intro w w' hw
    obtain ⟨u, u', hmade, hmade', hparallel, -⟩ := hw.made
    rw [hmade, hmade']
    exact ⟨rfl, hparallel⟩
  unfold fetch
  refine Agree.read fun w w' hw => ?_
  rw [hmissing w hw.setting hw.free, hmissing w' hw.setting' hw.free', if_neg Bool.false_ne_true,
    if_neg Bool.false_ne_true, World.workingDirectory_of_setting hw.setting,
    World.workingDirectory_of_setting hw.setting', hbase.parent_copy hcopies hname, hshelf]
  refine Agree.say_bind _ (fun _ _ hw => hw.said _) (hmake.bind fun _ => ?_)
  exact keepsTo_clone hbase hgit (append_name_ne_empty hname copies) hstraight hplace r.branch

end Checkout

/-- A file below the place is read alike. -/
theorem SourceFile.read_eq (h : SameBelow place w.files w'.files) (hset : w.setting = w'.setting)
    (hplace : ∀ part ∈ place, IsProper part) {way : List String}
    (hway : ∀ part ∈ way, IsProper part) (root : String) :
    SourceFile.read w root (rooted (place ++ way)) =
      SourceFile.read w' root (rooted (place ++ way)) := by
  have hproper : ∀ part ∈ place ++ way, IsProper part := by
    intro part hpart
    exact (List.mem_append.mp hpart).elim (hplace part) (hway part)
  have hstraight := isStraight_rooted hproper
  have halong : Along place (spelled w.directory (rooted (place ++ way))) := by
    rw [spelled_rooted hproper]
    exact .inr (List.prefix_append _ _)
  have htext : w.textOf (rooted (place ++ way)) = w'.textOf (rooted (place ++ way)) := by
    unfold World.textOf
    rw [h.read_eq hstraight halong, World.directory_of_setting hset]
  unfold SourceFile.read
  rw [htext, World.workingDirectory_of_setting hset]

namespace Scanner

variable {s : Scanner} {r : Repository}

/-- The path of a scanner's directory for copies. -/
structure HasShelf (s : Scanner) (copies : String) : Prop where
  text : ∃ c : Spelling, s.copies = .text c ∧ c.shown = copies
  shelf : IsShelf copies

/-- What is done to prepare a remote repository, and the directory that is scanned then. -/
theorem HasShelf.prepare_eq [Nesting.Room] (hcopies : s.HasShelf copies)
    (hr : r.IsRemote url name) :
    Checkout.prepare s.copies r =
      Run.recover Checkout.isSetback (Checkout.fetch (append copies name) url r)
        (fun e => throw (.unprepared r.name.displayString e.message)) >>=
          fun _ => pure (append copies name) := by
  obtain ⟨text, htext, htextShown⟩ := hcopies.text
  obtain ⟨own, hown, hownShown⟩ := hr.named
  have hdirectory : Checkout.directoryFor s.copies r = .ok (append copies name) := by
    unfold Checkout.directoryFor
    rw [if_neg (by rw [hr.localPath]; decide), htext, hown]
    dsimp only
    rw [htextShown, hownShown]
  unfold Checkout.prepare Checkout.prepareRemote
  rw [hr.place, hdirectory]
  rfl

section Scan

variable (hbase : base.Anchored) (hcopies : s.HasShelf copies)
  (hshelf : spelled base.directory copies = shelf) (hr : r.IsRemote url name)
  (hgit : Checkout.IsSteady base.git url)
  (hstraight : s.discovery.IsStraight (rooted (shelf ++ [name])))

include hbase hcopies hshelf hr hgit hstraight

/-- A repository whose copy is awaited is scanned alike. -/
theorem agree_scan [Nesting.Room] :
    Agree (Awaits base shelf name) (Parallel base (shelf ++ [name])) (s.scan r) (s.scan r) := by
  have hnames : ∀ part ∈ shelf ++ [name], IsProper part :=
    hshelf ▸ hbase.isProper_copy hcopies.shelf hr.proper
  unfold scan
  rw [hcopies.prepare_eq hr, bind_assoc]
  simp only [pure_bind]
  refine ((Checkout.agree_fetch hbase hcopies.shelf hshelf hr.proper hgit r).recover _ fun e =>
    Agree.throw _).bind fun _ => (Agree.requirePath _).bind fun _ => Agree.read fun w w' hw => ?_
  have hroot : ∀ w : World, w.setting = base.setting →
      w.realPath (append copies name) = rooted (shelf ++ [name]) := by
    intro w hw
    rw [(hbase.of_setting hw).realPath_copy hcopies.shelf hr.proper, World.directory_of_setting hw,
      hshelf]
  have hset : w.setting = w'.setting := hw.setting.trans hw.setting'.symm
  have hdiscover := Discovery.discover_eq (d := s.discovery) hw.same hnames
    (World.directory_of_setting hset) hstraight
  rw [hroot w hw.setting, hroot w' hw.setting', ← hdiscover]
  rcases hdiscovered : (s.discovery.discover w (rooted (shelf ++ [name]))).run.run [] with
    ⟨found, complaints⟩
  refine Agree.ofExcept_bind fun paths hpaths => (KeepsTo.say _).bind fun _ => ?_
  have hways := Discovery.exists_way_of_discover hw.same hnames hstraight
    (hpaths ▸ hdiscovered : outcome (s.discovery.discover w _) [] = (.ok paths, complaints))
  have hfiles : paths.mapM (SourceFile.read w (rooted (shelf ++ [name]))) =
      paths.mapM (SourceFile.read w' (rooted (shelf ++ [name]))) := by
    refine mapM_congr fun path hpath => ?_
    obtain ⟨way, hway, rfl⟩ := hways path hpath
    exact SourceFile.read_eq hw.same hset hnames hway _
  have hresult : s.resultOf r w complaints = s.resultOf r w' complaints := by
    funext files
    unfold resultOf
    rw [World.now_of_setting hset, World.scanMilliseconds_of_setting hset]
  rw [hfiles, hresult, World.scanMilliseconds_of_setting hset]
  refine Agree.ofExcept_bind fun files _ => Agree.ofExcept_bind fun result _ => ?_
  exact (KeepsTo.say _).bind fun _ => .pure result

/-- A repository whose copy is awaited has the same result. -/
theorem agree_scanOrFail [Nesting.Room] :
    Agree (Awaits base shelf name) (Parallel base (shelf ++ [name])) (s.scanOrFail r)
      (s.scanOrFail r) := by
  unfold scanOrFail
  refine Agree.say_bind _ (fun _ _ hw => hw.said _) (Agree.recover ?_ _ fun e => ?_)
  · exact (agree_scan hbase hcopies hshelf hr hgit hstraight).bind fun result =>
      (KeepsTo.say _).bind fun _ => .pure result
  · refine (KeepsTo.warn _).bind fun _ => Agree.read fun w w' hw => ?_
    rw [World.now_of_setting (hw.setting.trans hw.setting'.symm)]
    exact .pure _

end Scan

section List

variable {rs : List Repository} {names : List String}

/-- A repository that can be scanned on its own: it is remote, has its name among the copies, and
its copy holds the same whenever it is made. -/
def IsOwn (s : Scanner) (w : World) (shelf : Location) (r : Repository) (name : String) : Prop :=
  ∃ url, r.IsRemote url name ∧ Checkout.IsSteady w.git url ∧
    s.discovery.IsStraight (rooted (shelf ++ [name]))

/-- Repositories whose copies are awaited have the results that they have alone. -/
theorem fst_outcome_mapM_eq [Nesting.Room] {u : World} (hw : w.Anchored)
    (hcopies : s.HasShelf copies)
    (hshelf : spelled w.directory copies = shelf) (hrs : List.Forall₂ (s.IsOwn w shelf) rs names)
    (hnames : names.Nodup) (hawaits : ∀ name ∈ names, ∃ base, Awaits base shelf name u w) :
    (outcome (rs.mapM s.scanOrFail) u).1 = rs.mapM fun r => (outcome (s.scanOrFail r) w).1 := by
  induction hrs generalizing u with
  | nil => rfl
  | @cons r name rs names hr hrs ih =>
    obtain ⟨hnew, hnames⟩ := List.nodup_cons.mp hnames
    obtain ⟨url, hremote, hgit, hstraight⟩ := hr
    obtain ⟨base, hfirst⟩ := hawaits name List.mem_cons_self
    have hset := hfirst.setting'
    have hagree := agree_scanOrFail (hw.of_setting hset.symm) hcopies
      (World.directory_of_setting hset ▸ hshelf) hremote (World.git_of_setting hset ▸ hgit)
      hstraight
    rw [List.mapM_cons, List.mapM_cons]
    rcases hagree.cases hfirst with ⟨a, v, v', hx, hy, hleft⟩ | ⟨e, v, v', hx, hy, hleft⟩
    · have hproper : ∀ part ∈ shelf, IsProper part := hshelf ▸ hw.isProper_shelf hcopies.shelf
      have hrest := ih hnames (u := v) fun other hother => by
        obtain ⟨base', hawait⟩ := hawaits other (List.mem_cons_of_mem name hother)
        have hne : other ≠ name := fun heq => hnew (heq ▸ hother)
        exact ⟨v, hawait.of_parallel hproper hfirst hne hleft⟩
      rw [outcome_bind_of_ok hx, hy]
      rcases hmore : outcome (rs.mapM s.scanOrFail) v with ⟨answers, left⟩
      rw [hmore] at hrest
      simp only [bind, Except.bind]
      rw [← hrest]
      cases answers with
      | ok answers =>
        have hdone := outcome_bind_of_ok hmore fun answers => (pure (a :: answers) : Run _)
        exact congrArg Prod.fst hdone
      | error e =>
        have hdone := outcome_bind_of_error hmore fun answers => (pure (a :: answers) : Run _)
        exact congrArg Prod.fst hdone
    · rw [outcome_bind_of_error hx, hy]
      rfl

/-- The result of a repository that is scanned alone. -/
theorem exists_outcome_scanAll_singleton_iff [Nesting.Room] {result : ScanResult} :
    (∃ left, outcome (s.scanAll [r]) w = (.ok [result], left)) ↔
      (outcome (s.scanOrFail r) (w.said opening)).1 = .ok result := by
  rw [outcome_scanAll]
  rcases hone : outcome (s.scanOrFail r) (w.said opening) with ⟨answer, left⟩
  have hlist : [r].mapM s.scanOrFail = s.scanOrFail r >>= fun result => pure [result] := by
    rw [List.mapM_cons, List.mapM_nil]
    simp only [pure_bind]
  rw [hlist]
  cases answer with
  | ok a =>
    rw [outcome_bind_of_ok hone]
    constructor
    · rintro ⟨left, hleft⟩
      obtain ⟨heq, -⟩ := Prod.mk.inj hleft
      exact congrArg Except.ok (List.singleton_inj.mp (Except.ok.inj heq))
    · intro heq
      obtain rfl := Except.ok.inj heq
      exact ⟨left, rfl⟩
  | error e =>
    rw [outcome_bind_of_error hone]
    constructor
    · rintro ⟨left, hleft⟩
      cases hleft
    · intro heq
      cases heq

/-- Remote repositories with different names are scanned, from an empty directory for copies, with
the results that each of them has when it is scanned alone. -/
theorem exists_scanAll_iff_alone [Nesting.Room] (hw : w.Anchored) (hcopies : s.HasShelf copies)
    (hvacant : w.IsVacant (spelled w.directory copies))
    (hrs : List.Forall₂ (s.IsOwn w (spelled w.directory copies)) rs names) (hnames : names.Nodup)
    (results : List ScanResult) :
    (∃ left, outcome (s.scanAll rs) w = (.ok results, left)) ↔
      List.Forall₂ (fun r result => ∃ left, outcome (s.scanAll [r]) w = (.ok [result], left)) rs
        results := by
  have hset := w.setting_said opening
  have hdirectory := World.directory_of_setting hset
  have hown : List.Forall₂ (s.IsOwn (w.said opening) (spelled w.directory copies)) rs names := by
    refine hrs.imp fun r name hr => ?_
    unfold IsOwn
    rw [World.git_of_setting hset]
    exact hr
  have hawaits : ∀ name ∈ names, ∃ base, Awaits base (spelled w.directory copies) name
      (w.said opening) (w.said opening) := by
    intro name _
    obtain ⟨base, hbase⟩ := hvacant.awaits (hw.isProper_shelf hcopies.shelf) name
    exact ⟨base, hbase.said opening⟩
  have hall :=
    fst_outcome_mapM_eq (hw.of_setting hset) hcopies (by rw [hdirectory]) hown hnames hawaits
  have hends : (∃ left, outcome (s.scanAll rs) w = (.ok results, left)) ↔
      (outcome (rs.mapM s.scanOrFail) (w.said opening)).1 = .ok results := by
    rw [outcome_scanAll]
    exact ⟨fun ⟨left, hleft⟩ => congrArg Prod.fst hleft, fun hfst => ⟨_, Prod.ext hfst rfl⟩⟩
  rw [hends, hall, mapM_eq_ok_iff]
  simp only [exists_outcome_scanAll_singleton_iff]

end List

section Runs

theorem hasShelf_shelving : shelving.HasShelf "/copies" where
  text := ⟨"/copies", rfl, by decide⟩
  shelf := ⟨by decide, by decide⟩

theorem isStraight_shelving (root : String) : shelving.discovery.IsStraight root := by
  intro p hp expanded hexpanded relative hbelow
  obtain rfl := relativePattern_shelving hp hexpanded hbelow
  decide

/-- A service from which the first of two repositories brings a stylesheet, and the other one
nothing but the mark of a copy. -/
def twoCopies : GitService :=
  { (default : GitService) with
    cloned := fun _ url =>
      .ok (if url = "https://a.example/web.git" then [(".git", none), ("a.css", some [])]
        else [(".git", none)]) }

/-- A world without files, and with that service. -/
def cloning : World := { World.ofFiles ⟨[]⟩ with git := twoCopies }

theorem anchored_cloning : cloning.Anchored :=
  ⟨show "/" = rooted (plainSegments "/") by decide,
    show ∀ name ∈ plainSegments "/", IsProper name by decide⟩

attribute [local instance] Nesting.Room.ample

theorem isVacant_cloning : cloning.IsVacant (spelled cloning.directory "/copies") := by
  have hmade : (outcome (Run.makeDirectories .copies (rooted (spelled cloning.directory "/copies")))
      cloning).1.toOption = some () := by decide +kernel
  exact ⟨exists_outcome_of_toOption hmade, fun _ hn => absurd hn List.not_mem_nil⟩

theorem isSteady_cloning (url : String) : Checkout.IsSteady cloning.git url where
  same := fun _ _ => rfl
  below := by
    intro history files hfiles
    have hcopies : ∀ file ∈ [(".git", none), ("a.css", some ([] : List UInt8))],
        isAbsolute file.1 = false ∧ IsStraight file.1 := by decide
    obtain rfl := Except.ok.inj hfiles
    split
    · exact hcopies
    · exact List.forall_mem_singleton.mpr (hcopies _ List.mem_cons_self)

theorem isOwn_cloning {url name : String} {shelf : Location}
    (hplace : (Repository.ofDirectory url name).place = .ok (url, false)) (hname : IsProper name) :
    shelving.IsOwn cloning shelf (Repository.ofDirectory url name) name :=
  ⟨url, ⟨hplace, rfl, ⟨name, rfl, rfl⟩, hname⟩, isSteady_cloning url, isStraight_shelving _⟩

/-- Two repositories with different names. -/
def webAndApp : List Repository :=
  [Repository.ofDirectory "https://a.example/web.git" "web",
    Repository.ofDirectory "https://b.example/app.git" "app"]

/-- The one finds its stylesheet and the other finds none, as each of them does alone. -/
theorem exists_scanAll_webAndApp :
    ∃ results left, outcome (shelving.scanAll webAndApp) cloning = (.ok results, left) ∧
      results.map (·.summary.totalFiles) = [1, 0] ∧
      List.Forall₂ (fun r result => ∃ left, outcome (shelving.scanAll [r]) cloning =
        (.ok [result], left)) webAndApp results := by
  have hfiles : (outcome (shelving.scanAll webAndApp) cloning).1.toOption.map
      (·.map (·.summary.totalFiles)) = some [1, 0] := by decide +kernel
  obtain ⟨results, hresults, htotals⟩ := Option.map_eq_some_iff.mp hfiles
  obtain ⟨left, hscan⟩ := exists_outcome_of_toOption hresults
  have hown : List.Forall₂ (shelving.IsOwn cloning (spelled cloning.directory "/copies")) webAndApp
      ["web", "app"] :=
    .cons (isOwn_cloning rfl (by decide))
      (.cons (isOwn_cloning rfl (by decide)) .nil)
  refine ⟨results, left, hscan, htotals, ?_⟩
  exact (exists_scanAll_iff_alone anchored_cloning hasShelf_shelving isVacant_cloning hown
    (by decide) results).mp ⟨left, hscan⟩

/-- Two repositories at different locations, with the name that both have by default. -/
def webAndWeb : List Repository :=
  [Repository.ofDirectory "https://a.example/web.git" "web.git",
    Repository.ofDirectory "https://b.example/web.git" "web.git"]

/-- Different locations do not keep repositories apart: with one name they share a copy, and the
second has the files of the first. -/
theorem not_forall_exists_scanAll_iff_alone : ¬∀ {s : Scanner} {w : World} {copies : String}
    {rs : List Repository} {names : List String}, w.Anchored → s.HasShelf copies →
    w.IsVacant (spelled w.directory copies) →
    List.Forall₂ (s.IsOwn w (spelled w.directory copies)) rs names →
    rs.Pairwise (fun r r' => r.place ≠ r'.place) → ∀ results : List ScanResult,
      (∃ left, outcome (s.scanAll rs) w = (.ok results, left)) ↔
        List.Forall₂ (fun r result => ∃ left, outcome (s.scanAll [r]) w = (.ok [result], left)) rs
          results := by
  intro h
  have hown : List.Forall₂ (shelving.IsOwn cloning (spelled cloning.directory "/copies")) webAndWeb
      ["web.git", "web.git"] :=
    .cons (isOwn_cloning rfl (by decide))
      (.cons (isOwn_cloning rfl (by decide)) .nil)
  have htogether : (outcome (shelving.scanAll webAndWeb) cloning).1.toOption.map
      (·.map (·.summary.totalFiles)) = some [1, 1] := by decide +kernel
  have halone : (outcome (shelving.scanAll
      [Repository.ofDirectory "https://b.example/web.git" "web.git"]) cloning).1.toOption.map
        (·.map (·.summary.totalFiles)) = some [0] := by decide +kernel
  obtain ⟨results, hresults, htotals⟩ := Option.map_eq_some_iff.mp htogether
  have hapart : webAndWeb.Pairwise fun r r' => r.place ≠ r'.place := by
    refine List.pairwise_pair.mpr fun heq => ?_
    have hurl : ("https://a.example/web.git" : String) = "https://b.example/web.git" :=
      (Prod.mk.inj (Except.ok.inj heq)).1
    exact absurd hurl (by decide)
  have hforall := (h anchored_cloning hasShelf_shelving isVacant_cloning hown hapart results).mp
    (exists_outcome_of_toOption hresults)
  cases hforall with
  | cons _ hrest =>
    cases hrest with
    | cons hsecond hnil =>
      cases hnil
      obtain ⟨left, hsecond⟩ := hsecond
      rw [hsecond] at halone
      have hone := (List.cons.inj (List.cons.inj htotals).2).1
      have hnone := (List.cons.inj (Option.some.inj halone)).1
      exact absurd (hone.symm.trans hnone) (by decide)

end Runs

end Scanner

end DesignTokens

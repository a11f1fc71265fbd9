import DesignTokens.Files.Tree

/-!
# Reading what has been written

A file that is written at a path is found there: the way to its directory does not lead through
it, so it stays open when the file is put at its end.
-/

namespace DesignTokens.FileTree

variable {t : FileTree} {location at_ : Location} {node : Node}

private theorem lookup_map_put (nodes : List (Location × Node)) (location other : Location)
    (node : Node) :
    (nodes.map fun n => if n.1 = location then (location, node) else n).lookup other =
      if other = location ∧ (nodes.any fun n => n.1 == location) then some node
      else nodes.lookup other := by
  induction nodes with
  | nil => simp
  | cons n nodes ih =>
    obtain ⟨key, value⟩ := n
    by_cases hkey : key = location
    · subst hkey
      by_cases hother : other = key
      · subst hother
        simp
      · have hbeq : (other == key) = false := by simpa using hother
        simp only [List.map_cons, if_true, List.lookup_cons, hbeq, ih, hother, false_and, if_false]
    · by_cases hother : other = key
      · subst hother
        simp [hkey]
      · have hbeq : (other == key) = false := by simpa using hother
        have hbeq' : (key == location) = false := by simpa using hkey
        simp only [List.map_cons, if_neg hkey, List.lookup_cons, hbeq, ih, List.any_cons, hbeq',
          Bool.false_or]

private theorem lookup_append_put {nodes : List (Location × Node)} {location : Location}
    (h : (nodes.any fun n => n.1 == location) = false) (other : Location) (node : Node) :
    (nodes ++ [(location, node)]).lookup other =
      if other = location then some node else nodes.lookup other := by
  induction nodes with
  | nil =>
    by_cases hother : other = location
    · simp [hother]
    · have hbeq : (other == location) = false := by simpa using hother
      simp [List.lookup_cons, hbeq, hother]
  | cons n nodes ih =>
    obtain ⟨key, value⟩ := n
    simp only [List.any_cons, Bool.or_eq_false_iff, beq_eq_false_iff_ne] at h
    by_cases hother : other = key
    · subst hother
      simp [h.1]
    · have hbeq : (other == key) = false := by simpa using hother
      simp only [List.cons_append, List.lookup_cons, hbeq, ih h.2]

/-- What is put at a location is there, and nothing else changes. -/
theorem node?_put (hne : location ≠ []) (other : Location) :
    (t.put location node).node? other =
      if other = location then some node else t.node? other := by
  unfold node?
  by_cases hroot : other = []
  · subst hroot
    rw [if_pos rfl, if_neg fun h => hne h.symm, if_pos rfl]
  rw [if_neg hroot, if_neg hroot]
  unfold put
  by_cases hany : (t.nodes.any fun n => n.1 == location) = true
  · rw [if_pos hany]
    have hlookup := lookup_map_put t.nodes location other node
    simp only [hany, and_true] at hlookup
    exact hlookup
  · rw [if_neg hany]
    exact lookup_append_put (Bool.eq_false_iff.mpr hany) other node

/-- A file is put where no directory is, so the directories stay. -/
theorem hasDirectory_put_file (hne : location ≠ []) (hfile : t.hasDirectory location = false)
    (content : List UInt8) (other : Location) :
    (t.put location (.file content)).hasDirectory other = t.hasDirectory other := by
  unfold hasDirectory at hfile ⊢
  rw [node?_put hne]
  by_cases hother : other = location
  · subst hother
    rw [if_pos rfl, hfile]
    rfl
  · rw [if_neg hother]

/-- A way goes on from where its first segment leads. -/
theorem walk_cons (t : FileTree) (at_ : Location) (segment : String) (rest : List String) :
    t.walk at_ (segment :: rest) = (t.walk at_ [segment]).bind fun next => t.walk next rest := by
  simp only [walk]
  by_cases hdirectory : (!t.hasDirectory at_) = true
  · rw [if_pos hdirectory, if_pos hdirectory]
    rfl
  rw [if_neg hdirectory, if_neg hdirectory]
  by_cases hsame : (segment = "" || segment = ".") = true
  · rw [if_pos hsame, if_pos hsame]
    rfl
  rw [if_neg hsame, if_neg hsame]
  by_cases habove : segment = ".."
  · rw [if_pos habove, if_pos habove]
    rfl
  rw [if_neg habove, if_neg habove]
  by_cases hlong : nameLimit < segment.utf8ByteSize
  · rw [if_pos hlong, if_pos hlong]
    rfl
  rw [if_neg hlong, if_neg hlong]
  cases t.node? (at_ ++ [segment]) <;> rfl

/-- A way goes on from where its beginning leads, if that leads anywhere. -/
theorem walk_append_eq_bind (t : FileTree) (at_ : Location) (before rest : List String) :
    t.walk at_ (before ++ rest) = (t.walk at_ before).bind fun next => t.walk next rest := by
  induction before generalizing at_ with
  | nil => rfl
  | cons segment before ih =>
    rw [List.cons_append, walk_cons, walk_cons t at_ segment before]
    cases t.walk at_ [segment] with
    | error fault => rfl
    | ok next => exact ih next

/-- A way goes on from where its beginning leads. -/
theorem walk_append {before : List String} {target : Location} (h : t.walk at_ before = .ok target)
    (rest : List String) : t.walk at_ (before ++ rest) = t.walk target rest := by
  rw [walk_append_eq_bind, h]
  rfl

/-- Where one segment leads: to the directory itself, to the one above, or to what is in it. -/
theorem walk_singleton_eq_ok_iff {segment : String} {next : Location} :
    t.walk at_ [segment] = .ok next ↔
      t.hasDirectory at_ = true ∧
        ((segment = "" ∨ segment = ".") ∧ next = at_ ∨ segment = ".." ∧ next = at_.dropLast ∨
          isNavigation segment = false ∧ segment.utf8ByteSize ≤ nameLimit ∧
            (t.node? (at_ ++ [segment])).isSome = true ∧ next = at_ ++ [segment]) := by
  simp only [walk]
  by_cases hdirectory : t.hasDirectory at_ = false
  · simp [hdirectory]
  rw [Bool.not_eq_false] at hdirectory
  by_cases hsame : segment = "" ∨ segment = "."
  · rcases hsame with rfl | rfl <;> simp [hdirectory, isNavigation, @eq_comm _ next at_]
  by_cases habove : segment = ".."
  · subst habove
    simp [hdirectory, isNavigation, @eq_comm _ next at_.dropLast]
  obtain ⟨hempty, hdot⟩ := not_or.mp hsame
  by_cases hlong : nameLimit < segment.utf8ByteSize
  · simp [hdirectory, hempty, hdot, habove, hlong, Nat.not_le.mpr hlong]
  · cases hnode : t.node? (at_ ++ [segment]) with
    | none => simp [hdirectory, hempty, hdot, habove, hlong]
    | some found =>
      simp [hdirectory, hempty, hdot, habove, hlong, isNavigation, Nat.not_lt.mp hlong,
        @eq_comm _ next (at_ ++ [segment])]

/-- A way that is open stays open where everything stays, and directories stay directories. -/
theorem walk_mono {t' : FileTree} {segments : List String} {target : Location}
    (hdirectory : ∀ l, t.hasDirectory l = true → t'.hasDirectory l = true)
    (hnode : ∀ l, (t.node? l).isSome = true → (t'.node? l).isSome = true)
    (h : t.walk at_ segments = .ok target) : t'.walk at_ segments = .ok target := by
  induction segments generalizing at_ with
  | nil => exact h
  | cons segment rest ih =>
    rw [walk_cons] at h ⊢
    cases hnext : t.walk at_ [segment] with
    | error fault =>
      rw [hnext] at h
      cases h
    | ok next =>
      rw [hnext] at h
      have hnext' : t'.walk at_ [segment] = .ok next := by
        rw [walk_singleton_eq_ok_iff] at hnext ⊢
        obtain ⟨hopen, hstay | habove | ⟨hname, hsize, hthere, hlocation⟩⟩ := hnext
        · exact ⟨hdirectory _ hopen, .inl hstay⟩
        · exact ⟨hdirectory _ hopen, .inr (.inl habove)⟩
        · exact ⟨hdirectory _ hopen, .inr (.inr ⟨hname, hsize, hnode _ hthere, hlocation⟩)⟩
      rw [hnext']
      exact ih h

theorem isSome_node?_put (hne : location ≠ []) {other : Location}
    (h : (t.node? other).isSome = true) : ((t.put location node).node? other).isSome = true := by
  rw [node?_put hne]
  split
  · rfl
  · exact h

/-- A way that is open stays open when a file is put where no directory is. -/
theorem walk_put_file {content : List UInt8} {segments : List String} {target : Location}
    (hne : location ≠ []) (hfile : t.hasDirectory location = false)
    (h : t.walk at_ segments = .ok target) :
    (t.put location (.file content)).walk at_ segments = .ok target :=
  walk_mono (fun other hother => (hasDirectory_put_file hne hfile content other).trans hother)
    (fun _ hother => isSome_node?_put hne hother) h

/-- A place for a file has a way to its directory. -/
theorem walk_of_entry {directory : Location} {path name : String}
    (h : t.entry directory path = .ok (at_, name)) :
    path ≠ "" ∧ path.utf8ByteSize ≤ pathLimit ∧
      t.walk (if PathText.isAbsolute path then [] else directory)
        (PathText.segments path).dropLast = .ok at_ ∧
      (PathText.segments path).getLast? = some name ∧ t.hasDirectory at_ = true ∧
        name.utf8ByteSize ≤ nameLimit := by
  have hsegments : PathText.segments path ≠ [] := by
    intro hnil
    exact Text.splitOn_ne_nil '/' path.toList (List.map_eq_nil_iff.mp hnil)
  unfold entry at h
  by_cases hempty : path = ""
  · rw [if_pos hempty] at h
    cases h
  by_cases hlong : pathLimit < path.utf8ByteSize
  · rw [if_neg hempty, if_pos hlong] at h
    cases h
  rw [if_neg hempty, if_neg hlong] at h
  simp only [List.getLast?_eq_some_getLast hsegments, Option.getD_some] at h ⊢
  cases hwalk : t.walk (if PathText.isAbsolute path then [] else directory)
      (PathText.segments path).dropLast with
  | error fault =>
    rw [hwalk] at h
    cases h
  | ok target =>
    rw [hwalk] at h
    simp only [bind, Except.bind] at h
    cases hdirectory : t.hasDirectory target with
    | false =>
      rw [hdirectory] at h
      cases h
    | true =>
      simp only [hdirectory, Bool.not_true, Bool.false_eq_true, if_false] at h
      split at h
      · cases h
      · rename_i hsize
        obtain ⟨rfl, rfl⟩ := Prod.mk.inj (Except.ok.inj h)
        exact ⟨hempty, Nat.not_lt.mp hlong, rfl, rfl, hdirectory, Nat.not_lt.mp hsize⟩

/-- A file that is written holds what has been written. -/
theorem read_of_write {t' : FileTree} {directory : Location} {path : String}
    {content : List UInt8} (h : t.write directory path content = .ok t') :
    t'.read directory path = .ok content := by
  unfold write at h
  cases hentry : t.entry directory path with
  | error fault =>
    rw [hentry] at h
    cases h
  | ok entry =>
    obtain ⟨at_, name⟩ := entry
    rw [hentry] at h
    simp only at h
    by_cases hrefused : (isNavigation name || t.hasDirectory (at_ ++ [name])) = true
    · rw [if_pos hrefused] at h
      cases h
    rw [if_neg hrefused] at h
    obtain rfl := Except.ok.inj h
    obtain ⟨hname, hfile⟩ := Bool.or_eq_false_iff.mp (Bool.eq_false_iff.mpr hrefused)
    have hne : at_ ++ [name] ≠ [] := List.append_ne_nil_of_right_ne_nil at_ (List.cons_ne_nil _ _)
    obtain ⟨hempty, hlong, hwalk, hlast, hdirectory, hsize⟩ := walk_of_entry hentry
    have hnode : (t.put (at_ ++ [name]) (.file content)).node? (at_ ++ [name]) =
        some (.file content) := by
      rw [node?_put hne, if_pos rfl]
    have hstep : (t.put (at_ ++ [name]) (.file content)).walk at_ [name] = .ok (at_ ++ [name]) := by
      rw [walk_singleton_eq_ok_iff, hasDirectory_put_file hne hfile, hnode]
      exact ⟨hdirectory, .inr (.inr ⟨hname, hsize, rfl, rfl⟩)⟩
    have hlocate : (t.put (at_ ++ [name]) (.file content)).locate directory path =
        .ok (at_ ++ [name]) := by
      obtain ⟨before, hbefore⟩ := List.getLast?_eq_some_iff.mp hlast
      rw [hbefore, List.dropLast_concat] at hwalk
      unfold locate
      rw [if_neg hempty, if_neg (Nat.not_lt.mpr hlong), hbefore,
        walk_append (walk_put_file hne hfile hwalk), hstep]
    unfold read
    simp only [hlocate, hnode]

/-- A file that is read is found. -/
theorem exists_locate_of_read {directory : Location} {path : String} {content : List UInt8}
    (h : t.read directory path = .ok content) : ∃ at_, t.locate directory path = .ok at_ := by
  unfold read at h
  cases hlocate : t.locate directory path with
  | error fault =>
    rw [hlocate] at h
    cases h
  | ok at_ => exact ⟨at_, rfl⟩

end DesignTokens.FileTree

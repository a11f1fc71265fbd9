import DesignTokens.Files.Glob
import DesignTokens.Files.Wildcard.Greedy
import DesignTokens.Proofs.Files.Location

/-!
# Where segments lead

A match of segments is a run of steps, one for each segment, from a directory. The search lists the
matches of all runs; each match leads where its way leads. Without steps to the directory above, a
match is known from its names alone, and segments with no more steps up than names before them stay
below the directory where they start.
-/

namespace DesignTokens.Glob

/-- Whether a segment stands for a name. -/
def Segment.names : Segment → String → Bool
  | .wild pattern, name => Wildcard.matchesItems (Wildcard.items pattern) name.toList
  | .fixed own, name => name = own
  | _, _ => false

/-- The steps that a segment allows from a directory, by their names, and where they lead. -/
inductive Step (t : FileTree) (at_ : Location) : Segment → List String → Location → Prop
  | name {s : Segment} {name : String} (hname : s.names name = true)
      (hnode : (t.node? (at_ ++ [name])).isSome = true) : Step t at_ s [name] (at_ ++ [name])
  | up : Step t at_ (.fixed "..") [".."] at_.dropLast
  | below {down : List String} (hdirectory : t.hasDirectory (at_ ++ down) = true) :
      Step t at_ .anyDirectories down (at_ ++ down)
  | stay : Step t at_ .directoryOnly [] at_

/-- The runs of steps that segments allow, each step from a directory. -/
inductive Leads (t : FileTree) : List Segment → Location → List String → Location → Prop
  | here {at_ : Location} : Leads t [] at_ [] at_
  | step {s : Segment} {rest : List Segment} {at_ next location : Location}
      {way further : List String} (hdirectory : t.hasDirectory at_ = true)
      (hstep : Step t at_ s way next) (hrest : Leads t rest next further location) :
      Leads t (s :: rest) at_ (way ++ further) location

/-- Segments as a pattern has them: a fixed name is neither empty nor a step in place. -/
def Plain (segments : List Segment) : Prop :=
  ∀ s ∈ segments, s ≠ .fixed "" ∧ s ≠ .fixed "."

variable {t : FileTree} {s : Segment} {rest segments : List Segment} {at_ next location : Location}
  {way : List String}

theorem Plain.tail (h : Plain (s :: rest)) : Plain rest :=
  fun s' hs' => h s' (List.mem_cons_of_mem s hs')

/-- A fixed name allows the step that the file system makes of it. -/
theorem step_fixed_iff (ht : t.WellFormed) {own : String} (hempty : own ≠ "") (hplace : own ≠ ".")
    (hdirectory : t.hasDirectory at_ = true) :
    Step t at_ (.fixed own) way next ↔ way = [own] ∧ t.walk at_ [own] = .ok next := by
  rw [FileTree.walk_singleton_eq_ok_iff]
  constructor
  · intro hstep
    cases hstep with
    | name hname hnode =>
      -- What is there has a name that is no step of navigation and not too long.
      obtain rfl := of_decide_eq_true hname
      obtain ⟨hproper, hshort, -⟩ :=
        ht.isName_of_isSome hnode _ (List.mem_append_right _ List.mem_cons_self)
      have hnavigation : FileTree.isNavigation _ = false :=
        FileTree.isNavigation_eq_false_iff.mpr ⟨hempty, hplace, hproper.2.2⟩
      exact ⟨rfl, hdirectory, .inr (.inr ⟨hnavigation, hshort, hnode, rfl⟩)⟩
    | up => exact ⟨rfl, hdirectory, .inr (.inl ⟨rfl, rfl⟩)⟩
  · rintro ⟨rfl, -, ⟨hsame, -⟩ | ⟨rfl, rfl⟩ | ⟨-, -, hnode, rfl⟩⟩
    · exact absurd hsame (not_or.mpr ⟨hempty, hplace⟩)
    · exact .up
    · exact .name (decide_eq_true rfl) hnode

private theorem mem_next_fixed_iff {own : String} {h n : Hit} :
    n ∈ Glob.next t (.fixed own) h ↔
      n.way = h.way ++ [own] ∧ t.walk h.location [own] = .ok n.location := by
  obtain ⟨reached, location⟩ := n
  simp only [Glob.next]
  cases t.walk h.location [own] with
  | error fault => simp
  | ok there => simp [@eq_comm _ there]

/-- The search takes the steps that a segment allows. -/
theorem mem_next_iff (ht : t.WellFormed) (hs : s ≠ .fixed "" ∧ s ≠ .fixed ".") {h n : Hit}
    (hdirectory : t.hasDirectory h.location = true) :
    n ∈ Glob.next t s h ↔ ∃ way, n.way = h.way ++ way ∧ Step t h.location s way n.location := by
  obtain ⟨start, at_⟩ := h
  obtain ⟨reached, location⟩ := n
  cases s with
  | anyDirectories =>
    simp only [Glob.next, List.mem_map, ht.mem_directoriesBelow_iff hdirectory]
    constructor
    · rintro ⟨down, hdown, heq⟩
      obtain ⟨rfl, rfl⟩ := Hit.mk.inj heq
      exact ⟨down, rfl, .below hdown⟩
    · rintro ⟨down, rfl, hstep⟩
      cases hstep with
      | name hname hnode => cases hname
      | below hbelow => exact ⟨down, hbelow, rfl⟩
  | wild pattern =>
    simp only [Glob.next, List.mem_map, List.mem_filter, ht.mem_children_iff,
      Wildcard.isMatch_eq_matchesItems]
    constructor
    · rintro ⟨name, ⟨hnode, hname⟩, heq⟩
      obtain ⟨rfl, rfl⟩ := Hit.mk.inj heq
      exact ⟨[name], rfl, .name hname hnode⟩
    · rintro ⟨way, rfl, hstep⟩
      cases hstep with
      | name hname hnode => exact ⟨_, ⟨hnode, hname⟩, rfl⟩
  | fixed own =>
    have hempty : own ≠ "" := fun heq => hs.1 (congrArg Segment.fixed heq)
    have hplace : own ≠ "." := fun heq => hs.2 (congrArg Segment.fixed heq)
    rw [mem_next_fixed_iff]
    constructor
    · rintro ⟨hway, hwalk⟩
      exact ⟨[own], hway, (step_fixed_iff ht hempty hplace hdirectory).mpr ⟨rfl, hwalk⟩⟩
    · rintro ⟨way, hway, hstep⟩
      obtain ⟨rfl, hwalk⟩ := (step_fixed_iff ht hempty hplace hdirectory).mp hstep
      exact ⟨hway, hwalk⟩
  | directoryOnly =>
    simp only [Glob.next, List.mem_singleton, Hit.mk.injEq]
    constructor
    · rintro ⟨rfl, rfl⟩
      exact ⟨[], (List.append_nil _).symm, .stay⟩
    · rintro ⟨way, hway, hstep⟩
      cases hstep with
      | name hname hnode => cases hname
      | stay => exact ⟨hway.trans (List.append_nil start), rfl⟩

/-- Steps that are left can only be taken from a directory. -/
theorem Leads.hasDirectory (h : Leads t segments at_ way location) (hne : segments ≠ []) :
    t.hasDirectory at_ = true := by
  cases h with
  | here => exact absurd rfl hne
  | step hdirectory _ _ => exact hdirectory

/-- The search lists the runs of steps. -/
theorem mem_select_iff (ht : t.WellFormed) (hplain : Plain segments) {h : Hit} {n : Hit}
    (hdirectory : segments ≠ [] → t.hasDirectory h.location = true) :
    n ∈ select t segments h ↔
      ∃ way, n.way = h.way ++ way ∧ Leads t segments h.location way n.location := by
  induction segments generalizing h with
  | nil =>
    rw [select, List.mem_singleton]
    constructor
    · rintro rfl
      exact ⟨[], (List.append_nil _).symm, .here⟩
    · rintro ⟨way, hway, hleads⟩
      obtain ⟨reached, location⟩ := n
      cases hleads
      rw [List.append_nil] at hway
      cases hway
      rfl
  | cons s rest ih =>
    have hstart := hdirectory (List.cons_ne_nil s rest)
    have hstep : ∀ n, n ∈ nextFor t rest s h ↔
        (∃ way, n.way = h.way ++ way ∧ Step t h.location s way n.location) ∧
          (rest ≠ [] → t.hasDirectory n.location = true) := by
      intro n
      have hopen : (rest.isEmpty || t.hasDirectory n.location) = true ↔
          (rest ≠ [] → t.hasDirectory n.location = true) := by
        cases rest <;> simp
      unfold nextFor
      rw [List.mem_filter, mem_next_iff ht (hplain s List.mem_cons_self) hstart, hopen]
    rw [select, List.mem_flatMap]
    constructor
    · rintro ⟨m, hm, hn⟩
      obtain ⟨⟨way, hway, hs⟩, hnext⟩ := (hstep m).mp hm
      obtain ⟨further, hfurther, hleads⟩ := (ih hplain.tail hnext).mp hn
      refine ⟨way ++ further, ?_, .step hstart hs hleads⟩
      rw [hfurther, hway, List.append_assoc]
    · rintro ⟨_, hway, hleads⟩
      cases hleads with
      | step hfrom hs hrest =>
        rename_i next way further
        refine ⟨⟨h.way ++ way, next⟩, (hstep _).mpr ⟨⟨way, rfl, hs⟩, hrest.hasDirectory⟩, ?_⟩
        refine (ih hplain.tail hrest.hasDirectory).mpr ⟨further, ?_, hrest⟩
        rw [hway, List.append_assoc]

section Way

/-- A step goes where its names lead. -/
theorem Step.walk_eq (ht : t.WellFormed) (hdirectory : t.hasDirectory at_ = true)
    (h : Step t at_ s way next) : t.walk at_ way = .ok next := by
  cases h with
  | name hname hnode => exact ht.walk_singleton_name hdirectory hnode
  | up => exact FileTree.walk_singleton_eq_ok_iff.mpr ⟨hdirectory, .inr (.inl ⟨rfl, rfl⟩)⟩
  | below hbelow => exact ht.walk_names (FileTree.isSome_of_hasDirectory hbelow)
  | stay => rfl

/-- A match is where its way leads. -/
theorem Leads.walk_eq (ht : t.WellFormed) (h : Leads t segments at_ way location) :
    t.walk at_ way = .ok location := by
  induction h with
  | here => rfl
  | step hdirectory hstep hrest ih =>
    rw [FileTree.walk_append (hstep.walk_eq ht hdirectory)]
    exact ih

/-- The way of a step consists of names and steps up. -/
theorem Step.isName (ht : t.WellFormed) (h : Step t at_ s way next) :
    ∀ name ∈ way, name = ".." ∨ IsName name := by
  intro name hmem
  cases h with
  | name hname hnode =>
    right
    apply ht.isName_of_isSome hnode
    exact List.mem_append_right _ hmem
  | up =>
    left
    exact List.mem_singleton.mp hmem
  | below hbelow =>
    right
    apply ht.isName_of_isSome (FileTree.isSome_of_hasDirectory hbelow)
    exact List.mem_append_right _ hmem
  | stay => cases hmem

/-- The way to a match consists of names and steps up. -/
theorem Leads.isName (ht : t.WellFormed) (h : Leads t segments at_ way location) :
    ∀ name ∈ way, name = ".." ∨ IsName name := by
  induction h with
  | here =>
    intro name hmem
    cases hmem
  | step hdirectory hstep hrest ih =>
    intro name hmem
    rcases List.mem_append.mp hmem with hfirst | hfurther
    · exact hstep.isName ht name hfirst
    · exact ih name hfurther

/-- The way to a match can be spelled. -/
theorem Leads.isSegment (ht : t.WellFormed) (h : Leads t segments at_ way location) :
    ∀ name ∈ way, PathText.IsSegment name := by
  intro name hmem
  rcases h.isName ht name hmem with rfl | hname
  · decide
  · exact hname.1.1

/-- The way to a match has no character that no path can have. -/
theorem Leads.nul_notMem (ht : t.WellFormed) (h : Leads t segments at_ way location) :
    ∀ name ∈ way, ∀ c ∈ name.toList, c.toNat ≠ 0 := by
  intro name hmem
  rcases h.isName ht name hmem with rfl | hname
  · decide
  · exact hname.2.2

end Way

section Spelled

/-- Whether a segment stands for one name, or for the directory above. -/
def Segment.isSingle : Segment → Bool
  | .wild _ | .fixed _ => true
  | _ => false

/-- Whether a segment stands for names one after the other. -/
def Segment.spans : Segment → List String → Bool
  | .anyDirectories, _ => true
  | .directoryOnly, names => names.isEmpty
  | s, [name] => s.names name
  | _, _ => false

/-- A segment for one name stands for just that name. -/
theorem spans_single_iff (hs : s.isSingle = true) :
    s.spans way = true ↔ ∃ name, way = [name] ∧ s.names name = true := by
  cases s <;> rcases way with _ | ⟨name, _ | ⟨second, more⟩⟩ <;>
    simp_all [Segment.isSingle, Segment.spans]

/-- Without a step up, a step goes down by names that its segment stands for. -/
theorem step_iff (hup : s ≠ .fixed "..") (hdirectory : t.hasDirectory at_ = true) :
    Step t at_ s way next ↔
      next = at_ ++ way ∧ s.spans way = true ∧ (t.node? next).isSome = true ∧
        (s.isSingle = false → t.hasDirectory next = true) := by
  constructor
  · intro hstep
    cases hstep with
    | name hname hnode =>
      cases s with
      | wild pattern => exact ⟨rfl, hname, hnode, fun h => Bool.noConfusion h⟩
      | fixed own => exact ⟨rfl, hname, hnode, fun h => Bool.noConfusion h⟩
      | anyDirectories => cases hname
      | directoryOnly => cases hname
    | up => exact absurd rfl hup
    | below hbelow => exact ⟨rfl, rfl, FileTree.isSome_of_hasDirectory hbelow, fun _ => hbelow⟩
    | stay =>
      exact ⟨(List.append_nil _).symm, rfl, FileTree.isSome_of_hasDirectory hdirectory,
        fun _ => hdirectory⟩
  · rintro ⟨rfl, hspans, hnode, hthere⟩
    by_cases hs : s.isSingle = true
    · obtain ⟨name, rfl, hname⟩ := (spans_single_iff hs).mp hspans
      exact .name hname hnode
    · cases s with
      | anyDirectories => exact .below (hthere rfl)
      | directoryOnly =>
        obtain rfl := List.isEmpty_iff.mp hspans
        rw [List.append_nil]
        exact .stay
      | wild pattern => exact absurd rfl hs
      | fixed own => exact absurd rfl hs

/-- Without a step up, a match is where the names of its way say. -/
theorem Leads.eq_append (h : Leads t segments at_ way location) (hup : .fixed ".." ∉ segments) :
    location = at_ ++ way := by
  induction h with
  | here => exact (List.append_nil _).symm
  | step hdirectory hstep hrest ih =>
    obtain ⟨hs, hup⟩ := not_or.mp (mt List.mem_cons.mpr hup)
    obtain ⟨rfl, -⟩ := (step_iff (Ne.symm hs) hdirectory).mp hstep
    rw [ih hup, List.append_assoc]

end Spelled

section Below

/-- Whether segments that start so many names below a directory stay below it: no step up without
a name to take back. What `**` stands for may be nothing. -/
def staysBelow : Nat → List Segment → Bool
  | _, [] => true
  | depth, s :: rest =>
    if s = .fixed ".." then 0 < depth && staysBelow (depth - 1) rest
    else staysBelow (if s.isSingle then depth + 1 else depth) rest

/-- Matches of segments that stay below a directory are below it. -/
theorem prefix_of_leads (ht : t.WellFormed) {top down : List String} {depth : Nat}
    (hdepth : depth ≤ down.length) (hstays : staysBelow depth segments = true)
    (h : Leads t segments (top ++ down) way location) : top <+: location := by
  -- `depth` is a lower bound of the names below `top`: a step up takes one, a single name adds one.
  generalize hstart : top ++ down = at_ at h
  induction h generalizing down depth with
  | here => exact hstart ▸ List.prefix_append top down
  | step hfrom hstep hrest ih =>
    rename_i s rest at_ next location way further
    subst hstart
    unfold staysBelow at hstays
    by_cases hup : s = .fixed ".."
    · subst hup
      simp only [if_true, Bool.and_eq_true, decide_eq_true_eq] at hstays
      have hdown : down ≠ [] := by
        rintro rfl
        exact absurd (hstays.1.trans_le hdepth) (Nat.lt_irrefl 0)
      have hnext : next = top ++ down.dropLast := by
        cases hstep with
        | name hname hnode =>
          obtain rfl := of_decide_eq_true hname
          have hproper :=
            ht.isProper_of_isSome hnode ".." (List.mem_append_right _ List.mem_cons_self)
          exact absurd rfl hproper.2.2
        | up => exact List.dropLast_append_of_ne_nil hdown
      refine ih ?_ hstays.2 hnext.symm
      rw [List.length_dropLast]
      omega
    · rw [if_neg hup] at hstays
      obtain ⟨rfl, hspans, -, -⟩ := (step_iff hup hfrom).mp hstep
      refine ih ?_ hstays (List.append_assoc top down way).symm
      rw [List.length_append]
      split
      · rename_i hsingle
        obtain ⟨name, rfl, -⟩ := (spans_single_iff hsingle).mp hspans
        exact Nat.add_le_add_right hdepth 1
      · exact Nat.le_add_right_of_le hdepth

end Below

end DesignTokens.Glob

import Mathlib.Data.List.TakeWhile
import DesignTokens.Proofs.Token.Edits

/-!
# Changes of a definition

A change gives values to names of one definition, one after the other, up to the first name that
takes none; what it has done by then stays done. So a change that succeeds gives the named fields
their values and leaves all else as it was, but one that fails leaves the dictionary as it was only
if it has given no field another value on its way. The name for all fields takes no value, except
that an object may take the place of the fields there; the rest of the change works on that.
-/

namespace DesignTokens

/-- A text that shows no half is spelled without halves. -/
theorem Spelling.eq_ofString_of_shown {s : Spelling} {t : String} (ht : Half.shown ∉ t.toList)
    (h : s.shown = t) : s = ofString t := by
  obtain ⟨start, more⟩ := s
  cases more with
  | nil => exact congrArg ofString h
  | cons p rest =>
    refine absurd ?_ ht
    rw [← h]
    simp [shown, filled, write]

namespace Members

/-- Under the key that is set stands the value, under another what stood there. -/
theorem get?_set (m : Members) (key other : Spelling) (value : Value) :
    (m.set key value).get? other = if other = key then some value else m.get? other := by
  split
  · rename_i heq
    rw [heq, get?_set_self]
  · rename_i hne
    exact get?_set_of_ne m value hne

/-- What is under a key of the members with a property of keys. -/
theorem get?_filter (p : Spelling → Bool) (m : Members) (key : Spelling) :
    get? (m.filter fun f => p f.1) key = if p key then m.get? key else none := by
  induction m with
  | nil => exact (ite_self none).symm
  | cons f rest ih =>
    obtain ⟨name, value⟩ := f
    rw [List.filter_cons, get?_cons]
    by_cases hkey : key = name
    · rw [hkey] at ih ⊢
      cases hp : p name <;> simp [hp, get?_cons, ih]
    · cases p name <;> simp [hkey, get?_cons, ih]

/-- The value that comes last under a key. -/
def last? (m : Members) (key : Spelling) : Option Value := get? m.reverse key

/-- The value that comes last is one of the rest, or the first one if there is none. -/
theorem last?_cons (key other : Spelling) (value : Value) (rest : Members) :
    last? ((key, value) :: rest) other =
      (last? rest other).or (if other = key then some value else none) := by
  unfold last? get?
  rw [List.reverse_cons, List.lookup_append]
  congr 1
  exact get?_cons key value [] other

/-- Under a key that does not occur no value comes last. -/
theorem last?_eq_none {m : Members} {key : Spelling} (h : ∀ c ∈ m, c.1 ≠ key) :
    m.last? key = none := by
  refine List.lookup_eq_none_iff.mpr fun c hc => bne_iff_ne.mpr ?_
  exact (h c (List.mem_reverse.mp hc)).symm

end Members

namespace Definition

variable {d d' : Definition} {name field : Spelling} {value : Value} {m : Members}

/-- The value of a field, unless the field is lacking. -/
theorem get?_fields (d : Definition) (field : Spelling) :
    d.fields.get? field = if d.lacks field.shown then none else d.allFields.get? field := by
  unfold fields
  rw [Members.get?_filter fun key => !d.lacks key.shown]
  cases d.lacks field.shown <;> rfl

/-- A definition is determined by its fields and what took their place. -/
theorem eq_of_get?_allFields (hnames : d.names = d'.names)
    (h : ∀ field, d.allFields.get? field = d'.allFields.get? field) : d = d' := by
  obtain ⟨name, tier, type, subcategory, description, aliases, deprecated, names⟩ := d
  obtain rfl : name = d'.name := Option.some.inj (h "name")
  obtain rfl : tier = d'.tier := Option.some.inj (h "tier")
  obtain rfl : type = d'.type := Option.some.inj (h "type")
  obtain rfl : subcategory = d'.subcategory := Option.some.inj (h "subcategory")
  obtain rfl : description = d'.description := Option.some.inj (h "description")
  obtain rfl : aliases = d'.aliases := Option.some.inj (h "aliases")
  obtain rfl : deprecated = d'.deprecated := Option.some.inj (h "deprecated")
  obtain rfl : names = d'.names := hnames
  rfl

/-- A change of a field leaves the definition with the names that it had. -/
theorem names_set? (h : d.set? field.shown value = some d') : d'.names = d.names := by
  unfold set? at h
  split at h
  case h_8 => cases h
  all_goals
    obtain rfl := Option.some.inj h
    rfl

/-- A field that is changed is there, and keeps its place. -/
theorem allFields_set? (h : d.set? name.shown value = some d') :
    (d.allFields.get? name).isSome = true ∧ d'.allFields = d.allFields.set name value := by
  unfold set? at h
  split at h
  case h_8 => cases h
  all_goals
    rename_i hname
    obtain rfl := Option.some.inj h
    obtain rfl := Spelling.eq_ofString_of_shown (by decide) hname
    exact ⟨rfl, rfl⟩

/-- What is no field cannot be changed. -/
theorem get?_allFields_of_set? (h : d.set? name.shown value = none) :
    d.allFields.get? name = none := by
  unfold set? at h
  split at h
  case h_8 hname htier htype hsubcategory hdescription haliases hdeprecated =>
    have hne : ∀ t : String, name.shown ≠ t → name ≠ Spelling.ofString t := by
      rintro t hshown rfl
      exact hshown rfl
    simp only [allFields, Members.get?_cons, if_neg (hne _ hname), if_neg (hne _ htier),
      if_neg (hne _ htype), if_neg (hne _ hsubcategory), if_neg (hne _ hdescription),
      if_neg (hne _ haliases), if_neg (hne _ hdeprecated)]
    rfl
  all_goals cases h

/-- All definitions have the same fields. -/
theorem isSome_set? (d d' : Definition) (field : String) (value value' : Value) :
    (d.set? field value).isSome = (d'.set? field value').isSome := by
  unfold set?
  split <;> rfl

/-- To what a definition answers depends on the object that took the place of its fields alone. -/
theorem answersTo_congr (h : d'.names = d.names) : d'.answersTo = d.answersTo := by
  funext name
  have hsame := isSome_set? d' d name.shown .null .null
  unfold answersTo lacks
  rw [h]
  revert hsame
  cases d'.set? name.shown .null <;> cases d.set? name.shown .null
  all_goals first | exact fun _ => rfl | exact nofun

/-- A definition does not answer to a field that is lacking. -/
theorem answersTo_of_lacks (hlacks : d.lacks name.shown = true)
    (hfield : d.allFields.get? name = some value) : d.answersTo name = false := by
  unfold answersTo
  cases hset : d.set? name.shown .null with
  | some changed => rw [hlacks, Bool.not_true]
  | none => rw [get?_allFields_of_set? hset] at hfield; cases hfield

/-- A definition does not answer to the name for all fields. -/
theorem answersTo_of_whole? (h : whole? name value = some m) : d.answersTo name = false := by
  unfold whole? at h
  split at h
  · split at h
    · rename_i hname
      obtain rfl := Spelling.eq_ofString_of_shown (by decide) hname
      rfl
    · cases h
  · cases h

/-- A name that the definition answers to gives a value to the field of that name, if there is
one. -/
theorem exists_give (value : Value) (h : d.answersTo name = true) :
    ∃ d', d.give name value = .ok d' ∧ d'.names = d.names ∧ ∀ field, d'.allFields.get? field =
      if field = name then (d.allFields.get? field).map fun _ => value
      else d.allFields.get? field := by
  have hwhole : whole? name value = none := by
    cases hwhole : whole? name value with
    | none => rfl
    | some m => rw [answersTo_of_whole? hwhole] at h; cases h
  unfold give
  rw [hwhole]
  dsimp only
  rw [if_pos h]
  cases hset : d.set? name.shown value with
  | some changed =>
    obtain ⟨hthere, hfields⟩ := allFields_set? hset
    obtain ⟨old, hold⟩ := Option.isSome_iff_exists.mp hthere
    refine ⟨changed, rfl, names_set? hset, fun field => ?_⟩
    rw [hfields, Members.get?_set]
    split
    · rename_i heq
      rw [heq, hold]
      rfl
    · rfl
  | none =>
    refine ⟨d, rfl, rfl, fun field => ?_⟩
    split
    · rename_i heq
      rw [heq, get?_allFields_of_set? hset]
      rfl
    · rfl

/-- A name to which the definition does not answer is refused. -/
theorem give_eq_error (hwhole : whole? name value = none) (h : d.answersTo name = false) :
    d.give name value = .error (refusal name.shown) := by
  unfold give
  rw [hwhole]
  dsimp only
  rw [if_neg (Bool.eq_false_iff.mp h)]

/-- An object takes the place of the fields. -/
theorem give_of_whole? (h : whole? name value = some m) : d.give name value = .ok (ofFields m) := by
  unfold give
  rw [h]

end Definition

namespace Dictionary

/-- The changes before the first one to a name that takes no value. -/
def made (definition : Definition) (changes : Members) : Members :=
  changes.takeWhile fun c => definition.answersTo c.1

/-- The changes from the first one to a name that takes no value. -/
def untaken (definition : Definition) (changes : Members) : Members :=
  changes.dropWhile fun c => definition.answersTo c.1

/-- The definition under a key has the values that changes give to its fields last, and all else is
as it was. -/
def Renewed (d : Dictionary) (key : Spelling) (changes : Members) (d' : Dictionary) : Prop :=
  ∃ before old new after, d.entries = before ++ (key, old) :: after ∧
    d'.entries = before ++ (key, new) :: after ∧ (∀ e ∈ before, e.1 ≠ key) ∧
    ∀ field, new.fields.get? field =
      (old.fields.get? field).map fun value => (changes.last? field).getD value

/-- A change that is made as a whole or not at all. -/
structure IsAtomic (d : Dictionary) (key : Spelling) (changes : Members) : Prop where
  /-- It fails if there is a definition and some name takes no value. -/
  fails_iff : (∃ e, (d.update key changes).2 = .error e) ↔
    ∃ stored, d.get? key = some stored ∧ ∃ c ∈ changes, stored.answersTo c.1 = false
  /-- A failure leaves everything as it was. -/
  failed : ∀ e, (d.update key changes).2 = .error e → (d.update key changes).1 = d
  /-- Without a definition there is nothing to change. -/
  absent : (d.update key changes).2 = .ok false → (d.update key changes).1 = d
  /-- A success gives the named fields their values and leaves all else as it was. -/
  renewed : (d.update key changes).2 = .ok true → d.Renewed key changes (d.update key changes).1

/-- A definition has the values that changes give to its fields last, and lacks what it lacked. -/
structure GivesLast (definition : Definition) (changes : Members) (after : Definition) :
    Prop where
  names : after.names = definition.names
  allFields : ∀ field, after.allFields.get? field =
    (definition.allFields.get? field).map fun value => (changes.last? field).getD value

/-- How changes of a definition end: all are made, or the first one to a name that takes no value is
refused, or it puts an object in the place of the fields and the rest changes that. -/
inductive Ends (definition : Definition) (changes : Members) :
    Definition × Except Failure Bool → Prop
  | all {after : Definition} (hnone : untaken definition changes = [])
    (hafter : GivesLast definition changes after) : Ends definition changes (after, .ok true)
  | refused {c : Spelling × Value} {rest : Members} {after : Definition} {e : Failure}
    (hfirst : untaken definition changes = c :: rest) (hwhole : Definition.whole? c.1 c.2 = none)
    (hafter : GivesLast definition (made definition changes) after) :
    Ends definition changes (after, .error e)
  | replaced {c : Spelling × Value} {rest m : Members}
    (hfirst : untaken definition changes = c :: rest)
    (hwhole : Definition.whole? c.1 c.2 = some m) :
    Ends definition changes (change (.ofFields m) rest)

variable {d : Dictionary} {key : Spelling} {changes : Members}
  {stored definition after : Definition}

/-- The first change is made if its name takes a value, and then those after it. -/
theorem made_cons (definition : Definition) (name : Spelling) (value : Value)
    (changes : Members) : made definition ((name, value) :: changes) =
      if definition.answersTo name then (name, value) :: made definition changes else [] := by
  unfold made
  rw [List.takeWhile_cons]

/-- If the name of the first change takes a value, the others are left. -/
theorem untaken_cons (definition : Definition) (name : Spelling) (value : Value)
    (changes : Members) : untaken definition ((name, value) :: changes) =
      if definition.answersTo name then untaken definition changes
      else (name, value) :: changes := by
  unfold untaken
  rw [List.dropWhile_cons]

/-- No change is left if all their names take values. -/
theorem untaken_eq_nil_iff :
    untaken definition changes = [] ↔ ∀ c ∈ changes, definition.answersTo c.1 = true :=
  List.dropWhile_eq_nil_iff

/-- The first of the changes that are not made is to a name that takes no value. -/
theorem of_untaken {c : Spelling × Value} {rest : Members}
    (h : untaken definition changes = c :: rest) :
    c ∈ changes ∧ definition.answersTo c.1 = false := by
  have hhead : (untaken definition changes).head? = some c := by rw [h, List.head?_cons]
  unfold untaken at h hhead
  refine ⟨(List.dropWhile_sublist _).subset (h ▸ List.mem_cons_self), ?_⟩
  simpa [hhead] using List.head?_dropWhile_not (fun c => definition.answersTo c.1) changes

/-- A field that is lacking is given no value. -/
theorem last?_made_of_lacks {field : Spelling} {value : Value}
    (hlacks : definition.lacks field.shown = true)
    (hfield : definition.allFields.get? field = some value) (changes : Members) :
    (made definition changes).last? field = none := by
  refine Members.last?_eq_none fun c hc heq => ?_
  have hanswers := List.mem_takeWhile_imp hc
  rw [heq, Definition.answersTo_of_lacks hlacks hfield] at hanswers
  cases hanswers

/-- One change more before the others. -/
theorem GivesLast.cons {changed : Definition} {name : Spelling} {value : Value}
    (hnames : changed.names = definition.names)
    (hchanged : ∀ field, changed.allFields.get? field =
      if field = name then (definition.allFields.get? field).map fun _ => value
      else definition.allFields.get? field)
    (h : GivesLast changed changes after) :
    GivesLast definition ((name, value) :: changes) after := by
  refine ⟨h.names.trans hnames, fun field => ?_⟩
  rw [h.allFields, hchanged]
  simp only [Members.last?_cons]
  split
  · rw [Option.map_map]
    refine congrArg (Option.map · _) (funext fun old => ?_)
    cases changes.last? field <;> rfl
  · rw [Option.or_none]

/-- What is there has the value that it is given last. -/
theorem GivesLast.fields (h : GivesLast definition changes after) (field : Spelling) :
    after.fields.get? field =
      (definition.fields.get? field).map fun value => (changes.last? field).getD value := by
  have hlacks : after.lacks field.shown = definition.lacks field.shown := by
    unfold Definition.lacks
    rw [h.names]
  rw [Definition.get?_fields, Definition.get?_fields, hlacks, h.allFields]
  split <;> rfl

/-- What changes do to a definition. -/
theorem ends_change (definition : Definition) (changes : Members) :
    Ends definition changes (change definition changes) := by
  -- The rest of the changes works on the definition that the first one leaves, which answers to the
  -- same names unless its fields were replaced.
  induction changes generalizing definition with
  | nil => exact .all rfl ⟨rfl, fun _ => Option.map_id'.symm⟩
  | cons c changes ih =>
    obtain ⟨name, value⟩ := c
    have hmade := made_cons definition name value changes
    have huntaken := untaken_cons definition name value changes
    unfold change
    cases hanswers : definition.answersTo name with
    | false =>
      rw [hanswers, if_neg Bool.false_ne_true] at hmade huntaken
      cases hwhole : Definition.whole? name value with
      | some m =>
        rw [Definition.give_of_whole? hwhole]
        exact .replaced huntaken hwhole
      | none =>
        rw [Definition.give_eq_error hwhole hanswers]
        refine .refused huntaken hwhole ⟨rfl, fun field => ?_⟩
        rw [hmade]
        exact Option.map_id'.symm
    | true =>
      obtain ⟨changed, hgive, hnames, hchanged⟩ := Definition.exists_give value hanswers
      have hsame := Definition.answersTo_congr hnames
      rw [hanswers, if_pos rfl] at hmade huntaken
      have hlater : untaken changed changes = untaken definition changes := by
        unfold untaken
        rw [hsame]
      rw [hgive]
      dsimp only
      have hends := ih changed
      generalize change changed changes = result at hends ⊢
      cases hends with
      | all hnone hafter =>
        exact .all ((huntaken.trans hlater.symm).trans hnone) (hafter.cons hnames hchanged)
      | refused hfirst hwhole hafter =>
        refine .refused ((huntaken.trans hlater.symm).trans hfirst) hwhole ?_
        rw [hmade]
        refine GivesLast.cons hnames hchanged ?_
        unfold made at hafter ⊢
        rw [← hsame]
        exact hafter
      | replaced hfirst hwhole =>
        exact .replaced ((huntaken.trans hlater.symm).trans hfirst) hwhole

/-- What is stored under a key is replaced where it stands. -/
theorem replace_eq {before after : List (Spelling × Definition)} (new : Definition)
    (hbefore : ∀ e ∈ before, e.1 ≠ key) :
    replace key new (before ++ (key, stored) :: after) = before ++ (key, new) :: after := by
  induction before with
  | nil => exact if_pos rfl
  | cons e before ih =>
    have hrest := ih fun e he => hbefore e (List.mem_cons_of_mem _ he)
    exact (if_neg (hbefore e List.mem_cons_self)).trans (congrArg _ hrest)

/-- A change works on the one definition that is stored under its key. -/
theorem update_of_get? (h : d.get? key = some stored) (changes : Members) :
    ∃ before after, d.entries = before ++ (key, stored) :: after ∧
      (∀ e ∈ before, e.1 ≠ key) ∧
      d.update key changes = (⟨before ++ (key, (change stored changes).1) :: after⟩,
        (change stored changes).2) := by
  obtain ⟨before, after, hentries, hbefore⟩ := List.lookup_eq_some_iff.mp h
  have hne : ∀ e ∈ before, e.1 ≠ key := fun e he heq => by simpa [heq] using hbefore e he
  refine ⟨before, after, hentries, hne, ?_⟩
  unfold update
  rw [h]
  simp only [hentries, replace_eq _ hne]

/-- Changes leave a definition as it is if no field is given another value. -/
theorem GivesLast.eq_self_iff (h : GivesLast stored (made stored changes) after) :
    after = stored ↔ ∀ field value, stored.fields.get? field = some value →
      ((made stored changes).last? field).getD value = value := by
  constructor
  · rintro rfl field value hvalue
    have hfield := h.fields field
    rw [hvalue] at hfield
    exact (Option.some.inj hfield).symm
  · intro hidle
    refine Definition.eq_of_get?_allFields h.names fun field => ?_
    rw [h.allFields]
    cases hvalue : stored.allFields.get? field with
    | none => rfl
    | some value =>
      refine congrArg some ?_
      cases hlacks : stored.lacks field.shown with
      | true => exact congrArg (·.getD value) (last?_made_of_lacks hlacks hvalue changes)
      | false =>
        refine hidle field value ?_
        rw [Definition.get?_fields, hlacks, if_neg Bool.false_ne_true, hvalue]

/-- A change leaves a dictionary as it is if it leaves the definition as it is. -/
theorem update_eq_self_iff (h : d.get? key = some stored) (changes : Members) :
    (d.update key changes).1 = d ↔ (change stored changes).1 = stored := by
  obtain ⟨before, after, hentries, -, hupdate⟩ := update_of_get? h changes
  obtain ⟨entries⟩ := d
  rw [hupdate, Dictionary.mk.injEq, show entries = _ from hentries]
  simp

/-- Where nothing is stored the answer is that there is nothing. -/
theorem update_of_get?_eq_none (h : d.get? key = none) (changes : Members) :
    d.update key changes = (d, .ok false) := by
  unfold update
  rw [h]

/-- Where nothing is stored, nothing is changed. -/
theorem isAtomic_of_get?_eq_none (h : d.get? key = none) : d.IsAtomic key changes := by
  have hupdate := update_of_get?_eq_none h changes
  constructor <;> simp [hupdate, h]

/-- A change whose names all take values is made as a whole. -/
theorem isAtomic_of_untaken (h : d.get? key = some stored) (hnone : untaken stored changes = [])
    (hchange : change stored changes = (after, .ok true))
    (hafter : GivesLast stored changes after) : d.IsAtomic key changes := by
  obtain ⟨before, rest, hentries, hbefore, hupdate⟩ := update_of_get? h changes
  rw [hchange] at hupdate
  have htakes := untaken_eq_nil_iff.mp hnone
  constructor
  case renewed =>
    exact fun _ => ⟨before, stored, after, rest, hentries, congrArg (·.1.entries) hupdate, hbefore,
      hafter.fields⟩
  case fails_iff =>
    refine iff_of_false (fun ⟨e, he⟩ => by simp [hupdate] at he) ?_
    rintro ⟨definition, hdefinition, c, hc, hrefused⟩
    obtain rfl := Option.some.inj (h.symm.trans hdefinition)
    rw [htakes c hc] at hrefused
    cases hrefused
  all_goals simp [hupdate]

/-- A change that fails after it came to a name that takes no value is made as a whole or not at
all exactly if it leaves the definition as it was. -/
theorem isAtomic_iff_of_error {c : Spelling × Value} {rest : Members} {e : Failure}
    (h : d.get? key = some stored) (hfirst : untaken stored changes = c :: rest)
    (hchange : change stored changes = (after, .error e)) :
    d.IsAtomic key changes ↔ after = stored := by
  obtain ⟨before, later, -, -, hupdate⟩ := update_of_get? h changes
  have hself := update_eq_self_iff h changes
  have hfails : (d.update key changes).2 = .error e := by rw [hupdate, hchange]
  rw [hchange] at hself
  rw [← hself]
  constructor
  · exact fun hatomic => hatomic.failed e hfails
  · intro hsame
    have hrefused : ∃ stored, d.get? key = some stored ∧
        ∃ c ∈ changes, stored.answersTo c.1 = false := ⟨stored, h, c, of_untaken hfirst⟩
    refine ⟨iff_of_true ⟨e, hfails⟩ hrefused, fun _ _ => hsame, ?_, ?_⟩
    all_goals simp [hfails]

/-- A change of a definition is made as a whole or not at all, unless it comes to a name that takes
no value after a field was given a value that it did not have. Where an object takes the place of
the fields at that name, the rest has to fail and to leave the definition with what it had. -/
theorem isAtomic_iff : d.IsAtomic key changes ↔
    ∀ stored, d.get? key = some stored → ∀ c rest, untaken stored changes = c :: rest →
      (Definition.whole? c.1 c.2 = none → ∀ field value, stored.fields.get? field = some value →
        ((made stored changes).last? field).getD value = value) ∧
      ∀ m, Definition.whole? c.1 c.2 = some m →
        ∃ e, change (.ofFields m) rest = (stored, .error e) := by
  cases hstored : d.get? key with
  | none => exact iff_of_true (isAtomic_of_get?_eq_none hstored) nofun
  | some stored =>
    simp only [Option.some.injEq, forall_eq']
    have hends := ends_change stored changes
    rcases hchange : change stored changes with ⟨after, answer⟩
    rw [hchange] at hends
    generalize hresult : (after, answer) = result at hends
    cases hends with
    | all hnone hafter =>
      obtain ⟨rfl, rfl⟩ := Prod.mk.inj hresult
      refine iff_of_true (isAtomic_of_untaken hstored hnone hchange hafter) ?_
      rw [hnone]
      exact nofun
    | @refused c rest _ e hfirst hwhole hafter =>
      obtain ⟨rfl, rfl⟩ := Prod.mk.inj hresult
      rw [isAtomic_iff_of_error hstored hfirst hchange, hafter.eq_self_iff]
      simp [hfirst, hwhole]
    | @replaced c rest m hfirst hwhole =>
      have hiff : d.IsAtomic key changes ↔ ∃ e, (after, answer) = (stored, .error e) := by
        constructor
        · -- It came to a name that takes no value, so it must have failed after all.
          intro hatomic
          obtain ⟨e, hfails⟩ := hatomic.fails_iff.mpr ⟨stored, hstored, c, of_untaken hfirst⟩
          obtain ⟨_, _, -, -, hupdate⟩ := update_of_get? hstored changes
          rw [hupdate, hchange] at hfails
          rw [show answer = .error e from hfails] at hchange ⊢
          exact ⟨e, congrArg (·, _) ((isAtomic_iff_of_error hstored hfirst hchange).mp hatomic)⟩
        · rintro ⟨e, heq⟩
          obtain ⟨hsame, rfl⟩ := Prod.mk.inj heq
          exact (isAtomic_iff_of_error hstored hfirst hchange).mpr hsame
      rw [hiff, hresult]
      simp [hfirst, hwhole]

/-- Changes are not all made as a whole or not at all: the description is given before the name that
is no field is refused. -/
theorem not_forall_isAtomic : ¬∀ {custom : List Definition} {d : Dictionary} (edits : List Edit)
    (key : Spelling) (changes : Members), ofDefinitions custom = .ok d →
      (d.edited edits).IsAtomic key changes := by
  intro hatomic
  let changes : Members := [("description", .text "Four pixels"), ("nope", .int 1)]
  have hfails : (standard.update "space-4" changes).2 = .error (.noField "nope") := rfl
  have hsame : (standard.update "space-4" changes).1 = standard :=
    (@hatomic [] standard [] "space-4" changes rfl).failed _ hfails
  have hbefore : standard.get? "space-4" =
      some (.basic "space-4" "foundation" "spacing" "Base Spacing" "4px spacing unit") := rfl
  have hafter : (standard.update "space-4" changes).1.get? "space-4" =
      some (.basic "space-4" "foundation" "spacing" "Base Spacing" "Four pixels") := rfl
  rw [hsame, hbefore] at hafter
  exact absurd (Value.text.inj (congrArg Definition.description (Option.some.inj hafter)))
    (by decide)

end Dictionary

end DesignTokens

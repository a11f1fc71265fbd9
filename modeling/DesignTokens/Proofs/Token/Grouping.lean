import DesignTokens.Proofs.Token.Place
import Mathlib.Data.List.Sort

/-!
# Occurrences divided among usages

The usages of a file divide what the formats find there: an occurrence is in the usage of its name
and format and in no other one, and usages and occurrences are in the order of the content. This
leaves no choice: only one list of usages divides the occurrences so.
-/

namespace DesignTokens

open Pattern

namespace Usage

/-- One usage is first seen before another. -/
def Before (u v : Usage) : Prop :=
  ∃ o ∈ u.occurrences.head?, ∃ o' ∈ v.occurrences.head?, o.Before o'

instance : Std.Irrefl Usage.Before := ⟨fun _ ⟨o, ho, _, ho', h⟩ =>
  irrefl o (Option.mem_unique ho' ho ▸ h)⟩

instance : Std.Antisymm Usage.Before := ⟨fun u v ⟨o, ho, o', ho', h⟩ ⟨p, hp, p', hp', h'⟩ => by
  obtain rfl := Option.mem_unique ho hp'
  obtain rfl := Option.mem_unique ho' hp
  exact absurd (antisymm h h') (ne_of_irrefl h)⟩

end Usage

namespace TokenFormat

/-- An occurrence refers to a token by a name: a match with its text gives this name. -/
def Names (f : TokenFormat) (content : String) (o : Occurrence) (name : String) : Prop :=
  ∃ m ∈ f.pattern.matchesAt (textAt content (o.line - 1) (o.column - 1)),
    String.ofList m.text = o.matchedText ∧ String.ofList m.tokenName = name

/-- A usage has a part of what a format finds in a content, all of it under the name of the
usage. -/
structure HasPart (f : TokenFormat) (content path : String) (contextLength : Int)
    (categorizer : Option Categorizer) (u : Usage) : Prop where
  tokenType : u.tokenType = f.name
  files : u.files = [path]
  category : categoryFor categorizer path u.tokenName = .ok u.category
  ne_nil : u.occurrences ≠ []
  totalCount : u.totalCount = u.occurrences.length
  named : ∀ o ∈ u.occurrences, f.Names content o u.tokenName
  /-- The occurrences are in the order in which they are found. -/
  ordered : u.occurrences.Sublist (f.occurrences content path contextLength)

/-- Usages share out what one format finds in a content. -/
structure SharesOut (f : TokenFormat) (content path : String) (contextLength : Int)
    (categorizer : Option Categorizer) (us : List Usage) : Prop where
  parts : ∀ u ∈ us, f.HasPart content path contextLength categorizer u
  distinct : (us.map (·.tokenName)).Nodup
  /-- Together the usages have what the format finds. -/
  whole : (us.flatMap (·.occurrences)).Perm (f.occurrences content path contextLength)
  /-- Each occurrence is in exactly one usage. -/
  once : ∀ o ∈ f.occurrences content path contextLength, ∃! u, u ∈ us ∧ o ∈ u.occurrences
  /-- The usages are in the order of their first occurrences. -/
  firsts : (us.filterMap (·.occurrences.head?)).Sublist
    (f.occurrences content path contextLength)

variable {f : TokenFormat} {content path : String} {contextLength : Int}
  {categorizer : Option Categorizer} {us us' : List Usage} {u v : Usage}

/-- An occurrence has one name. -/
theorem Names.unique {o : Occurrence} {name name' : String} (h : f.Names content o name)
    (h' : f.Names content o name') : name = name' := by
  obtain ⟨m, hm, htext, rfl⟩ := h
  obtain ⟨m', hm', htext', rfl⟩ := h'
  rw [eq_of_mem_matchesAt hm hm' (String.ofList_injective (htext.trans htext'.symm))]

/-- An occurrence is noted with its name. -/
theorem names_of_mem_matchesIn {x : String × Occurrence}
    (hx : x ∈ f.matchesIn content path contextLength) : f.Names content x.2 x.1 := by
  obtain ⟨line, l, m, hline, hm, rfl⟩ := mem_matchesIn.mp hx
  obtain ⟨i, hstart, hfound⟩ := exists_of_mem_findFrom hm
  obtain rfl : m.start = i := hstart.trans (Nat.zero_add i)
  refine ⟨m.found, ?_, rfl, rfl⟩
  change m.found ∈ f.pattern.matchesAt (textAt content line m.start)
  rwa [textAt_of_line hline]

/-- A usage of a format has the part of what it finds under one name. -/
theorem hasPart_of_mem_usages (h : f.usages content path contextLength categorizer = .ok us)
    (hu : u ∈ us) : f.HasPart content path contextLength categorizer u := by
  obtain ⟨g, hg, category, hcategory, rfl⟩ := exists_of_mem_forall₂ (usages_eq_ok_iff.mp h) hu
  obtain ⟨hne, hgroup⟩ := of_mem_groupByKey hg
  have hnamed : ∀ o ∈ g.2.map (·.2), f.Names content o g.1 := by
    intro o ho
    obtain ⟨x, hx, rfl⟩ := List.mem_map.mp ho
    obtain ⟨hname, hx⟩ := hgroup x hx
    exact hname ▸ names_of_mem_matchesIn hx
  refine ⟨rfl, rfl, hcategory, by simpa [usageOf] using hne, by simp [usageOf], hnamed, ?_⟩
  obtain ⟨name, -, rfl⟩ := List.mem_map.mp hg
  exact List.filter_sublist.map _

/-- The usages of a format are in the order of their first occurrences. -/
theorem sublist_head?_usages (h : f.usages content path contextLength categorizer = .ok us) :
    (us.filterMap (·.occurrences.head?)).Sublist (f.occurrences content path contextLength) := by
  have hheads : us.filterMap (·.occurrences.head?) =
      ((groupByKey (·.1) (f.matchesIn content path contextLength)).filterMap (·.2.head?)).map
        (·.2) := by
    rw [List.map_filterMap]
    refine filterMap_eq_of_forall₂ (usages_eq_ok_iff.mp h) ?_
    rintro g u ⟨category, -, rfl⟩
    exact List.head?_map
  rw [hheads]
  exact (sublist_head?_groupByKey _ _).map _

/-- The usages of a format share out what it finds. -/
theorem sharesOut_of_usages (h : f.usages content path contextLength categorizer = .ok us) :
    f.SharesOut content path contextLength categorizer us := by
  have hwhole := (of_usages h).2
  have hdistinct := nodup_tokenName_usages h
  have hparts : ∀ u ∈ us, f.HasPart content path contextLength categorizer u :=
    fun u hu => hasPart_of_mem_usages h hu
  refine ⟨hparts, hdistinct, hwhole, fun o ho => ?_, sublist_head?_usages h⟩
  obtain ⟨u, hu, hou⟩ := List.mem_flatMap.mp (hwhole.mem_iff.mpr ho)
  refine ⟨u, ⟨hu, hou⟩, fun v ⟨hv, hov⟩ => ?_⟩
  exact List.inj_on_of_nodup_map hdistinct hv hu
    (((hparts v hv).named o hov).unique ((hparts u hu).named o hou))

namespace SharesOut

/-- A usage has all that is noted under its name. -/
theorem occurrences_eq (h : f.SharesOut content path contextLength categorizer us) (hu : u ∈ us) :
    u.occurrences = ((f.matchesIn content path contextLength).filter
      fun x => x.1 == u.tokenName).map (·.2) := by
  have hfound := pairwise_occurrences f content path contextLength
  refine (hfound.sublist (h.parts u hu).ordered).eq_of_mem_iff
    (hfound.sublist (List.filter_sublist.map _)) fun o => ?_
  constructor
  · intro ho
    obtain ⟨x, hx, rfl⟩ := List.mem_map.mp ((h.parts u hu).ordered.mem ho)
    have hname := (names_of_mem_matchesIn hx).unique ((h.parts u hu).named x.2 ho)
    exact List.mem_map_of_mem (List.mem_filter.mpr ⟨hx, beq_iff_eq.mpr hname⟩)
  · intro ho
    obtain ⟨x, hx, rfl⟩ := List.mem_map.mp ho
    obtain ⟨hx, hname⟩ := List.mem_filter.mp hx
    obtain ⟨v, ⟨hv, hov⟩, -⟩ := h.once x.2 (List.mem_map_of_mem hx)
    have hvname := ((h.parts v hv).named x.2 hov).unique (names_of_mem_matchesIn hx)
    rwa [List.inj_on_of_nodup_map h.distinct hv hu (hvname.trans (beq_iff_eq.mp hname))] at hov

/-- Its name decides a usage. -/
theorem eq_of_tokenName (h : f.SharesOut content path contextLength categorizer us)
    (h' : f.SharesOut content path contextLength categorizer us') (hu : u ∈ us) (hv : v ∈ us')
    (hname : u.tokenName = v.tokenName) : u = v := by
  have hoccurrences := h.occurrences_eq hu
  rw [hname, ← h'.occurrences_eq hv] at hoccurrences
  have hpart := h.parts u hu
  have hpart' := h'.parts v hv
  have htype := hpart.tokenType.trans hpart'.tokenType.symm
  have hfiles := hpart.files.trans hpart'.files.symm
  have hcount := hpart.totalCount
  rw [hoccurrences, ← hpart'.totalCount] at hcount
  have hcategory := hpart.category
  rw [hname, hpart'.category] at hcategory
  cases u
  cases v
  simp_all

/-- Two ways to share out occurrences have the same usages. -/
theorem mem (h : f.SharesOut content path contextLength categorizer us)
    (h' : f.SharesOut content path contextLength categorizer us') (hu : u ∈ us) : u ∈ us' := by
  obtain ⟨o, ho⟩ := List.exists_mem_of_ne_nil _ (h.parts u hu).ne_nil
  obtain ⟨v, ⟨hv, hov⟩, -⟩ := h'.once o ((h.parts u hu).ordered.mem ho)
  have hname := ((h.parts u hu).named o ho).unique ((h'.parts v hv).named o hov)
  rwa [h.eq_of_tokenName h' hu hv hname]

/-- The usages are in the order of their first occurrences. -/
theorem pairwise_before (h : f.SharesOut content path contextLength categorizer us) :
    us.Pairwise Usage.Before := by
  have hfirsts := (pairwise_occurrences f content path contextLength).sublist h.firsts
  refine (List.pairwise_filterMap.mp hfirsts).imp_of_mem fun {u v} hu hv hbefore => ?_
  obtain ⟨o, ho⟩ := Option.isSome_iff_exists.mp (List.isSome_head?.mpr (h.parts u hu).ne_nil)
  obtain ⟨o', ho'⟩ := Option.isSome_iff_exists.mp (List.isSome_head?.mpr (h.parts v hv).ne_nil)
  exact ⟨o, ho, o', ho', hbefore o ho o' ho'⟩

/-- Only one list of usages shares out what a format finds. -/
theorem unique (h : f.SharesOut content path contextLength categorizer us)
    (h' : f.SharesOut content path contextLength categorizer us') : us = us' :=
  h.pairwise_before.eq_of_mem_iff h'.pairwise_before fun _ => ⟨h.mem h', h'.mem h⟩

end SharesOut

theorem usages_eq_ok_iff_sharesOut : f.usages content path contextLength categorizer = .ok us ↔
    f.SharesOut content path contextLength categorizer us := by
  refine ⟨sharesOut_of_usages, fun h => ?_⟩
  -- Every name is that of a usage, so the categorizer has judged it.
  have hjudged : ∃ us', f.usages content path contextLength categorizer = .ok us' := by
    refine exists_usages_iff.mpr fun x hx => ?_
    obtain ⟨u, ⟨hu, ho⟩, -⟩ := h.once x.2 (List.mem_map_of_mem hx)
    rw [← exists_categoryFor_iff, (names_of_mem_matchesIn hx).unique ((h.parts u hu).named x.2 ho)]
    exact ⟨u.category, (h.parts u hu).category⟩
  obtain ⟨us', hus'⟩ := hjudged
  rwa [h.unique (sharesOut_of_usages hus')]

end TokenFormat

namespace Usage

variable {formats : List TokenFormat} {content path : String} {contextLength : Int}
  {categorizer : Option Categorizer} {us : List Usage}

/-- Usages share out what the formats find in a file. -/
structure IsDivision (formats : List TokenFormat) (content path : String) (contextLength : Int)
    (categorizer : Option Categorizer) (us : List Usage) : Prop where
  /-- What an applying format finds is shared out among the usages of its name. -/
  shares : ∀ f ∈ formats, f.appliesTo path = true →
    f.SharesOut content path contextLength categorizer (ofFormat us f)
  /-- A format that does not apply has no usage. -/
  silent : ∀ f ∈ formats, f.appliesTo path = false → ofFormat us f = []
  /-- The usages come from the formats, one format after another. -/
  inTurn : us = formats.flatMap (ofFormat us)
  distinct : (us.map key).Nodup

/-- Usages of formats with different names are told apart if those of each format are. -/
theorem nodup_key (hnames : (formats.map (·.name)).Nodup)
    (hdistinct : ∀ f ∈ formats, ((ofFormat us f).map (·.tokenName)).Nodup)
    (hturn : us = formats.flatMap (ofFormat us)) : (us.map key).Nodup := by
  have hkeys : us.map key = formats.flatMap fun f => (ofFormat us f).map key := by
    rw [← List.map_flatMap, ← hturn]
  rw [hkeys, List.nodup_flatMap]
  constructor
  · intro f hf
    refine List.Nodup.of_map Prod.fst ?_
    rw [List.map_map]
    exact hdistinct f hf
  · refine (List.pairwise_map.mp hnames).imp fun {f f'} hne k hk hk' => hne ?_
    obtain ⟨u, hu, rfl⟩ := List.mem_map.mp hk
    obtain ⟨v, hv, hsame⟩ := List.mem_map.mp hk'
    exact (mem_ofFormat.mp hu).2.symm.trans
      ((congrArg Prod.snd hsame).symm.trans (mem_ofFormat.mp hv).2)

/-- With names that tell the formats apart, the usages of a file divide the occurrences of the
formats that apply to it, and nothing else does; there are such usages exactly if the categorizer
judges the names that are found. -/
theorem inFile_eq_ok_iff_isDivision (hnames : (formats.map (·.name)).Nodup) :
    (∀ us, inFile formats content path contextLength categorizer = .ok us ↔
        IsDivision formats content path contextLength categorizer us) ∧
      ((∃ us, inFile formats content path contextLength categorizer = .ok us) ↔
        ∀ f ∈ formats, f.appliesTo path = true → ∀ x ∈ f.matchesIn content path contextLength,
          ∀ c ∈ categorizer, ∃ category, c.categorize x.1 (some path) = .ok category) := by
  refine ⟨fun us => ?_, exists_inFile_iff⟩
  rw [inFile_eq_ok_iff hnames]
  simp only [TokenFormat.usages_eq_ok_iff_sharesOut]
  constructor
  · rintro ⟨hshares, hturn⟩
    have hknown : ∀ u ∈ us, ∃ f ∈ formats, f.appliesTo path = true ∧ u ∈ ofFormat us f := by
      intro u hu
      rw [hturn] at hu
      obtain ⟨f, hf, hu⟩ := List.mem_flatMap.mp hu
      exact ⟨f, (List.mem_filter.mp hf).1, (List.mem_filter.mp hf).2, hu⟩
    have hsilent : ∀ f ∈ formats, f.appliesTo path = false → ofFormat us f = [] := by
      intro f hf hout
      refine List.eq_nil_iff_forall_not_mem.mpr fun u hu => ?_
      obtain ⟨hmem, htype⟩ := mem_ofFormat.mp hu
      obtain ⟨f', hf', happlies, hu'⟩ := hknown u hmem
      have hsame := List.inj_on_of_nodup_map hnames hf hf'
        (htype.symm.trans (mem_ofFormat.mp hu').2)
      rw [hsame, happlies] at hout
      cases hout
    have hall := hturn.trans (flatMap_filter_congr (fun _ _ _ => rfl) hsilent)
    refine ⟨hshares, hsilent, hall, nodup_key hnames (fun f hf => ?_) hall⟩
    cases happlies : f.appliesTo path with
    | true => exact (hshares f hf happlies).distinct
    | false =>
      rw [hsilent f hf happlies]
      exact List.nodup_nil
  · intro h
    exact ⟨h.shares, h.inTurn.trans (flatMap_filter_congr (fun _ _ _ => rfl) h.silent).symm⟩

theorem isDivision_twoFormats : (TokenFormat.general.map (·.name)).Nodup ∧
    IsDivision TokenFormat.general "$b var(--x)\n$a $b" "a.scss" 3 none
      [⟨"x", "css-variables", [⟨"a.scss", 1, 4, "$b var", "var(--x)", "css-variables"⟩], 1,
          ["a.scss"], none⟩,
        ⟨"b", "scss-variables", [⟨"a.scss", 1, 1, "$b ", "$b", "scss-variables"⟩,
          ⟨"a.scss", 2, 4, "$a $b", "$b", "scss-variables"⟩], 2, ["a.scss"], none⟩,
        ⟨"a", "scss-variables", [⟨"a.scss", 2, 1, "$a ", "$a", "scss-variables"⟩], 1, ["a.scss"],
          none⟩] := by
  have hnames : (TokenFormat.general.map (·.name)).Nodup := by decide
  exact ⟨hnames, ((inFile_eq_ok_iff_isDivision hnames).1 _).mp (by rfl)⟩

/-- The usages of a format count names: each name has one usage, with the number of times that it is
there. -/
structure Counts (us : List Usage) (f : TokenFormat) (names : List String) : Prop where
  distinct : ((ofFormat us f).map (·.tokenName)).Nodup
  mem_iff : ∀ name, name ∈ (ofFormat us f).map (·.tokenName) ↔ name ∈ names
  total : ∀ u ∈ ofFormat us f, u.totalCount = names.count u.tokenName

/-- The usages of an applying format in a file count the names that it finds there. -/
theorem counts_of_inFile {f : TokenFormat} (hnames : (formats.map (·.name)).Nodup)
    (hf : f ∈ formats) (happlies : f.appliesTo path = true)
    (h : inFile formats content path contextLength categorizer = .ok us) :
    Counts us f ((f.matchesIn content path contextLength).map (·.1)) := by
  have husages := ((inFile_eq_ok_iff hnames).mp h).1 f hf happlies
  have hshares := TokenFormat.sharesOut_of_usages husages
  refine ⟨hshares.distinct, fun name => ?_, fun u hu => ?_⟩
  · simp only [List.mem_map]
    constructor
    · rintro ⟨u, hu, rfl⟩
      obtain ⟨o, ho⟩ := List.exists_mem_of_ne_nil _ (hshares.parts u hu).ne_nil
      rw [hshares.occurrences_eq hu] at ho
      obtain ⟨x, hx, -⟩ := List.mem_map.mp ho
      exact ⟨x, (List.mem_filter.mp hx).1, beq_iff_eq.mp (List.mem_filter.mp hx).2⟩
    · rintro ⟨x, hx, rfl⟩
      exact TokenFormat.exists_mem_usages husages hx
  · rw [(hshares.parts u hu).totalCount, hshares.occurrences_eq hu, List.length_map,
      ← List.countP_eq_length_filter, List.count, List.countP_map]
    rfl

end Usage

end DesignTokens

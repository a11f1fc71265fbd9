import DesignTokens.Proofs.Diff.Account
import DesignTokens.Proofs.Lists
import Mathlib.Data.Finset.Card
import Mathlib.Data.Finset.Lattice.Fold
import Mathlib.Logic.Equiv.Basic

/-!
# The best choice of pairs

A removed definition takes the first added definition of its name that is free and in reach, and
no choice is taken back. Still no other choice of pairs has more of them. Where another choice
differs, it is changed at one removed line after another without losing a pair: a pair that is
taken too late is exchanged for the first one, and pairs that cross are uncrossed, which stays in
reach since every removed line has the same reach. So the number of pairs is the greatest there is,
and it can only grow with the reach.
-/

namespace DesignTokens

section Matching

/-- A choice of allowed pairs in which nothing belongs to two of them. -/
structure IsMatching (allowed : Nat × Nat → Prop) (pairs : Finset (Nat × Nat)) : Prop where
  isAllowed : ∀ p ∈ pairs, allowed p
  left : ∀ p ∈ pairs, ∀ q ∈ pairs, p.1 = q.1 → p = q
  right : ∀ p ∈ pairs, ∀ q ∈ pairs, p.2 = q.2 → p = q

/-- Of two pairs that cross the one from the later left to the later right is allowed as well. -/
def Uncrosses (allowed : Nat × Nat → Prop) : Prop :=
  ∀ i i' j j', i < i' → j < j' → allowed (i, j) → allowed (i, j') → allowed (i', j) →
    allowed (i', j')

/-- A choice in which the first takes the first: an allowed pair is left out only for a pair with
the same left that ends no later, or for one with the same right that begins before it. -/
structure IsGreedy (allowed : Nat × Nat → Prop) (pairs : Finset (Nat × Nat)) : Prop
    extends IsMatching allowed pairs where
  first : ∀ p, allowed p → ∃ q ∈ pairs, q.1 = p.1 ∧ q.2 ≤ p.2 ∨ q.1 < p.1 ∧ q.2 = p.2

variable {allowed allowed' : Nat × Nat → Prop} {pairs pairs' greedy others : Finset (Nat × Nat)}
  {p q r : Nat × Nat} {j j' : Nat}

/-- A matching stays one when more pairs are allowed. -/
theorem IsMatching.mono (h : IsMatching allowed pairs) (himp : ∀ p, allowed p → allowed' p) :
    IsMatching allowed' pairs :=
  ⟨fun p hp => himp p (h.isAllowed p hp), h.left, h.right⟩

/-- A part of a matching is a matching. -/
theorem IsMatching.subset (h : IsMatching allowed pairs) (hsub : pairs' ⊆ pairs) :
    IsMatching allowed pairs' where
  isAllowed p hp := h.isAllowed p (hsub hp)
  left p hp q hq heq := h.left p (hsub hp) q (hsub hq) heq
  right p hp q hq heq := h.right p (hsub hp) q (hsub hq) heq

/-- An allowed pair is added if neither of its sides belongs to a pair. -/
theorem IsMatching.insert (h : IsMatching allowed pairs) (hp : allowed p)
    (hleft : ∀ r ∈ pairs, r.1 ≠ p.1) (hright : ∀ r ∈ pairs, r.2 ≠ p.2) :
    IsMatching allowed (insert p pairs) where
  isAllowed := by
    intro r hr
    rw [Finset.mem_insert] at hr
    rcases hr with rfl | hr
    · exact hp
    · exact h.isAllowed r hr
  left := by
    intro r hr s hs heq
    rw [Finset.mem_insert] at hr hs
    rcases hr with rfl | hr <;> rcases hs with rfl | hs
    · rfl
    · exact absurd heq.symm (hleft s hs)
    · exact absurd heq (hleft r hr)
    · exact h.left r hr s hs heq
  right := by
    intro r hr s hs heq
    rw [Finset.mem_insert] at hr hs
    rcases hr with rfl | hr <;> rcases hs with rfl | hs
    · rfl
    · exact absurd heq.symm (hright s hs)
    · exact absurd heq (hright r hr)
    · exact h.right r hr s hs heq

/-- The pairs with two of the rights in each other's place. -/
def exchanged (j j' : Nat) (pairs : Finset (Nat × Nat)) : Finset (Nat × Nat) :=
  pairs.map ((Equiv.refl Nat).prodCongr (Equiv.swap j j')).toEmbedding

/-- A pair is there after the exchange if its counterpart was there before. -/
@[simp] theorem mem_exchanged :
    r ∈ exchanged j j' pairs ↔ (r.1, Equiv.swap j j' r.2) ∈ pairs := Finset.mem_map_equiv

/-- An exchange keeps the number of pairs. -/
@[simp] theorem card_exchanged : (exchanged j j' pairs).card = pairs.card := Finset.card_map _

/-- After an exchange into allowed pairs a matching is still one. -/
theorem IsMatching.exchanged (h : IsMatching allowed pairs)
    (hallowed : ∀ r ∈ exchanged j j' pairs, allowed r) :
    IsMatching allowed (exchanged j j' pairs) := by
  refine ⟨hallowed, fun r hr s hs heq => ?_, fun r hr s hs heq => ?_⟩
  · rw [mem_exchanged] at hr hs
    have hsame := (Prod.mk.inj (h.left _ hr _ hs heq)).2
    exact Prod.ext heq ((Equiv.swap j j').injective hsame)
  · rw [mem_exchanged] at hr hs
    have hsame := h.right _ hr _ hs (congrArg (Equiv.swap j j') heq)
    exact Prod.ext (Prod.mk.inj hsame).1 heq

namespace IsGreedy

/-- Where the earlier left could have taken the later one's right, it has taken one before it. -/
theorem lt_of_lt (h : IsGreedy allowed greedy) (hp : p ∈ greedy) (hq : q ∈ greedy)
    (hlt : p.1 < q.1) (hallowed : allowed (p.1, q.2)) : p.2 < q.2 := by
  obtain ⟨r, hr, ⟨hleft, hle⟩ | ⟨hbefore, hright⟩⟩ := h.first _ hallowed
  · obtain rfl := h.left r hr p hp hleft
    refine Nat.lt_of_le_of_ne hle fun heq => ?_
    obtain rfl := h.right r hr q hq heq
    omega
  · obtain rfl := h.right r hr q hq hright
    simp only at hbefore
    omega

/-- Another choice that agrees up to a left takes for it no earlier right. -/
theorem le_of_left (h : IsGreedy allowed greedy) (hothers : IsMatching allowed others)
    (hp : p ∈ greedy) (hbefore : ∀ r ∈ greedy, r.1 < p.1 → r ∈ others) (hq : q ∈ others)
    (hleft : q.1 = p.1) : p.2 ≤ q.2 := by
  obtain ⟨r, hr, ⟨hrleft, hle⟩ | ⟨hlt, hright⟩⟩ := h.first q (hothers.isAllowed q hq)
  · obtain rfl := h.left r hr p hp (hrleft.trans hleft)
    exact hle
  · obtain rfl := hothers.right r (hbefore r hr (by omega)) q hq hright
    omega

/-- Another choice that agrees up to a left gives the right of its pair to no earlier left. -/
theorem lt_of_right (h : IsGreedy allowed greedy) (hothers : IsMatching allowed others)
    (hp : p ∈ greedy) (hbefore : ∀ r ∈ greedy, r.1 < p.1 → r ∈ others) (hq : q ∈ others)
    (hright : q.2 = p.2) (hne : q.1 ≠ p.1) : p.1 < q.1 := by
  obtain ⟨r, hr, ⟨hleft, -⟩ | ⟨hlt, hrright⟩⟩ := h.first q (hothers.isAllowed q hq)
  · by_contra hle
    obtain rfl := hothers.left r (hbefore r hr (by omega)) q hq hleft
    exact hne (congrArg Prod.fst (h.right r hr p hp hright))
  · obtain rfl := h.right r hr p hp (hrright.trans hright)
    exact hlt

/-- A left that another choice leaves alone can be paired there; one pair at most has to go. -/
theorem exists_exchange_of_unpaired (h : IsGreedy allowed greedy)
    (hothers : IsMatching allowed others) (hp : p ∈ greedy)
    (hbefore : ∀ r ∈ greedy, r.1 < p.1 → r ∈ others) (hfree : ∀ r ∈ others, r.1 ≠ p.1) :
    ∃ others', IsMatching allowed others' ∧ others.card ≤ others'.card ∧ p ∈ others' ∧
      ∀ r ∈ greedy, r.1 < p.1 → r ∈ others' := by
  refine ⟨insert p (others.filter fun r => ¬r.2 = p.2), ?_, ?_, Finset.mem_insert_self _ _, ?_⟩
  · refine (hothers.subset (Finset.filter_subset _ _)).insert (h.isAllowed p hp) ?_ ?_
    · exact fun r hr => hfree r (Finset.mem_filter.mp hr).1
    · exact fun r hr => (Finset.mem_filter.mp hr).2
  · have hone : (others.filter fun r => r.2 = p.2).card ≤ 1 := by
      refine Finset.card_le_one.mpr fun r hr s hs => ?_
      obtain ⟨hr, hrp⟩ := Finset.mem_filter.mp hr
      obtain ⟨hs, hsp⟩ := Finset.mem_filter.mp hs
      exact hothers.right r hr s hs (hrp.trans hsp.symm)
    have hnew : p ∉ others.filter fun r => ¬r.2 = p.2 := by simp
    have hsplit := Finset.card_filter_add_card_filter_not (s := others) fun r => r.2 = p.2
    rw [Finset.card_insert_of_notMem hnew]
    omega
  · intro r hr hlt
    refine Finset.mem_insert_of_mem (Finset.mem_filter.mpr ⟨hbefore r hr hlt, fun heq => ?_⟩)
    obtain rfl := h.right r hr p hp heq
    omega

/-- A left that another choice pairs later can be paired as here when the two rights change
places. -/
theorem exists_exchange_of_paired (h : IsGreedy allowed greedy) (huncross : Uncrosses allowed)
    (hothers : IsMatching allowed others) (hp : p ∈ greedy)
    (hbefore : ∀ r ∈ greedy, r.1 < p.1 → r ∈ others) (hq : q ∈ others) (hleft : q.1 = p.1) :
    ∃ others', IsMatching allowed others' ∧ others.card ≤ others'.card ∧ p ∈ others' ∧
      ∀ r ∈ greedy, r.1 < p.1 → r ∈ others' := by
  have hpair : (p.1, q.2) = q := Prod.ext hleft.symm rfl
  refine ⟨exchanged p.2 q.2 others, hothers.exchanged fun r hr => ?_, card_exchanged.ge, ?_,
    fun r hr hlt => ?_⟩
  · rw [mem_exchanged] at hr
    rcases eq_or_ne r.2 p.2 with hrp | hrp
    · -- The left of this pair was paired with the other right, so it is that of `p`.
      rw [hrp, Equiv.swap_apply_left] at hr
      have hrq := congrArg Prod.fst (hothers.right _ hr q hq rfl)
      obtain rfl : r = p := Prod.ext (hrq.trans hleft) hrp
      exact h.isAllowed r hp
    rcases eq_or_ne r.2 q.2 with hrq | hrq
    · -- The right of `p` was given to a later left, which now gets the other right: uncrossing.
      rw [hrq, Equiv.swap_apply_right] at hr
      have hne : r.1 ≠ p.1 := fun heq =>
        hrp (hrq.trans (congrArg Prod.snd (hothers.left _ hr q hq (heq.trans hleft.symm))).symm)
      have hlt := h.lt_of_right hothers hp hbefore hr rfl hne
      have hle := h.le_of_left hothers hp hbefore hq hleft
      have hlater : p.2 < q.2 := Nat.lt_of_le_of_ne hle fun heq => hrp (hrq.trans heq.symm)
      have hallowed := huncross p.1 r.1 p.2 q.2 hlt hlater (h.isAllowed p hp)
        (hpair ▸ hothers.isAllowed q hq) (hothers.isAllowed _ hr)
      rwa [← hrq] at hallowed
    · rw [Equiv.swap_apply_of_ne_of_ne hrp hrq] at hr
      exact hothers.isAllowed r hr
  · rw [mem_exchanged, Equiv.swap_apply_left, hpair]
    exact hq
  · have hr' := hbefore r hr hlt
    have hrp : r.2 ≠ p.2 := fun heq => by
      obtain rfl := h.right r hr p hp heq
      omega
    have hrq : r.2 ≠ q.2 := fun heq => by
      obtain rfl := hothers.right r hr' q hq heq
      omega
    rwa [mem_exchanged, Equiv.swap_apply_of_ne_of_ne hrp hrq]

/-- Any choice can be made to agree with the greedy one up to a bound, without losing a pair. -/
theorem exists_agreeing (h : IsGreedy allowed greedy) (huncross : Uncrosses allowed)
    (hothers : IsMatching allowed others) (bound : Nat) :
    ∃ others', IsMatching allowed others' ∧ others.card ≤ others'.card ∧
      ∀ r ∈ greedy, r.1 < bound → r ∈ others' := by
  induction bound with
  | zero => exact ⟨others, hothers, Nat.le_refl _, fun _ _ hlt => absurd hlt (Nat.not_lt_zero _)⟩
  | succ bound ih =>
    obtain ⟨others', hothers', hcard, hbefore⟩ := ih
    by_cases hpair : ∃ p ∈ greedy, p.1 = bound
    · obtain ⟨p, hp, rfl⟩ := hpair
      have hexchange : ∃ others'', IsMatching allowed others'' ∧ others'.card ≤ others''.card ∧
          p ∈ others'' ∧ ∀ r ∈ greedy, r.1 < p.1 → r ∈ others'' := by
        by_cases hq : ∃ q ∈ others', q.1 = p.1
        · obtain ⟨q, hq, hleft⟩ := hq
          exact h.exists_exchange_of_paired huncross hothers' hp hbefore hq hleft
        · exact h.exists_exchange_of_unpaired hothers' hp hbefore fun r hr heq => hq ⟨r, hr, heq⟩
      obtain ⟨others'', hothers'', hcard', hmem, hkept⟩ := hexchange
      refine ⟨others'', hothers'', hcard.trans hcard', fun r hr hlt => ?_⟩
      rcases Nat.lt_succ_iff_lt_or_eq.mp hlt with hlt | heq
      · exact hkept r hr hlt
      · exact h.left r hr p hp heq ▸ hmem
    · refine ⟨others', hothers', hcard, fun r hr hlt => hbefore r hr ?_⟩
      exact Nat.lt_of_le_of_ne (Nat.le_of_lt_succ hlt) fun heq => hpair ⟨r, hr, heq⟩

/-- No choice of allowed pairs has more pairs than the greedy one. -/
theorem card_le (h : IsGreedy allowed greedy) (huncross : Uncrosses allowed)
    (hothers : IsMatching allowed others) : others.card ≤ greedy.card := by
  obtain ⟨others', hothers', hcard, hkept⟩ :=
    h.exists_agreeing huncross hothers (greedy.sup Prod.fst + 1)
  have hsub : ∀ r ∈ greedy, r ∈ others' := fun r hr =>
    hkept r hr (Nat.lt_succ_of_le (Finset.le_sup hr))
  -- A choice that holds the greedy one has no further pair: that would be allowed.
  have hback : others' ⊆ greedy := by
    intro p hp
    obtain ⟨r, hr, ⟨hleft, -⟩ | ⟨-, hright⟩⟩ := h.first p (hothers'.isAllowed p hp)
    · exact hothers'.left r (hsub r hr) p hp hleft ▸ hr
    · exact hothers'.right r (hsub r hr) p hp hright ▸ hr
  exact hcard.trans (Finset.card_le_card hback)

end IsGreedy

end Matching

namespace TokenChange

variable {lines : List (List Char)} {lookahead wider : Int}

/-- Whether a removed and an added line may make a modification: they define the same name, and the
added line comes after the removed one, within the lookahead. -/
def MayPair (lines : List (List Char)) (lookahead : Int) (p : Nat × Nat) : Prop :=
  ∃ old new, removedAt lines p.1 = some old ∧ addedAt lines p.2 = some new ∧
    new.name = old.name ∧ p.1 < p.2 ∧ (p.2 : Int) ≤ p.1 + lookahead

/-- What may be paired may be so with a wider reach. -/
theorem MayPair.mono {p : Nat × Nat} (h : MayPair lines lookahead p) (hle : lookahead ≤ wider) :
    MayPair lines wider p := by
  obtain ⟨old, new, hold, hnew, hname, hlt, hreach⟩ := h
  exact ⟨old, new, hold, hnew, hname, hlt, by omega⟩

/-- Every removed line reaches equally far, so what a line reaches after another one's partner the
later of the two reaches as well. -/
theorem uncrosses_mayPair : Uncrosses (MayPair lines lookahead) := by
  rintro i i' j j' hi hj ⟨old, new, hold, hnew, hname, -⟩ ⟨old', new', hold', hnew', hname', -, hle⟩
    ⟨later, new'', hlater, hnew'', hname'', hlt, -⟩
  obtain rfl := Option.some.inj (hold.symm.trans hold')
  obtain rfl := Option.some.inj (hnew.symm.trans hnew'')
  refine ⟨later, new', hlater, hnew', ?_, ?_, ?_⟩
  · rw [hname', ← hname, hname'']
  · simp only at hlt ⊢
    omega
  · simp only at hle ⊢
    omega

/-- The lines of a modification. -/
def Origin.pair? : Origin → Option (Nat × Nat)
  | modification i j => some (i, j)
  | _ => none

/-- The pairs of lines that changes are told from. -/
def pairs (origins : List Origin) : Finset (Nat × Nat) := (origins.filterMap Origin.pair?).toFinset

/-- The pairs are the places of the modifications. -/
@[simp] theorem mem_pairs {origins : List Origin} {p : Nat × Nat} :
    p ∈ pairs origins ↔ .modification p.1 p.2 ∈ origins := by
  simp only [pairs, List.mem_toFinset, List.mem_filterMap]
  constructor
  · rintro ⟨o, ho, hpair⟩
    cases o <;> cases hpair
    exact ho
  · exact fun h => ⟨_, h, rfl⟩

/-- How many of the changes are modifications. -/
def modifications (changes : List TokenChange) : Nat :=
  changes.countP fun c => decide (c.kind = .updated)

/-- The pairs are the best choice: no other choice of lines that may be paired has more of them,
and those of one name do not cross. -/
structure IsBestPairing (lines : List (List Char)) (lookahead : Int)
    (pairs : Finset (Nat × Nat)) : Prop extends IsMatching (MayPair lines lookahead) pairs where
  greatest : ∀ others, IsMatching (MayPair lines lookahead) others → others.card ≤ pairs.card
  ordered : ∀ p ∈ pairs, ∀ q ∈ pairs,
    (removedAt lines p.1).map (·.name) = (removedAt lines q.1).map (·.name) →
      p.1 < q.1 → p.2 < q.2

namespace Account

variable {origins : List Origin} {changes : List TokenChange}

/-- Every origin is told by a change. -/
theorem exists_tells {reach : Nat} (h : Account lines reach origins changes) {o : Origin}
    (ho : o ∈ origins) : ∃ c, Origin.Tells lines o c := by
  have htells := h.tells
  clear h
  induction htells with
  | nil => cases ho
  | cons htells _ ih =>
    rcases List.mem_cons.mp ho with rfl | ho
    · exact ⟨_, htells⟩
    · exact ih ho

/-- The pairs that are told are chosen greedily. -/
theorem isGreedy_pairs (h : Account lines lookahead.toNat origins changes) :
    IsGreedy (MayPair lines lookahead) (pairs origins) where
  isAllowed p hp := by
    rw [mem_pairs] at hp
    obtain ⟨c, htells⟩ := h.exists_tells hp
    obtain ⟨hlt, hreach⟩ := h.near _ _ hp
    cases htells with
    | modification hold hnew hname => exact ⟨_, _, hold, hnew, hname, hlt, by omega⟩
  left p hp q hq heq := by
    rw [mem_pairs] at hp hq
    have hremoved : (origins.filterMap Origin.removed?).Nodup := by
      rw [h.removed]
      exact List.nodup_range.filter _
    have hsame := eq_of_nodup_filterMap hremoved hp hq rfl (congrArg some heq.symm)
    exact Prod.ext heq (Origin.modification.inj hsame).2
  right p hp q hq heq := by
    rw [mem_pairs] at hp hq
    have hadded : (origins.filterMap Origin.added?).Nodup :=
      h.added.nodup_iff.mpr (List.nodup_range.filter _)
    have hsame := eq_of_nodup_filterMap hadded hp hq rfl (congrArg some heq.symm)
    exact Prod.ext (Origin.modification.inj hsame).1 heq
  first p hp := by
    obtain ⟨old, new, hold, hnew, hname, hlt, hreach⟩ := hp
    obtain ⟨i, j, hmem, hor⟩ := h.first _ _ old new hold hnew hname hlt (by omega)
    exact ⟨(i, j), mem_pairs.mpr hmem, hor⟩

/-- The pairs that are told are the best choice. -/
theorem isBestPairing_pairs (h : Account lines lookahead.toNat origins changes) :
    IsBestPairing lines lookahead (pairs origins) where
  toIsMatching := h.isGreedy_pairs.toIsMatching
  greatest _ hothers := h.isGreedy_pairs.card_le uncrosses_mayPair hothers
  ordered p hp q hq hname hlt := by
    by_contra hcross
    -- If they crossed, the earlier removed line could have taken the added line of the later one.
    obtain ⟨old, new, hold, hnew, hsame, -, hreach⟩ := h.isGreedy_pairs.isAllowed p hp
    obtain ⟨old', new', hold', hnew', hsame', hlt', -⟩ := h.isGreedy_pairs.isAllowed q hq
    have hnames : old.name = old'.name := by simpa [hold, hold'] using hname
    have hallowed : MayPair lines lookahead (p.1, q.2) :=
      ⟨old, new', hold, hnew', hsame'.trans hnames.symm, hlt.trans hlt', by simp only; omega⟩
    exact hcross (h.isGreedy_pairs.lt_of_lt hp hq hlt hallowed)

/-- Each pair is told as one modification. -/
theorem card_pairs {reach : Nat} (h : Account lines reach origins changes) :
    (pairs origins).card = modifications changes := by
  have hnodup : origins.Nodup := h.ordered.imp fun hlt heq => by
    rw [heq] at hlt
    exact Nat.lt_irrefl _ hlt
  have hinjective : ∀ o o' p, p ∈ Origin.pair? o → p ∈ Origin.pair? o' → o = o' := by
    rintro (i | ⟨i, j⟩ | j) (i' | ⟨i', j'⟩ | j') p hp hp' <;> cases hp <;> cases hp'
    rfl
  have hcount : origins.countP (fun o => (Origin.pair? o).isSome) = modifications changes := by
    have htells := h.tells
    clear h hnodup
    induction htells with
    | nil => rfl
    | cons htells _ ih =>
      unfold modifications at ih ⊢
      rw [List.countP_cons, List.countP_cons, ih]
      cases htells <;> rfl
  rw [pairs, List.toFinset_card_of_nodup (hnodup.filterMap hinjective),
    List.length_filterMap_eq_countP, hcount]

end Account

/-- The modifications in a diff are the best choice of pairs of removed and added definitions with
one name, the added one after the removed one and within the lookahead: there are as many of them
as there can be, and those of one name do not cross. With a greater lookahead there are no fewer. -/
theorem exists_bestPairing (diff : String) (lookahead : Int)
    (hfits : ∀ line ∈ Text.splitOn '\n' diff.toList, DiffLine.NumberFits line) :
    ∃ changes origins, ofDiff diff lookahead = .ok changes ∧
      Account (Text.splitOn '\n' diff.toList) lookahead.toNat origins changes ∧
      IsBestPairing (Text.splitOn '\n' diff.toList) lookahead (pairs origins) ∧
      modifications changes = (pairs origins).card ∧
      ∀ wider, lookahead ≤ wider → ∃ others, ofDiff diff wider = .ok others ∧
        modifications changes ≤ modifications others := by
  obtain ⟨changes, origins, hread, haccount⟩ := exists_origins lookahead hfits
  refine ⟨changes, origins, hread, haccount, haccount.isBestPairing_pairs, haccount.card_pairs.symm,
    fun wider hle => ?_⟩
  obtain ⟨others, origins', hread', haccount'⟩ := exists_origins wider hfits
  refine ⟨others, hread', ?_⟩
  have hmatching := haccount.isBestPairing_pairs.toIsMatching.mono fun p hp => hp.mono hle
  calc modifications changes
      = (pairs origins).card := haccount.card_pairs.symm
    _ ≤ (pairs origins').card := haccount'.isBestPairing_pairs.greatest _ hmatching
    _ = modifications others := haccount'.card_pairs

/-- A diff in which the first of two removed definitions of one name reaches only one of the two
added ones. -/
def overlappingReach : String :=
  "@@ -1,2 +1,3 @@\n-$a: 1;\n-$a: 2;\n+$b: 3;\n+$a: 4;\n+$a: 5;"

/-- With a lookahead of three lines each of the removed definitions has a partner; with one of two
lines only the second has. -/
theorem exists_bestPairing_overlappingReach :
    (∀ line ∈ Text.splitOn '\n' overlappingReach.toList, DiffLine.NumberFits line) ∧
      ∃ changes origins others, ofDiff overlappingReach 2 = .ok changes ∧
        IsBestPairing (Text.splitOn '\n' overlappingReach.toList) 2 (pairs origins) ∧
        (pairs origins).card = 1 ∧ ofDiff overlappingReach 3 = .ok others ∧
        modifications others = 2 := by
  obtain ⟨changes, origins, hread, -, hbest, hcard, hwider⟩ :=
    exists_bestPairing overlappingReach 2 (by decide)
  obtain ⟨others, hothers, -⟩ := hwider 3 (by decide)
  have hnarrow : (ofDiff overlappingReach 2).toOption.map modifications = some 1 := by decide
  have hwide : (ofDiff overlappingReach 3).toOption.map modifications = some 2 := by decide
  rw [hread] at hnarrow
  rw [hothers] at hwide
  exact ⟨by decide, changes, origins, others, hread, hbest,
    hcard.symm.trans (Option.some.inj hnarrow), hothers, Option.some.inj hwide⟩

end TokenChange

end DesignTokens

import DesignTokens.Proofs.History.Chain
import DesignTokens.Proofs.History.Pointer

/-!
# Every commit once

A detector is asked again and again while commits are pushed or the history is reset. The reports of
new commits together tell every commit after the one it started from up to the furthest it has seen,
each of them once, and the last processed commit never moves backwards. The invariant is the
position that the detector and its store share; a turn adds the commits between two positions, and
what the turns add fits together.
-/

namespace DesignTokens

/-- Turns of a detector on a chain, each with the commit that is checked out, if the path leads to
the repository at all. Between two turns the store keeps what it holds, and it takes every commit;
all else may change. -/
inductive Session [Nesting.Room] (c : Chain) :
    Detector → World → List (Option (Fin c.size) × Turn) → Detector → World → Prop
  | done {d : Detector} {w : World} : Session c d w [] d w
  | visit {d d' : Detector} {w w₁ w' : World} {head : Fin c.size}
    {turns : List (Option (Fin c.size) × Turn)} (request : Request)
    (hpath : Detector.pathExists w₁ d.path = .ok true) (hgit : w₁.git.Follows c head)
    (hheld : (outcome d.store.load w₁).1 = (outcome d.store.load w).1)
    (htakes : ∀ i, d.store.Takes w₁ (c.hash i))
    (hrest : Session c (d.turn request w₁).after (d.turn request w₁).left turns d' w') :
    Session c d w ((some head, d.turn request w₁) :: turns) d' w'
  | away {d d' : Detector} {w w₁ w' : World} {turns : List (Option (Fin c.size) × Turn)}
    (request : Request)
    (hpath : Detector.pathExists w₁ d.path = .ok false)
    (hheld : (outcome d.store.load w₁).1 = (outcome d.store.load w).1)
    (hrest : Session c (d.turn request w₁).after (d.turn request w₁).left turns d' w') :
    Session c d w ((none, d.turn request w₁) :: turns) d' w'

namespace Session

variable {c : Chain} {d d' : Detector} {w w' : World} {i : Fin c.size}
  {turns : List (Option (Fin c.size) × Turn)}

/-- The commits that the reports of new commits saw checked out. -/
def heads (turns : List (Option (Fin c.size) × Turn)) : List (Fin c.size) :=
  turns.filterMap fun t => if t.2.request = .sinceLast then t.1 else none

/-- The hashes in the reports of new commits, one report after the other. -/
def reported (turns : List (Option (Fin c.size) × Turn)) : List String :=
  turns.flatMap fun t => t.2.news

/-- The position after a turn. -/
def next (i : Fin c.size) (t : Option (Fin c.size) × Turn) : Fin c.size :=
  match t.2.request, t.1 with
  | .sinceLast, some head => max i head
  | _, _ => i

theorem le_next (i : Fin c.size) (t : Option (Fin c.size) × Turn) : i ≤ next i t := by
  unfold next
  split
  · exact le_max_left _ _
  · exact le_rfl

theorem le_foldl_next (i : Fin c.size) (turns : List (Option (Fin c.size) × Turn)) :
    i ≤ turns.foldl next i := by
  induction turns generalizing i with
  | nil => exact le_rfl
  | cons t turns ih => exact (le_next i t).trans (ih (next i t))

/-- The position after all turns is the furthest of the first one and those seen. -/
theorem foldl_next (i : Fin c.size) (turns : List (Option (Fin c.size) × Turn)) :
    turns.foldl next i = (heads turns).foldl max i := by
  induction turns generalizing i with
  | nil => rfl
  | cons t turns ih =>
    obtain ⟨head, request, before, world, answer, after, left⟩ := t
    rw [List.foldl_cons, ih]
    cases request with
    | recent span => rfl
    | sinceLast =>
      cases head with
      | none => rfl
      | some head => rfl

/-- The last processed commit is at a position, in the detector and in the store. -/
def At (c : Chain) (d : Detector) (w : World) (i : Fin c.size) : Prop :=
  d.pointer = some (c.hash i) ∧ d.store.Holds w (c.hash i)

/-- What turns on a chain come to, when the last processed commit goes from one position to
another. -/
structure Account (turns : List (Option (Fin c.size) × Turn)) (d' : Detector) (w' : World)
    (i j : Fin c.size) : Prop where
  answered : ∀ t ∈ turns, ∃ found, t.2.answer = .ok found
  /-- The reports together tell the commits between. -/
  reported : (reported turns).Perm ((c.between i j).map c.hash)
  /-- The last processed commit ends at the second position. -/
  ends : At c d' w' j
  /-- The last processed commit never moves backwards. -/
  ascends : ∃ positions, (i :: positions).Pairwise (· ≤ ·) ∧
    List.Forall₂ (fun t k => At c t.2.after t.2.left k) turns positions

private theorem Account.cons {t : Option (Fin c.size) × Turn} {j k : Fin c.size}
    (ht : t.2.Moves c i j) (hij : i ≤ j) (hjk : j ≤ k) (h : Account turns d' w' j k) :
    Account (t :: turns) d' w' i k := by
  obtain ⟨positions, hpairwise, hpositions⟩ := h.ascends
  have hfirst : ∀ m ∈ j :: positions, i ≤ m := by
    intro m hm
    rcases List.mem_cons.mp hm with rfl | hm
    · exact hij
    · exact hij.trans ((List.pairwise_cons.mp hpairwise).1 m hm)
  have hbetween := ((Chain.between_append_perm hij hjk).map c.hash)
  rw [List.map_append] at hbetween
  refine ⟨?_, (ht.news.append h.reported).trans hbetween, h.ends, j :: positions,
    List.pairwise_cons.mpr ⟨hfirst, hpairwise⟩, .cons ⟨ht.pointer, ht.held⟩ hpositions⟩
  intro u hu
  rcases List.mem_cons.mp hu with rfl | hu
  · exact ht.answered
  · exact h.answered u hu

/-- The turns of a session have an account from the first position to the furthest. -/
theorem account [Nesting.Room] (h : Session c d w turns d' w') (hat : At c d w i) :
    Account turns d' w' i (turns.foldl next i) := by
  induction h generalizing i with
  | done =>
    refine ⟨by simp, ?_, hat, [], List.pairwise_singleton _ _, .nil⟩
    rw [List.foldl_nil, Chain.between_self]
    exact .nil
  | @visit d d' w w₁ w' head turns request hpath hgit hheld htakes hrest ih =>
    have hstored := hheld.trans hat.2
    have hmoves : (d.turn request w₁).Moves c i (next i (some head, d.turn request w₁)) := by
      cases request with
      | sinceLast => exact Detector.moves_turn_sinceLast hpath hgit hat.1 hstored (htakes head)
      | recent span => exact Detector.moves_turn_recent span hpath hgit hat.1 hstored
    exact .cons hmoves (le_next i _) (le_foldl_next _ _) (ih ⟨hmoves.pointer, hmoves.held⟩)
  | @away d d' w w₁ w' turns request hpath hheld hrest ih =>
    have hmoves : (d.turn request w₁).Moves c i (next i (none, d.turn request w₁)) := by
      cases request with
      | sinceLast => exact Detector.moves_turn_of_absent _ hpath hat.1 (hheld.trans hat.2)
      | recent span => exact Detector.moves_turn_of_absent _ hpath hat.1 (hheld.trans hat.2)
    exact .cons hmoves (le_next i _) (le_foldl_next _ _) (ih ⟨hmoves.pointer, hmoves.held⟩)

/-- Over a store in memory every sequence of requests makes a session, wherever the version control
system follows the chain. -/
theorem exists_of_memory [Nesting.Room] (hstore : d.store = .memory d.pointer)
    {visits : List (Request × World × Fin c.size)}
    (hvisits : ∀ v ∈ visits, Detector.pathExists v.2.1 d.path = .ok true ∧
      v.2.1.git.Follows c v.2.2) (w : World) :
    ∃ turns d' w', Session c d w turns d' w' ∧
      turns.map (fun t => (t.2.request, t.1)) = visits.map fun v => (v.1, some v.2.2) := by
  induction visits generalizing d w with
  | nil => exact ⟨[], d, w, .done, rfl⟩
  | cons v visits ih =>
    obtain ⟨request, w₁, head⟩ := v
    obtain ⟨hpath, hgit⟩ := hvisits _ List.mem_cons_self
    have hagree := (Detector.movesPointer_turn hstore request w₁).agree
    have hrest : ∀ v ∈ visits, Detector.pathExists v.2.1 (d.turn request w₁).after.path =
        .ok true ∧ v.2.1.git.Follows c v.2.2 := by
      rw [Detector.path_turn]
      exact fun v hv => hvisits v (List.mem_cons_of_mem _ hv)
    obtain ⟨turns, d', w', hsession, hturns⟩ := ih hagree hrest (d.turn request w₁).left
    refine ⟨_, d', w', .visit request hpath hgit ?_ (fun i => ?_) hsession, ?_⟩
    · rw [hstore]
      rfl
    · rw [hstore]
      trivial
    · rw [List.map_cons, List.map_cons, hturns]
      rfl

end Session

/-- A detector whose store holds a commit of a chain starts there. From then on, while nothing fails
and whatever is checked out from turn to turn, the reports of new commits together tell every commit
after that one up to the furthest seen, each exactly once and nothing else, and the last processed
commit ends at the furthest seen without ever moving backwards. -/
theorem exists_start_reportsOnce [Nesting.Room] {c : Chain} {store : PointerStore} {w : World}
    {first : Fin c.size} (hheld : store.Holds w (c.hash first)) (path : Value)
    (lookbackHours lookahead : Int) :
    ∃ d, (outcome (Detector.start path store lookbackHours lookahead) w).1 = .ok d ∧
      ∀ turns d' w', Session c d w turns d' w' →
        Session.Account turns d' w' first ((Session.heads turns).foldl max first) ∧
          (Session.reported turns).Nodup ∧
          ∀ hash, hash ∈ Session.reported turns ↔
            ∃ k, first < k ∧ k ≤ (Session.heads turns).foldl max first ∧ c.hash k = hash := by
  refine ⟨⟨path, store, lookbackHours, lookahead, some (c.hash first)⟩, ?_, ?_⟩
  · rcases hload : outcome store.load w with ⟨answer, w₁⟩
    have hanswer : answer = .ok (some (c.hash first)) := by
      rw [← hheld, hload]
    subst hanswer
    unfold Detector.start
    rw [outcome_bind_of_ok hload, Detector.given_of_ne (c.isHash first).ne_empty,
      outcome_bind_of_ok (outcome_say _ w₁)]
    rfl
  · intro turns d' w' hsession
    have haccount := hsession.account (i := first) ⟨rfl, hheld⟩
    rw [Session.foldl_next] at haccount
    refine ⟨haccount, ?_, fun hash => ?_⟩
    · exact haccount.reported.nodup_iff.mpr ((Chain.nodup_between _ _).map c.distinct)
    · rw [haccount.reported.mem_iff, List.mem_map]
      constructor
      · rintro ⟨k, hk, rfl⟩
        exact ⟨k, (Chain.mem_between.mp hk).1, (Chain.mem_between.mp hk).2, rfl⟩
      · rintro ⟨k, hfirst, hlast, rfl⟩
        exact ⟨k, Chain.mem_between.mpr ⟨hfirst, hlast⟩, rfl⟩

private theorem isLogField_three : ∀ hash ∈ ["a1", "b2", "c3"], IsLogField hash := by
  intro hash hmem
  simp only [List.mem_cons, List.not_mem_nil, or_false] at hmem
  rcases hmem with rfl | rfl | rfl
  all_goals exact IsLogField.of_all (by decide) (by decide) (by decide)

/-- Three commits. -/
def threeCommits : Chain where
  size := 3
  hash := ["a1", "b2", "c3"].get
  distinct := by
    intro i j
    revert i j
    decide
  isHash := fun i => isLogField_three _ (List.get_mem ["a1", "b2", "c3"] i)

/-- A world with a repository of three commits at its root. -/
def threeCommitsWorld (head : Fin 3) : World :=
  ⟨⟨[]⟩, "/", "/", [], none, none, default, 0, threeCommits.service head, false, [], [], []⟩

attribute [local instance] Nesting.Room.ample

/-- After a report of two new commits, a reset to the first one and two more reports, the two have
been told once and the last processed commit is still the newest. -/
theorem reportsOnce_threeCommits :
    PointerStore.Holds (.memory (some "a1")) (threeCommitsWorld 0) "a1" ∧
      ∃ d turns d' w',
        (outcome (Detector.start (.text "/") (.memory (some "a1")) 24 10)
          (threeCommitsWorld 0)).1 = .ok d ∧
        Session threeCommits d (threeCommitsWorld 0) turns d' w' ∧
        Session.heads turns = [(2 : Fin 3), (0 : Fin 3)] ∧
        (Session.reported turns).Perm ["b2", "c3"] ∧ d'.pointer = some "c3" := by
  have hheld : PointerStore.Holds (.memory (some "a1")) (threeCommitsWorld 0)
      (threeCommits.hash (0 : Fin 3)) := rfl
  obtain ⟨d, hstart, hall⟩ := exists_start_reportsOnce hheld (.text "/") 24 10
  obtain rfl : _ = d := Except.ok.inj hstart
  have hapart : ∀ i j k l : Fin 3, threeCommits.hash i ++ ".." ++ threeCommits.hash j =
      threeCommits.hash k ++ ".." ++ threeCommits.hash l → i = k ∧ j = l := by decide
  have hgit : ∀ head : Fin 3, (threeCommitsWorld head).git.Follows threeCommits head :=
    Chain.follows_service (c := threeCommits) hapart
  have hvisits : ∀ v ∈ [(Request.sinceLast, threeCommitsWorld 2, (2 : Fin 3)),
      (.recent (.hours 1), threeCommitsWorld 0, (0 : Fin 3)),
      (.sinceLast, threeCommitsWorld 0, (0 : Fin 3))],
      Detector.pathExists v.2.1 (.text "/") = .ok true ∧
        v.2.1.git.Follows threeCommits v.2.2 := by
    intro v hv
    simp only [List.mem_cons, List.not_mem_nil, or_false] at hv
    rcases hv with rfl | rfl | rfl
    · exact ⟨rfl, hgit 2⟩
    · exact ⟨rfl, hgit 0⟩
    · exact ⟨rfl, hgit 0⟩
  obtain ⟨turns, d', w', hsession, hturns⟩ := Session.exists_of_memory (c := threeCommits)
    (d := ⟨.text "/", .memory (some "a1"), 24, 10, some "a1"⟩) rfl hvisits (threeCommitsWorld 0)
  have hheads : Session.heads turns = [(2 : Fin 3), (0 : Fin 3)] := by
    have hmap : Session.heads turns = (turns.map fun t => (t.2.request, t.1)).filterMap
        fun t => if t.1 = .sinceLast then t.2 else none := by
      rw [List.filterMap_map]
      rfl
    rw [hmap, hturns]
    rfl
  obtain ⟨haccount, -⟩ := hall turns d' w' hsession
  rw [hheads] at haccount
  have hbetween : (threeCommits.between (0 : Fin 3) (2 : Fin 3)).map threeCommits.hash =
      ["b2", "c3"] := by decide
  exact ⟨hheld, _, turns, d', w', hstart, hsession, hheads,
    haccount.reported.trans (.of_eq hbetween), haccount.ends.1⟩

end DesignTokens

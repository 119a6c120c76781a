import Got.CommitGraph.Advance

/-!
# Traversals, step by step

What can be seen of a traversal between two calls depends on what happened
in between, so a traversal is looked at in smaller steps here: a sweep begins, it
deals with one tip, or a node is taken from the list. The functions of
the commit graph take such steps only (`steps_fetch`, `steps_iterNext`), and a run
may take them whenever they are possible, so it need not sweep when the functions
would.
-/

namespace Got

variable {ι : Type} [LinearOrder ι]

/-- **A traversal at some point**: the graph, the tips which the sweep that is
going on has not dealt with yet, and what was returned so far. -/
structure Traversal (ι : Type) [LinearOrder ι] where
  graph : CommitGraph ι
  pending : List (BranchTip ι)
  returned : List ι

namespace Traversal

open CommitGraph Relation

/-- The ids of the pending tips. -/
def pendingIds (s : Traversal ι) : List ι := s.pending.map BranchTip.commitId

/-- The commits that were put into the list, returned or not. -/
def listed (s : Traversal ι) : List ι := s.returned ++ s.graph.iterList.map CommitGraphNode.id

/-- **One step of a traversal.** -/
inductive Step (repo : Repository ι) (fuel : ℕ) : Traversal ι → Traversal ι → Prop
  /-- A sweep begins with the tips of all open branches. -/
  | begin {graph graph' : CommitGraph ι} {tips : List (BranchTip ι)} {returned : List ι} :
    addBranchTips repo graph graph.openBranches.entries = .ok (tips, graph') →
    Step repo fuel ⟨graph, [], returned⟩ ⟨graph', tips, returned⟩
  /-- A sweep deals with a tip. -/
  | tip {graph graph' : CommitGraph ι} {tip : BranchTip ι} {tips : List (BranchTip ι)}
    {returned : List ι} : sweepTip repo fuel graph tip = .ok graph' →
    Step repo fuel ⟨graph, tip :: tips, returned⟩ ⟨graph', tips, returned⟩
  /-- The first node of the list is returned. -/
  | next {graph : CommitGraph ι} {node : CommitGraphNode ι} {rest : List (CommitGraphNode ι)}
    {returned : List ι} : graph.iterList = node :: rest →
    Step repo fuel ⟨graph, [], returned⟩
      ⟨{ graph with iterList := rest }, [], returned ++ [node.id]⟩

/-- A traversal begins with the branch of one commit. -/
def Started (path : List Name) (firstParentTraversal : Bool) (startId : ι) (s : Traversal ι) :
    Prop :=
  ∃ graph, (gotCommitGraphOpen path firstParentTraversal).openBranch startId = .ok graph
    ∧ s = ⟨graph, [], []⟩

variable {repo : Repository ι} {fuel n enough : ℕ} {graph graph' : CommitGraph ι} {id : ι}
  {returned ids : List ι}

/-- A run of steps. -/
abbrev Steps (repo : Repository ι) (fuel : ℕ) : Traversal ι → Traversal ι → Prop :=
  ReflTransGen (Step repo fuel)

/-! ## The functions take steps -/

/-- The rest of a sweep is a run of tip steps. -/
theorem steps_sweepTips {tips : List (BranchTip ι)}
    (h : sweepTips repo fuel graph tips = .ok graph') :
    Steps repo fuel ⟨graph, tips, returned⟩ ⟨graph', [], returned⟩ := by
  induction tips generalizing graph with
  | nil =>
    obtain rfl := Except.ok.inj h
    exact ReflTransGen.refl
  | cons tip tips ih =>
    obtain ⟨graph₁, htip, h⟩ := bind_eq_ok_iff.mp h
    exact ReflTransGen.head (Step.tip htip) (ih h)

/-- One fetch is a run. -/
theorem steps_fetch (h : fetchCommitsFromOpenBranches repo fuel graph = .ok graph') :
    Steps repo fuel ⟨graph, [], returned⟩ ⟨graph', [], returned⟩ := by
  unfold fetchCommitsFromOpenBranches at h
  split at h
  · obtain rfl := Except.ok.inj h
    exact ReflTransGen.refl
  · obtain ⟨⟨tips, graph₁⟩, htips, h⟩ := bind_eq_ok_iff.mp h
    exact ReflTransGen.head (Step.begin htips) (steps_sweepTips h)

/-- Fetching more commits is a run of sweeps. -/
theorem steps_fetchUntil (h : fetchUntil repo fuel enough graph n = .ok graph') :
    Steps repo fuel ⟨graph, [], returned⟩ ⟨graph', [], returned⟩ := by
  induction n generalizing graph with
  | zero => exact nomatch h
  | succ n ih =>
    rw [fetchUntil] at h
    split at h
    · obtain ⟨graph₁, hfetch, h⟩ := bind_eq_ok_iff.mp h
      exact (steps_fetch hfetch).trans (ih h)
    · obtain rfl := Except.ok.inj h
      exact ReflTransGen.refl

/-! ## The list -/

/-- What a sweep does to the list. -/
theorem sweepTip_iterList {tip : BranchTip ι} (h : sweepTip repo fuel graph tip = .ok graph') :
    graph'.iterList = graph.iterList ∨ graph'.iterList
      = insertBehind ⟨tip.commitId, tip.commit.committerTime⟩ graph.iterList := by
  rcases sweepTip_cases h with ⟨-, h⟩ | ⟨changed, graph₁, -, rfl, h⟩
  · exact Or.inl (closeBranch_frame h).iterList
  · rw [(advanceBranch_frame h).iterList]
    cases changed with
    | true => exact Or.inr rfl
    | false => exact Or.inl rfl

/-- A run never takes back a commit it has returned. -/
theorem Steps.length_returned {s s' : Traversal ι} (h : Steps repo fuel s s') :
    s.returned.length ≤ s'.returned.length := by
  induction h with
  | refl => exact Nat.le_refl _
  | tail _ hstep ih =>
    refine ih.trans ?_
    cases hstep with
    | begin _ => exact Nat.le_refl _
    | tip _ => exact Nat.le_refl _
    | next _ =>
      rw [List.length_append]
      exact Nat.le_add_right _ _

/-- While commits are fetched, **the first node stays the first**. -/
theorem Steps.head? {s s' : Traversal ι} {node : CommitGraphNode ι} (h : Steps repo fuel s s')
    (hreturned : s'.returned = s.returned) (hnode : s.graph.iterList.head? = some node) :
    s'.graph.iterList.head? = some node := by
  induction h using ReflTransGen.head_induction_on with
  | refl => exact hnode
  | head hstep hsteps ih =>
    cases hstep with
    | begin htips => exact ih hreturned ((addBranchTips_frame htips).iterList ▸ hnode)
    | @tip graph graph' tip tips returned htip =>
      refine ih hreturned ?_
      obtain ⟨rest, hlist⟩ := List.head?_eq_some_iff.mp hnode
      show graph'.iterList.head? = _
      rcases sweepTip_iterList htip with heq | heq
      · rw [heq]
        exact hnode
      · rw [heq, show graph.iterList = node :: rest from hlist]
        exact head?_insertBehind _ _ _
    | @next graph node' rest returned hlist =>
      -- something would have been returned
      have hlen := Steps.length_returned hsteps
      rw [hreturned, List.length_append] at hlen
      exact absurd hlen (by simp)

/-- **What is returned is the first node.** -/
theorem steps_iterNext (h : gotCommitGraphIterNext repo fuel graph = .ok (id, graph')) :
    Steps repo fuel ⟨graph, [], returned⟩ ⟨graph', [], returned ++ [id]⟩ := by
  unfold gotCommitGraphIterNext at h
  split at h
  · exact nomatch h
  · next node rest hlist =>
    obtain ⟨graph₁, hfetch, h⟩ := bind_eq_ok_iff.mp h
    obtain ⟨rfl, rfl⟩ := Prod.mk.inj (Except.ok.inj h)
    have hsteps : Steps repo fuel ⟨graph, [], returned⟩ ⟨graph₁, [], returned⟩ :=
      steps_fetchUntil hfetch
    have hhead := hsteps.head? rfl (by rw [hlist]; rfl)
    obtain ⟨rest', hlist'⟩ := List.head?_eq_some_iff.mp hhead
    refine hsteps.tail ?_
    show Step repo fuel _ ⟨{ graph₁ with iterList := graph₁.iterList.tail }, [], _⟩
    rw [show graph₁.iterList.tail = rest' by
      rw [show graph₁.iterList = node :: rest' from hlist']; rfl]
    exact Step.next hlist'

/-- Starting the iteration is itself a run from the started state. -/
theorem steps_iterStart {path : List Name} {firstParentTraversal : Bool} {startId : ι}
    (h : gotCommitGraphIterStart repo fuel (gotCommitGraphOpen path firstParentTraversal) startId
      = .ok graph) :
    ∃ s, Started path firstParentTraversal startId s ∧ Steps repo fuel s ⟨graph, [], []⟩ := by
  unfold gotCommitGraphIterStart at h
  split at h
  · exact nomatch h
  · obtain ⟨graph₁, hopen, h⟩ := bind_eq_ok_iff.mp h
    obtain ⟨graph₂, hfetch, h⟩ := bind_eq_ok_iff.mp h
    split at h
    · split at h
      · exact nomatch h
      · exact nomatch h
    · obtain rfl := Except.ok.inj h
      exact ⟨⟨graph₁, [], []⟩, ⟨graph₁, hopen, rfl⟩, steps_fetchUntil hfetch⟩

/-- What is returned until there are no more commits. -/
theorem steps_iterAll (h : iterAll repo fuel graph n = .ok ids) :
    ∃ graph', Steps repo fuel ⟨graph, [], returned⟩ ⟨graph', [], returned ++ ids⟩ := by
  induction n generalizing graph returned ids with
  | zero => exact nomatch h
  | succ n ih =>
    rw [iterAll] at h
    split at h
    · obtain rfl := Except.ok.inj h
      exact ⟨graph, by rw [List.append_nil]⟩
    · exact nomatch h
    · next id graph₁ hnext =>
      obtain ⟨ids', hall, h⟩ := bind_eq_ok_iff.mp h
      obtain rfl := Except.ok.inj h
      obtain ⟨graph', hsteps⟩ := @ih graph₁ (returned ++ [id]) ids' hall
      rw [List.append_assoc] at hsteps
      exact ⟨graph', (steps_iterNext hnext).trans hsteps⟩

/-- **A full iteration is a run.** -/
theorem steps_traverse {path : List Name} {firstParentTraversal : Bool} {startId : ι}
    (h : traverse repo path firstParentTraversal fuel startId = .ok ids) :
    ∃ s graph, Started path firstParentTraversal startId s
      ∧ Steps repo fuel s ⟨graph, [], ids⟩ := by
  obtain ⟨graph, hstart, h⟩ := bind_eq_ok_iff.mp h
  obtain ⟨s, hs, hsteps⟩ := steps_iterStart hstart
  obtain ⟨graph', hsteps'⟩ := @steps_iterAll _ _ _ _ _ _ [] _ h
  exact ⟨s, graph', hs, hsteps.trans hsteps'⟩

end Traversal

end Got

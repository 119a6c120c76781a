import Got.CommitGraph.Runs

/-!
# The order of the list

The nodes which are returned next are to be sorted by the time of their commits,
newest first. A node is inserted before the first one it is not older than, but the
first of all is not compared with. So inserting into a sorted list keeps it
sorted exactly if the node is not newer than the first one
(`newestFirst_insertBehind_iff`), and in a run in which no newer one is inserted the
list is sorted all the time (`newestFirst_of_run`).

Nothing keeps a newer one from being inserted: the next sweep begins when there is
one node left, and with two branches it may come to a newer commit on the other one
(`newerParent_not_newestFirst`).
-/

namespace Got

variable {ι : Type}

/-- **Sorted by time, newest first.** -/
def NewestFirst (l : List (CommitGraphNode ι)) : Prop :=
  l.Pairwise (fun n n' => n'.timestamp ≤ n.timestamp)

instance (l : List (CommitGraphNode ι)) : Decidable (NewestFirst l) :=
  inferInstanceAs (Decidable (l.Pairwise (fun n n' => n'.timestamp ≤ n.timestamp)))

/-- **Inserting a node** keeps the order exactly if the node is not newer than
the first one. -/
theorem newestFirst_insertBehind_iff {node : CommitGraphNode ι} {l : List (CommitGraphNode ι)}
    (h : NewestFirst l) :
    NewestFirst (insertBehind node l) ↔ ∀ n ∈ l.head?, node.timestamp ≤ n.timestamp := by
  constructor
  · intro hsorted n hn
    obtain ⟨rest, rfl⟩ := List.head?_eq_some_iff.mp hn
    obtain ⟨rest', hrest'⟩ := List.head?_eq_some_iff.mp (head?_insertBehind node n rest)
    rw [hrest'] at hsorted
    -- the node is behind the first one
    have hperm := perm_insertBehind node (n :: rest)
    rw [hrest'] at hperm
    have hmem : node ∈ rest' :=
      ((hperm.trans (List.Perm.swap n node rest)).cons_inv).mem_iff.mpr List.mem_cons_self
    exact (List.pairwise_cons.mp hsorted).1 node hmem
  · intro hhead
    fun_induction insertBehind node l with
    | case1 => exact List.pairwise_singleton _ node
    | case2 n => exact List.pairwise_pair.mpr (hhead n rfl)
    | case3 n next rest hge =>
      obtain ⟨hn, hrest⟩ := List.pairwise_cons.mp h
      refine List.pairwise_cons.mpr ⟨fun n' hn' => ?_,
        List.pairwise_cons.mpr ⟨fun n' hn' => ?_, hrest⟩⟩
      · rcases List.mem_cons.mp hn' with rfl | hn'
        · exact hhead n rfl
        · exact hn n' hn'
      · rcases List.mem_cons.mp hn' with rfl | hn'
        · exact hge
        · exact ((List.pairwise_cons.mp hrest).1 n' hn').trans hge
    | case4 n next rest hlt ih =>
      obtain ⟨hn, hrest⟩ := List.pairwise_cons.mp h
      refine List.pairwise_cons.mpr ⟨fun n' hn' => ?_, ih hrest fun n' hn' => ?_⟩
      · rcases List.mem_cons.mp ((perm_insertBehind node _).mem_iff.mp hn') with rfl | hn'
        · exact hhead n rfl
        · exact hn n' hn'
      · obtain rfl := Option.some.inj hn'
        exact le_of_lt (Int.not_le.mp hlt)

namespace Traversal

open CommitGraph Relation

variable [LinearOrder ι]

/-- **An iteration is started**, once there is nothing left to return. -/
inductive Start : Traversal ι → Traversal ι → Prop
  | start {graph graph' : CommitGraph ι} {id : ι} {returned : List ι} :
    graph.iterList = [] → graph.openBranch id = .ok graph' →
    Start ⟨graph, [], returned⟩ ⟨graph', [], returned⟩

/-- **What the order relies on**: the tip that is dealt with next is not newer
than the first node of the list, if it changed the path. -/
def TipNotNewer (repo : Repository ι) (s : Traversal ι) : Prop :=
  ∀ tip ∈ s.pending.head?,
    detectChangedPath repo tip.commit tip.commitId s.graph.path = .ok true →
    ∀ node ∈ s.graph.iterList.head?, tip.commit.committerTime ≤ node.timestamp

instance (repo : Repository ι) (s : Traversal ι) : Decidable (TipNotNewer repo s) :=
  inferInstanceAs (Decidable (∀ tip ∈ s.pending.head?,
    detectChangedPath repo tip.commit tip.commitId s.graph.path = .ok true →
    ∀ node ∈ s.graph.iterList.head?, tip.commit.committerTime ≤ node.timestamp))

variable {repo : Repository ι} {fuel : ℕ} {s s' : Traversal ι}

theorem NewestFirst.start (h : NewestFirst s.graph.iterList) (hstart : Start s s') :
    NewestFirst s'.graph.iterList := by
  cases hstart with
  | start _ hopen => exact (openBranch_frame hopen).iterList ▸ h

/-- One step of the traversal keeps the list ordered by date, when no tip is newer than the node in
front. -/
theorem NewestFirst.step (h : NewestFirst s.graph.iterList) (hok : TipNotNewer repo s)
    (hstep : Step repo fuel s s') : NewestFirst s'.graph.iterList := by
  cases hstep with
  | begin htips => exact (addBranchTips_frame htips).iterList ▸ h
  | next hlist =>
    rw [show _ = _ from hlist] at h
    exact (List.pairwise_cons.mp h).2
  | @tip graph graph' tip tips returned htip =>
    show NewestFirst graph'.iterList
    rcases sweepTip_cases htip with ⟨-, hclose⟩ | ⟨changed, graph₁, hd, rfl, hadvance⟩
    · exact (closeBranch_frame hclose).iterList ▸ h
    · rw [(advanceBranch_frame hadvance).iterList]
      cases changed with
      | true => exact (newestFirst_insertBehind_iff h).mpr (hok tip rfl hd)
      | false => exact h

/-- **The list is sorted**, and what is returned next is as new as anything
that was not returned yet, in a run in which no tip is newer than the first
node. -/
theorem newestFirst_of_run {path : List Name} {firstParentTraversal : Bool}
    (h : ReflTransGen (fun s s' => TipNotNewer repo s ∧ (Start s s' ∨ Step repo fuel s s'))
      ⟨gotCommitGraphOpen path firstParentTraversal, [], []⟩ s) :
    NewestFirst s.graph.iterList
      ∧ ∀ node rest, s.graph.iterList = node :: rest →
        ∀ node' ∈ rest, node'.timestamp ≤ node.timestamp := by
  have hsorted : NewestFirst s.graph.iterList := by
    induction h with
    | refl => exact List.Pairwise.nil
    | tail _ hstep ih =>
      rcases hstep with ⟨hok, hstart | hstep⟩
      · exact NewestFirst.start ih hstart
      · exact NewestFirst.step ih hok hstep
  refine ⟨hsorted, fun node rest hlist => ?_⟩
  rw [hlist] at hsorted
  exact (List.pairwise_cons.mp hsorted).1

/-- Two branches that are merged: on the second one there is an old commit, and
on the first one a parent that is newer. -/
def twoBranches : Repository ℕ :=
  .ofCommits [emptyCommit 100 [1, 2], emptyCommit 90 [3], emptyCommit 80 [4], emptyCommit 85 [],
    emptyCommit 70 []]

/-- Two sweeps: no tip is newer than the first node yet. -/
theorem newestFirst_of_run_twoBranches : ∃ s : Traversal ℕ,
    s.graph.iterList.map CommitGraphNode.timestamp = [100, 90, 80]
      ∧ NewestFirst s.graph.iterList := by
  refine ⟨_, ?_, (@newestFirst_of_run ℕ _ twoBranches 0 _ [] false
    (.tail (.tail (.tail (.tail (.tail (.tail .refl
      ⟨?_, .inl (@Start.start ℕ _ _ _ 0 _ rfl rfl)⟩)
      ⟨?_, .inr (.begin rfl)⟩)
      ⟨?_, .inr (.tip rfl)⟩)
      ⟨?_, .inr (.begin rfl)⟩)
      ⟨?_, .inr (.tip rfl)⟩)
      ⟨?_, .inr (.tip rfl)⟩)).1⟩
  · rfl
  all_goals decide

/-- **A newer commit on another branch** is put behind an older one, which is
returned while the newer one is in the list. -/
theorem newerParent_not_newestFirst :
    (¬∀ s : Traversal ℕ, ReflTransGen (fun s s' => Start s s' ∨ Step twoBranches 10 s s')
      ⟨gotCommitGraphOpen [] false, [], []⟩ s → NewestFirst s.graph.iterList)
      ∧ (do
        let graph ← gotCommitGraphIterStart twoBranches 10 (gotCommitGraphOpen [] false) 0
        let (_, graph) ← gotCommitGraphIterNext twoBranches 10 graph
        let (_, graph) ← gotCommitGraphIterNext twoBranches 10 graph
        let (id, graph) ← gotCommitGraphIterNext twoBranches 10 graph
        return (id, graph.iterList)) = .ok (2, [⟨3, 85⟩, ⟨4, 70⟩]) := by
  refine ⟨fun h => ?_, rfl⟩
  have hsorted := h _ (.tail (.tail (.tail (.tail (.tail (.tail (.tail (.tail (.tail (.tail (.tail
    .refl (.inl (@Start.start ℕ _ _ _ 0 _ rfl rfl))) (.inr (.begin rfl))) (.inr (.tip rfl)))
    (.inr (.begin rfl))) (.inr (.tip rfl))) (.inr (.tip rfl)))
    -- the commits 0 and 1 are returned, and then there is one node left
    (.inr (.next rfl))) (.inr (.next rfl)))
    (.inr (.begin rfl))) (.inr (.tip rfl))) (.inr (.tip rfl)))
  exact absurd hsorted (by decide)

end Traversal

end Got

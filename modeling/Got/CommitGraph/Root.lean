import Got.CommitGraph.Visited
import Got.CommitGraph.FirstParent

/-!
# Traversals of the root

The root changes with every commit, so a traversal without a path returns commits
without leaving any out. With all parents it returns all that history leads to,
each commit once, because a parent of a commit that was traversed is traversed as
well or is an open branch (`Covers`), and at the end there are no open branches.
With first parents it returns the first-parent chain.

A traversal also comes to its end: each sweep puts something into the list, and
each call returns another commit of the history.
-/

namespace Got

variable {ι : Type} [LinearOrder ι]

/-- There is room for an id of a history that fits into a set. -/
theorem ObjectIdset.exists_add_of_subset {set : ObjectIdset ι} {ids : Finset ι} {id : ι}
    (hc : set.Counted) (hsub : ∀ x ∈ set, x ∈ ids) (hid : id ∈ ids) (hnew : id ∉ set)
    (hroom : ids.card ≤ GOT_OBJECT_IDSET_MAX_ELEM) : ∃ set', set.add id = .ok set' := by
  refine exists_add (lt_of_lt_of_le ?_ hroom) id
  rw [hc, ← List.toFinset_card_of_nodup set.nodup]
  refine Finset.card_lt_card (Finset.ssubset_iff_of_subset ?_ |>.mpr ⟨id, hid, ?_⟩)
  · exact fun x hx => hsub x (List.mem_toFinset.mp hx)
  · exact fun hx => hnew (List.mem_toFinset.mp hx)

namespace CommitGraph

variable {repo : Repository ι} {graph graph' : CommitGraph ι} {ids : Finset ι} {qids : List ι}
  {tips : List (BranchTip ι)}

/-- With room for all ids of the history, opening the parents of a commit does not fail. -/
theorem exists_openParents (hroom : ids.card ≤ GOT_OBJECT_IDSET_MAX_ELEM)
    (hc : graph.openBranches.Counted) (hsub : ∀ x ∈ graph.openBranches, x ∈ ids)
    (hqids : ∀ x ∈ qids, x ∈ ids) : ∃ graph', graph.openParents qids = .ok graph' := by
  induction qids generalizing graph with
  | nil => exact ⟨graph, rfl⟩
  | cons qid qids ih =>
    have hqid := hqids qid List.mem_cons_self
    obtain ⟨graph₁, hparent⟩ : ∃ graph₁, graph.openParent qid = .ok graph₁ := by
      unfold openParent
      split
      · exact ⟨graph, rfl⟩
      · next hopen =>
        split
        · exact ⟨graph, rfl⟩
        · have hnew := mt ObjectIdset.contains_iff.mpr hopen
          obtain ⟨set, hadd⟩ := ObjectIdset.exists_add_of_subset hc hsub hqid hnew hroom
          exact ⟨_, by rw [openBranch, hadd]; rfl⟩
    have h₁ := openParent_spec hc hparent
    obtain ⟨graph', h⟩ := @ih graph₁ h₁.counted
      (fun x hx => by
        rcases (h₁.mem_iff x).mp hx with hx | ⟨rfl, -⟩
        · exact hsub x hx
        · exact hqid)
      (fun x hx => hqids x (List.mem_cons_of_mem qid hx))
    exact ⟨graph', by rw [openParents, hparent]; exact h⟩

/-- The commits of branches that were not traversed can be opened and
traversed. -/
theorem exists_addBranchTips (hcomplete : repo.Complete ids)
    (hroom : ids.card ≤ GOT_OBJECT_IDSET_MAX_ELEM) (hc : graph.nodeIds.Counted)
    (hsub : ∀ x ∈ graph.nodeIds, x ∈ ids) (hqids : ∀ x ∈ qids, x ∈ ids ∧ x ∉ graph.nodeIds)
    (hnodup : qids.Nodup) : ∃ tips graph', addBranchTips repo graph qids = .ok (tips, graph')
      ∧ graph'.nodeIds.Counted := by
  induction qids generalizing graph with
  | nil => exact ⟨[], graph, rfl, hc⟩
  | cons qid qids ih =>
    obtain ⟨hqid, hnew⟩ := hqids qid List.mem_cons_self
    obtain ⟨hqid', hnodup⟩ := List.nodup_cons.mp hnodup
    obtain ⟨commit, hopen, -⟩ := hcomplete qid hqid
    obtain ⟨set, hadd⟩ := ObjectIdset.exists_add_of_subset hc hsub hqid hnew hroom
    obtain ⟨tips, graph', h, hc'⟩ := @ih { graph with nodeIds := set } (hc.add hadd hnew)
      (fun x hx => by
        rcases (ObjectIdset.mem_add hadd).mp hx with rfl | hx
        · exact hqid
        · exact hsub x hx)
      (fun x hx => by
        obtain ⟨hx', hxnew⟩ := hqids x (List.mem_cons_of_mem qid hx)
        refine ⟨hx', fun hmem => ?_⟩
        rcases (ObjectIdset.mem_add hadd).mp hmem with rfl | hmem
        · exact hqid' hx
        · exact hxnew hmem) hnodup
    refine ⟨⟨qid, commit⟩ :: tips, graph', ?_, hc'⟩
    rw [addBranchTips, hopen, ok_bind, addNode, hadd, ok_bind]
    show (addBranchTips repo { graph with nodeIds := set } qids >>= _) = _
    rw [h]
    rfl

end CommitGraph

namespace Traversal

open CommitGraph Relation

/-- **All of history is covered**: what was traversed was put into the list when
its tip was dealt with, and its parents are traversed as well or are open
branches. -/
structure Covers (repo : Repository ι) (startId : ι) (s : Traversal ι) : Prop
    extends Visits s where
  path : s.graph.path = []
  nodes_counted : s.graph.nodeIds.Counted
  start : startId ∈ s.graph.nodeIds ∨ startId ∈ s.graph.openBranches
  reached : ∀ x, x ∈ s.graph.nodeIds ∨ x ∈ s.graph.openBranches → repo.Reaches startId x
  pending_commit : ∀ tip ∈ s.pending, repo.gotObjectOpenAsCommit tip.commitId = .ok tip.commit
  listed_of : ∀ x ∈ s.graph.nodeIds, x ∉ s.pendingIds → x ∈ s.listed
  parents : ∀ x ∈ s.graph.nodeIds, x ∉ s.pendingIds → ∀ pid, repo.IsParent x pid →
    pid ∈ s.graph.nodeIds ∨ pid ∈ s.graph.openBranches

variable {repo : Repository ι} {fuel n enough : ℕ} {ids : Finset ι} {startId : ι}
  {s s' : Traversal ι} {graph graph' : CommitGraph ι} {tip : BranchTip ι}
  {tips : List (BranchTip ι)} {returned : List ι}

/-- The invariant holds at the start: the only open branch is where the traversal begins. -/
theorem Covers.of_started (h : Started [] false startId s) : Covers repo startId s := by
  have hvisits := Visits.of_started h
  obtain ⟨graph, hopen, rfl⟩ := h
  have h₁ := openBranch_spec ObjectIdset.counted_alloc ObjectIdset.not_mem_alloc hopen
  have hnode : graph.nodeIds = .alloc := h₁.nodeIds
  have hnot : ∀ x, x ∉ graph.nodeIds := fun x => hnode ▸ ObjectIdset.not_mem_alloc
  refine ⟨hvisits, h₁.path, ?_, Or.inr ((h₁.mem_iff startId).mpr (Or.inl rfl)), fun x hx => ?_,
    fun tip htip => absurd htip List.not_mem_nil, fun x hx => absurd hx (hnot x),
    fun x hx => absurd hx (hnot x)⟩
  · show graph.nodeIds.Counted
    rw [hnode]
    exact ObjectIdset.counted_alloc
  · rcases hx with hx | hx
    · exact absurd hx (hnot x)
    · rcases (h₁.mem_iff x).mp hx with rfl | hx
      · exact ReflTransGen.refl
      · exact absurd hx ObjectIdset.not_mem_alloc

/-- A sweep begins: every open branch becomes a tip. -/
theorem Covers.begin (h : Covers repo startId ⟨graph, [], returned⟩)
    (htips : addBranchTips repo graph graph.openBranches.entries = .ok (tips, graph'))
    (hc : graph'.nodeIds.Counted) : Covers repo startId ⟨graph', tips, returned⟩ := by
  obtain ⟨hids, hopen, hmem, hcommits⟩ := addBranchTips_spec htips
  have hframe := addBranchTips_frame htips
  have hpending : pendingIds ⟨graph', tips, returned⟩ = graph.openBranches.entries := hids
  have hlisted : listed ⟨graph', tips, returned⟩ = listed ⟨graph, [], returned⟩ := by
    unfold listed
    rw [hframe.iterList]
  -- what is traversed now and is not a tip was traversed before
  have hold : ∀ x ∈ graph'.nodeIds, x ∉ pendingIds ⟨graph', tips, returned⟩ →
      x ∈ graph.nodeIds := fun x hx hpend =>
    ((hmem x).mp hx).resolve_right fun hx => hpend (hpending ▸ hx)
  refine ⟨h.toVisits.begin htips, hframe.path.trans h.path, hc, ?_, fun x hx => h.reached x ?_,
    hcommits, fun x hx hpend => ?_, fun x hx hpend pid hpid => ?_⟩
  · exact h.start.imp (fun hx => (hmem startId).mpr (Or.inl hx)) (fun hx => hopen.symm ▸ hx)
  · rcases hx with hx | hx
    · exact (hmem x).mp hx
    · exact Or.inr (hopen ▸ hx)
  · rw [hlisted]
    exact h.listed_of x (hold x hx hpend) List.not_mem_nil
  · exact (h.parents x (hold x hx hpend) List.not_mem_nil pid hpid).imp
      (fun hx => (hmem pid).mpr (Or.inl hx)) (fun hx => hopen.symm ▸ hx)

/-- **Dealing with a tip**: it is put into the list, and its parents are traversed
or open then. -/
theorem Covers.exists_tip (hcomplete : repo.Complete ids) (hstart : startId ∈ ids)
    (hroom : ids.card ≤ GOT_OBJECT_IDSET_MAX_ELEM)
    (h : Covers repo startId ⟨graph, tip :: tips, returned⟩) :
    ∃ graph', sweepTip repo fuel graph tip = .ok graph'
      ∧ Covers repo startId ⟨graph', tips, returned⟩
      ∧ graph'.iterList.length = graph.iterList.length + 1 := by
  have hpath : graph.path = [] := h.path
  have hids : ∀ x, x ∈ graph.nodeIds ∨ x ∈ graph.openBranches → x ∈ ids := fun x hx =>
    hcomplete.reaches hstart (h.reached x hx)
  have htipPending : tip.commitId ∈ pendingIds ⟨graph, tip :: tips, returned⟩ :=
    List.mem_cons_self
  obtain ⟨htipOpen, htipNode⟩ := (h.mem_pending _).mp htipPending
  have htipCommit := h.pending_commit tip List.mem_cons_self
  have hparents : ∀ pid ∈ tip.commit.parentIds, repo.IsParent tip.commitId pid :=
    fun pid hpid => ⟨tip.commit, htipCommit, hpid⟩
  -- the sweep succeeds
  let graph₀ := graph.addNodeToIterList ⟨tip.commitId, tip.commit.committerTime⟩
  have hc₀ : graph₀.openBranches.Counted := h.counted
  have hall₀ : graph₀.firstParentTraversal = false := h.all
  obtain ⟨graph₁, hclose⟩ := exists_closeBranch hc₀ tip.commitId
  have h₁ := closeBranch_spec hc₀ hclose
  obtain ⟨graph', hopen⟩ := @exists_openParents ι _ graph₁ ids tip.commit.parentIds hroom h₁.counted
    (fun x hx => hids x (Or.inr ((h₁.mem_iff x).mp hx).2))
    (fun x hx => hcomplete.reaches (hids _ (Or.inl htipNode))
      (ReflTransGen.single (hparents x hx)))
  have hadvance : advanceBranch repo fuel graph₀ tip.commitId tip.commit = .ok graph' := by
    rw [advanceBranch, hclose, ok_bind, h₁.firstParentTraversal, hall₀,
      if_neg Bool.false_ne_true, if_neg (fun hmerge => hmerge.2 (h₁.path.trans hpath)), hopen]
  have hsweep : sweepTip repo fuel graph tip = .ok graph' := by
    rw [sweepTip, hpath, detectChangedPath_root]
    dsimp only
    rw [if_pos rfl]
    exact hadvance
  have hopened := advanceBranch_root_spec hall₀ hpath hc₀ hadvance
  have hnode : graph'.nodeIds = graph.nodeIds := hopened.nodeIds
  have hlist : graph'.iterList = insertBehind _ graph.iterList := hopened.iterList
  have hvisits : Visits ⟨graph', tips, returned⟩ := h.toVisits.tip (fun tip htip _ qid hqid => by
    unfold mergeCreator at hqid
    rw [if_neg (fun hmerge => hmerge.2 hpath)] at hqid
    cases hqid) hsweep
  have hpending : ∀ x, x ∉ pendingIds ⟨graph', tips, returned⟩ → x = tip.commitId
      ∨ x ∉ pendingIds ⟨graph, tip :: tips, returned⟩ := by
    intro x hx
    by_cases heq : x = tip.commitId
    · exact Or.inl heq
    · exact Or.inr fun hmem => (List.mem_cons.mp hmem).elim heq hx
  have hperm : (listed ⟨graph', tips, returned⟩).Perm
      (tip.commitId :: listed ⟨graph, tip :: tips, returned⟩) := by
    unfold listed
    rw [hlist]
    exact (((perm_insertBehind _ graph.iterList).map CommitGraphNode.id).append_left
      returned).trans List.perm_middle
  -- an open branch stays open, or its commit is traversed
  have hstay : ∀ x, x ∈ graph.nodeIds ∨ x ∈ graph.openBranches →
      x ∈ graph'.nodeIds ∨ x ∈ graph'.openBranches := by
    rintro x (hx | hx)
    · exact Or.inl (hnode.symm ▸ hx)
    · by_cases heq : x = tip.commitId
      · exact Or.inl (hnode.symm ▸ heq ▸ htipNode)
      · exact Or.inr ((hopened.mem_iff x).mpr (Or.inl ⟨heq, hx⟩))
  refine ⟨graph', hsweep, ⟨hvisits, hopened.path.trans hpath, ?_, hstay _ h.start, fun x hx => ?_,
    fun tip htip => h.pending_commit tip (List.mem_cons_of_mem _ htip), fun x hx hpend => ?_,
    fun x hx hpend pid hpid => ?_⟩, ?_⟩
  · show graph'.nodeIds.Counted
    rw [hnode]
    exact h.nodes_counted
  · rcases hx with hx | hx
    · exact h.reached x (Or.inl (hnode ▸ hx))
    · rcases (hopened.mem_iff x).mp hx with ⟨-, hx⟩ | ⟨hx, -⟩
      · exact h.reached x (Or.inr hx)
      · exact ReflTransGen.tail (h.reached _ (Or.inl htipNode)) (hparents x hx)
  · rw [hperm.mem_iff]
    rcases hpending x hpend with rfl | hpend
    · exact List.mem_cons_self
    · exact List.mem_cons_of_mem _ (h.listed_of x (hnode ▸ hx) hpend)
  · rcases hpending x hpend with rfl | hpend
    · obtain ⟨commit, hcommit, hpid⟩ := hpid
      rw [htipCommit] at hcommit
      obtain rfl := Except.ok.inj hcommit
      by_cases hnew : pid ∈ graph.nodeIds
      · exact Or.inl (hnode.symm ▸ hnew)
      · exact Or.inr ((hopened.mem_iff pid).mpr (Or.inr ⟨hpid, hnew⟩))
    · exact hstay pid (h.parents x (hnode ▸ hx) hpend pid hpid)
  · rw [hlist, (perm_insertBehind _ graph.iterList).length_eq, List.length_cons]

/-- Returning the first node keeps the invariant, since what it reaches is already known. -/
theorem Covers.next {node : CommitGraphNode ι} {rest : List (CommitGraphNode ι)}
    (h : Covers repo startId ⟨graph, [], returned⟩) (hlist : graph.iterList = node :: rest) :
    Covers repo startId ⟨{ graph with iterList := rest }, [], returned ++ [node.id]⟩ := by
  have hvisits := @Visits.step ι _ repo 0 _ _ h.toVisits (fun tip htip => (nomatch htip))
    (Step.next hlist)
  have hlisted : listed ⟨{ graph with iterList := rest }, [], returned ++ [node.id]⟩
      = listed ⟨graph, [], returned⟩ := by
    unfold listed
    rw [show graph.iterList = node :: rest from hlist]
    simp
  exact ⟨hvisits, h.path, h.nodes_counted, h.start, h.reached, h.pending_commit,
    hlisted ▸ h.listed_of, h.parents⟩

/-! ## Termination -/

/-- A whole sweep succeeds, keeps the invariant and adds one node to the list for each tip. -/
theorem Covers.exists_sweepTips (hcomplete : repo.Complete ids) (hstart : startId ∈ ids)
    (hroom : ids.card ≤ GOT_OBJECT_IDSET_MAX_ELEM)
    (h : Covers repo startId ⟨graph, tips, returned⟩) :
    ∃ graph', sweepTips repo fuel graph tips = .ok graph'
      ∧ Covers repo startId ⟨graph', [], returned⟩
      ∧ graph'.iterList.length = graph.iterList.length + tips.length := by
  induction tips generalizing graph with
  | nil => exact ⟨graph, rfl, h, rfl⟩
  | cons tip tips ih =>
    obtain ⟨graph₁, htip, h₁, hlen₁⟩ := h.exists_tip hcomplete hstart hroom
    obtain ⟨graph', htips, h', hlen⟩ := ih h₁
    refine ⟨graph', ?_, h', ?_⟩
    · rw [sweepTips, htip]
      exact htips
    · rw [hlen, hlen₁, List.length_cons]
      omega

/-- **A sweep** puts something into the list. -/
theorem Covers.exists_fetch (hcomplete : repo.Complete ids) (hstart : startId ∈ ids)
    (hroom : ids.card ≤ GOT_OBJECT_IDSET_MAX_ELEM)
    (h : Covers repo startId ⟨graph, [], returned⟩) (hopen : 0 < graph.openBranches.numElements) :
    ∃ graph', fetchCommitsFromOpenBranches repo fuel graph = .ok graph'
      ∧ Covers repo startId ⟨graph', [], returned⟩
      ∧ graph.iterList.length < graph'.iterList.length := by
  have hids : ∀ x, x ∈ graph.nodeIds ∨ x ∈ graph.openBranches → x ∈ ids := fun x hx =>
    hcomplete.reaches hstart (h.reached x hx)
  have hnew : ∀ x ∈ graph.openBranches, x ∉ graph.nodeIds := fun x hx hnode =>
    List.not_mem_nil ((h.mem_pending x).mpr ⟨hx, hnode⟩)
  obtain ⟨tips, graph₁, htips, hc⟩ := @exists_addBranchTips ι _ repo graph ids
    graph.openBranches.entries hcomplete hroom h.nodes_counted (fun x hx => hids x (Or.inl hx))
    (fun x hx => ⟨hids x (Or.inr hx), hnew x hx⟩) graph.openBranches.nodup
  obtain ⟨graph', hsweep, h', hlen⟩ := @Covers.exists_sweepTips ι _ repo fuel ids startId graph₁
    tips returned hcomplete hstart hroom (h.begin htips hc)
  refine ⟨graph', ?_, h', ?_⟩
  · rw [fetchCommitsFromOpenBranches, if_neg (Nat.ne_of_gt hopen), htips, ok_bind]
    exact hsweep
  · have hcount : tips.length = graph.openBranches.totelem := by
      rw [show graph.openBranches.totelem = _ from h.counted, ← (addBranchTips_spec htips).1,
        List.length_map]
    rw [hlen, (addBranchTips_frame htips).iterList, hcount]
    exact Nat.lt_add_of_pos_right hopen

/-- Fetching sweeps until there are enough nodes, or until no branch is open. -/
theorem Covers.exists_fetchUntil (hcomplete : repo.Complete ids) (hstart : startId ∈ ids)
    (hroom : ids.card ≤ GOT_OBJECT_IDSET_MAX_ELEM)
    (h : Covers repo startId ⟨graph, [], returned⟩) (henough : enough ≤ graph.iterList.length + 1) :
    ∃ graph', fetchUntil repo fuel enough graph (n + 2) = .ok graph'
      ∧ Covers repo startId ⟨graph', [], returned⟩
      ∧ (graph'.iterList.length < enough → graph'.openBranches.numElements = 0) := by
  by_cases hmore : graph.iterList.length < enough ∧ graph.openBranches.numElements > 0
  · obtain ⟨graph', hfetch, h', hlen⟩ := @Covers.exists_fetch ι _ repo fuel ids startId graph
      returned hcomplete hstart hroom h hmore.2
    refine ⟨graph', ?_, h', fun hlt => absurd hlt (by omega)⟩
    rw [fetchUntil_fetch hmore.1 hmore.2 hfetch, fetchUntil_enough (fun hmore => by omega)]
  · refine ⟨graph, fetchUntil_enough hmore, h, fun hlt => ?_⟩
    exact Nat.eq_zero_of_not_pos fun hopen => hmore ⟨hlt, hopen⟩

/-- **The first node is returned**, and if none is left there are no open
branches either. -/
theorem Covers.exists_iterNext (hcomplete : repo.Complete ids) (hstart : startId ∈ ids)
    (hroom : ids.card ≤ GOT_OBJECT_IDSET_MAX_ELEM) (hfuel : 2 ≤ fuel) {node : CommitGraphNode ι}
    {rest : List (CommitGraphNode ι)} (h : Covers repo startId ⟨graph, [], returned⟩)
    (hlist : graph.iterList = node :: rest) :
    ∃ graph', gotCommitGraphIterNext repo fuel graph = .ok (node.id, graph')
      ∧ Covers repo startId ⟨graph', [], returned ++ [node.id]⟩
      ∧ (graph'.iterList = [] → graph'.openBranches.numElements = 0) := by
  obtain ⟨n, rfl⟩ := Nat.exists_eq_add_of_le' hfuel
  obtain ⟨graph₁, hfetch, h₁, hopen⟩ := @Covers.exists_fetchUntil ι _ repo (n + 2) n 2 ids startId
    graph returned hcomplete hstart hroom h (by rw [hlist, List.length_cons]; omega)
  obtain ⟨rest₁, hlist₁⟩ : ∃ rest₁, graph₁.iterList = node :: rest₁ :=
    List.head?_eq_some_iff.mp ((@steps_fetchUntil _ _ _ _ _ _ _ _ returned hfetch).head?
      rfl (show graph.iterList.head? = _ by rw [hlist]; rfl))
  refine ⟨{ graph₁ with iterList := rest₁ }, ?_, h₁.next hlist₁, fun hnil => hopen ?_⟩
  · unfold gotCommitGraphIterNext
    rw [hlist]
    dsimp only
    rw [hfetch, ok_bind, hlist₁]
    rfl
  · rw [hlist₁, show rest₁ = [] from hnil]
    exact Nat.one_lt_two

/-- What was returned is part of the history. -/
theorem Covers.length_returned (hcomplete : repo.Complete ids) (hstart : startId ∈ ids)
    (h : Covers repo startId s) : s.returned.length ≤ ids.card := by
  have hnodup := (List.nodup_append.mp h.listed_nodup).1
  rw [← List.toFinset_card_of_nodup hnodup]
  refine Finset.card_le_card fun x hx => hcomplete.reaches hstart (h.reached x (Or.inl ?_))
  exact (h.of_listed x (List.mem_append_left _ (List.mem_toFinset.mp hx))).1

/-- **All that is left is returned**, with enough calls. -/
theorem Covers.exists_iterAll (hcomplete : repo.Complete ids) (hstart : startId ∈ ids)
    (hroom : ids.card ≤ GOT_OBJECT_IDSET_MAX_ELEM) (hfuel : 2 ≤ fuel)
    (h : Covers repo startId ⟨graph, [], returned⟩)
    (hopen : graph.iterList = [] → graph.openBranches.numElements = 0)
    (hn : ids.card < n + returned.length) :
    ∃ l graph', iterAll repo fuel graph n = .ok l
      ∧ Covers repo startId ⟨graph', [], returned ++ l⟩ ∧ graph'.iterList = []
      ∧ graph'.openBranches.numElements = 0 := by
  induction n generalizing graph returned with
  | zero =>
    have hle : returned.length ≤ ids.card := h.length_returned hcomplete hstart
    omega
  | succ n ih =>
    rw [iterAll]
    cases hlist : graph.iterList with
    | nil =>
      have hcompleted : gotCommitGraphIterNext repo fuel graph = .error .iterCompleted := by
        unfold gotCommitGraphIterNext
        rw [hlist]
      rw [hcompleted]
      exact ⟨[], graph, rfl, by rwa [List.append_nil], hlist, hopen hlist⟩
    | cons node rest =>
      obtain ⟨graph₁, hnext, h₁, hopen₁⟩ := h.exists_iterNext hcomplete hstart hroom hfuel hlist
      obtain ⟨l, graph', hall, h', hlist', hopen'⟩ := ih h₁ hopen₁
        (by rw [List.length_append, List.length_singleton]; omega)
      rw [hnext]
      refine ⟨node.id :: l, graph', ?_, ?_, hlist', hopen'⟩
      · show (iterAll repo fuel graph₁ n >>= _) = _
        rw [hall]
        rfl
      · rwa [List.append_assoc] at h'

/-- Nothing is open that is not counted. -/
theorem Visits.not_open (h : Visits s) (hopen : s.graph.openBranches.numElements = 0) (x : ι) :
    x ∉ s.graph.openBranches := by
  have hlen : s.graph.openBranches.entries.length = 0 := h.counted.symm.trans hopen
  rw [ObjectIdset.mem_def, List.eq_nil_of_length_eq_zero hlen]
  exact List.not_mem_nil

/-- **At the end**, all that history leads to was returned. -/
theorem Covers.mem_returned_iff (h : Covers repo startId ⟨graph, [], returned⟩)
    (hlist : graph.iterList = []) (hopen : graph.openBranches.numElements = 0) (x : ι) :
    x ∈ returned ↔ repo.Reaches startId x := by
  have hclosed : ∀ x, x ∉ graph.openBranches := h.not_open hopen
  have hlisted : listed ⟨graph, [], returned⟩ = returned := by
    unfold listed
    rw [hlist]
    exact List.append_nil returned
  have hmem : ∀ x, x ∈ returned ↔ x ∈ graph.nodeIds := fun x =>
    ⟨fun hx => (h.of_listed x (hlisted.symm ▸ hx)).1,
      fun hx => hlisted ▸ h.listed_of x hx List.not_mem_nil⟩
  rw [hmem]
  refine ⟨fun hx => h.reached x (Or.inl hx), fun hx => ?_⟩
  induction hx with
  | refl => exact h.start.resolve_right (hclosed _)
  | tail _ hparent ih =>
    exact (h.parents _ ih List.not_mem_nil _ hparent).resolve_right (hclosed _)

/-- **A traversal with all parents** returns what history leads to, once. -/
theorem exists_traverse_root (hcomplete : repo.Complete ids) (hstart : startId ∈ ids)
    (hroom : ids.card ≤ GOT_OBJECT_IDSET_MAX_ELEM) (hfuel : ids.card + 2 ≤ fuel) :
    ∃ l, traverse repo [] false fuel startId = .ok l ∧ l.Nodup
      ∧ ∀ x, x ∈ l ↔ repo.Reaches startId x := by
  obtain ⟨n, rfl⟩ := Nat.exists_eq_add_of_le' (show 2 ≤ fuel by omega)
  obtain ⟨graph₁, hopen, -⟩ :=
    @openBranch_of_empty ι _ (gotCommitGraphOpen [] false) rfl rfl startId
  have h₁ : Covers repo startId ⟨graph₁, [], []⟩ := Covers.of_started ⟨graph₁, hopen, rfl⟩
  obtain ⟨graph₂, hfetch, h₂, hclosed⟩ := @Covers.exists_fetchUntil ι _ repo (n + 2) n 1 ids startId
    graph₁ [] hcomplete hstart hroom h₁ (by omega)
  -- the start commit is in the list
  have hlist : graph₂.iterList ≠ [] := fun hnil => by
    have hopen₂ := hclosed (by rw [hnil]; exact Nat.one_pos)
    have hmem := (h₂.mem_returned_iff hnil hopen₂ startId).mpr ReflTransGen.refl
    exact List.not_mem_nil hmem
  obtain ⟨l, graph', hall, h', hlist', hopen'⟩ := h₂.exists_iterAll (n := n + 2) hcomplete hstart
    hroom (Nat.le_add_left 2 n) (fun hnil => absurd hnil hlist)
    (show ids.card < n + 2 + 0 by omega)
  refine ⟨l, ?_, (List.nodup_append.mp h'.listed_nodup).1, h'.mem_returned_iff hlist' hopen'⟩
  unfold CommitGraph.traverse gotCommitGraphIterStart
  rw [if_neg (show ¬(gotCommitGraphOpen [] false : CommitGraph ι).iterList ≠ [] from
    not_not.mpr rfl), hopen, ok_bind, hfetch, ok_bind, if_neg hlist]
  exact hall

/-! ## First parents -/

/-- **All that is left of a chain is returned.** -/
theorem iterAll_firstParent {rest : List ι} (hfuel : 2 ≤ fuel) (h : Remaining repo graph rest)
    (hn : rest.length < n) : iterAll repo fuel graph n = .ok rest := by
  induction rest generalizing graph n with
  | nil =>
    obtain ⟨n, rfl⟩ := Nat.exists_eq_succ_of_ne_zero (Nat.ne_of_gt hn)
    rw [iterAll, iterNext_completed h]
  | cons id rest ih =>
    obtain ⟨n, rfl⟩ := Nat.exists_eq_succ_of_ne_zero (Nat.ne_of_gt (Nat.zero_lt_of_lt hn))
    obtain ⟨graph₁, hnext, h₁⟩ := iterNext_firstParent hfuel h
    rw [iterAll, hnext]
    show (iterAll repo fuel graph₁ n >>= _) = _
    rw [ih h₁ (Nat.lt_of_succ_lt_succ hn)]
    rfl

/-- **A traversal of the root** of an acyclic history returns all that history
leads to, each commit once, and with first parents the first-parent chain in its
order. -/
theorem traverse_root (hcomplete : repo.Complete ids) (hacyclic : repo.Acyclic)
    (hstart : startId ∈ ids) (hroom : ids.card ≤ GOT_OBJECT_IDSET_MAX_ELEM)
    (hfuel : ids.card + 2 ≤ fuel) :
    (∃ l, traverse repo [] false fuel startId = .ok l ∧ l.Nodup
      ∧ ∀ x, x ∈ l ↔ repo.Reaches startId x)
      ∧ ∃ chain, traverse repo [] true fuel startId = .ok chain ∧ chain.Nodup
        ∧ repo.FirstParentChain startId chain := by
  refine ⟨exists_traverse_root hcomplete hstart hroom hfuel, ?_⟩
  obtain ⟨chain, hchain⟩ := Repository.exists_firstParentChain hcomplete hacyclic hstart
  have hlen := hchain.length_le hcomplete hacyclic hstart
  obtain ⟨graph, hiter, h⟩ := iterStart_firstParent (by omega : 2 ≤ fuel) hchain
    (hlen.trans hroom)
  refine ⟨chain, ?_, hchain.nodup hacyclic, hchain⟩
  rw [CommitGraph.traverse, hiter, ok_bind]
  exact iterAll_firstParent (by omega) h (by omega)

/-- Two branches with a common ancestor. -/
def diamond : Repository ℕ :=
  .ofCommits [emptyCommit 40 [1, 2], emptyCommit 30 [3], emptyCommit 20 [3], emptyCommit 10 []]

/-- The four commits of the diamond are the whole history. -/
theorem diamond_complete : diamond.Complete {0, 1, 2, 3} := by
  intro commitId hid
  simp only [Finset.mem_insert, Finset.mem_singleton] at hid
  rcases hid with rfl | rfl | rfl | rfl
  · exact ⟨emptyCommit 40 [1, 2], rfl, by decide⟩
  · exact ⟨emptyCommit 30 [3], rfl, by decide⟩
  · exact ⟨emptyCommit 20 [3], rfl, by decide⟩
  · exact ⟨emptyCommit 10 [], rfl, by decide⟩

/-- The diamond of four commits has no cycle. -/
theorem diamond_acyclic : diamond.Acyclic := by
  refine Repository.acyclic_of_lt fun commitId pid ⟨commit, hopen, hpid⟩ => ?_
  have hlt : ∀ p ∈ commit.parentIds, commitId < p := by
    match commitId with
    | 0 => obtain rfl := Except.ok.inj hopen; decide
    | 1 => obtain rfl := Except.ok.inj hopen; decide
    | 2 => obtain rfl := Except.ok.inj hopen; decide
    | 3 => obtain rfl := Except.ok.inj hopen; decide
    | _ + 4 => exact nomatch hopen
  exact hlt pid hpid

theorem traverse_root_diamond :
    (∃ l, traverse diamond [] false 6 0 = .ok l ∧ l.Nodup ∧ ∀ x, x ∈ l ↔ diamond.Reaches 0 x)
      ∧ ∃ chain, traverse diamond [] true 6 0 = .ok chain ∧ chain.Nodup
        ∧ diamond.FirstParentChain 0 chain :=
  traverse_root diamond_complete diamond_acyclic (by decide) (by decide) (by decide)

end Traversal

end Got

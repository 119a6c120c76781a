import Mathlib.Data.List.Chain
import Got.CommitGraph.Runs

/-!
# Commits are visited once

With all parents, a commit is put into the list when it is traversed, and a commit
that was traversed is not to become an open branch again. Then the tips of a
sweep that is going on are those commits which are open and traversed both, and
nothing is put into the list twice (`Visits`).

`advance_branch` looks for it in all places but one: where one parent of a merge
has created the content of the merge at the path, its branch is opened without
asking whether it was traversed. So the commits of a run are visited once if and only
if no such parent was traversed before (`visits_iff`). It may have been, if there
is another way to it (`reopened_returned_twice`).
-/

namespace Got

variable {ι : Type} [LinearOrder ι]

namespace CommitGraph

variable {repo : Repository ι} {graph graph' : CommitGraph ι} {ids : List ι}
  {tips : List (BranchTip ι)}

/-- **The tips of a sweep** are the open branches, which are traversed then. -/
theorem addBranchTips_spec (h : addBranchTips repo graph ids = .ok (tips, graph')) :
    tips.map BranchTip.commitId = ids ∧ graph'.openBranches = graph.openBranches
      ∧ (∀ x, x ∈ graph'.nodeIds ↔ x ∈ graph.nodeIds ∨ x ∈ ids)
      ∧ ∀ tip ∈ tips, repo.gotObjectOpenAsCommit tip.commitId = .ok tip.commit := by
  induction ids generalizing graph tips with
  | nil =>
    obtain ⟨rfl, rfl⟩ := Prod.mk.inj (Except.ok.inj h)
    exact ⟨rfl, rfl, fun x => ⟨Or.inl, fun hx => hx.resolve_right List.not_mem_nil⟩,
      fun tip htip => absurd htip List.not_mem_nil⟩
  | cons commitId ids ih =>
    obtain ⟨commit, hcommit, h⟩ := bind_eq_ok_iff.mp h
    obtain ⟨graph₁, hnode, h⟩ := bind_eq_ok_iff.mp h
    obtain ⟨⟨tips', graph₂⟩, htips, h⟩ := bind_eq_ok_iff.mp h
    obtain ⟨rfl, rfl⟩ := Prod.mk.inj (Except.ok.inj h)
    obtain ⟨nodeIds, hadd, hnode⟩ := bind_eq_ok_iff.mp hnode
    obtain rfl := Except.ok.inj hnode
    obtain ⟨hids, hopen, hmem, hcommits⟩ := ih htips
    refine ⟨by rw [List.map_cons, hids], hopen, fun x => ?_, fun tip htip => ?_⟩
    · rw [hmem, ObjectIdset.mem_add hadd, List.mem_cons]
      tauto
    · rcases List.mem_cons.mp htip with rfl | htip
      · exact hcommit
      · exact hcommits tip htip

/-- Dealing with a tip does not traverse anything, with all parents. -/
theorem sweepTip_nodeIds {fuel : ℕ} {tip : BranchTip ι} (hall : graph.firstParentTraversal = false)
    (hc : graph.openBranches.Counted) (h : sweepTip repo fuel graph tip = .ok graph') :
    graph'.nodeIds = graph.nodeIds := by
  rcases sweepTip_cases h with ⟨-, hclose⟩ | ⟨changed, graph₁, -, rfl, hadvance⟩
  · exact (closeBranch_spec hc hclose).nodeIds
  · cases changed with
    | true =>
      have hall' : (graph.addNodeToIterList
        ⟨tip.commitId, tip.commit.committerTime⟩).firstParentTraversal = false := hall
      obtain ⟨p, hopened, -⟩ := advanceBranch_spec hall' hc hadvance
      exact hopened.nodeIds
    | false =>
      obtain ⟨p, hopened, -⟩ := advanceBranch_spec hall hc hadvance
      exact hopened.nodeIds

end CommitGraph

namespace Traversal

open CommitGraph Relation

/-- **Commits are visited once**: what is open and traversed are the tips of
the sweep that is going on, and what was put into the list was traversed, and is
there once. -/
structure Visits (s : Traversal ι) : Prop where
  all : s.graph.firstParentTraversal = false
  counted : s.graph.openBranches.Counted
  pending_nodup : s.pendingIds.Nodup
  mem_pending : ∀ x, x ∈ s.pendingIds ↔ x ∈ s.graph.openBranches ∧ x ∈ s.graph.nodeIds
  listed_nodup : s.listed.Nodup
  of_listed : ∀ x ∈ s.listed, x ∈ s.graph.nodeIds ∧ x ∉ s.pendingIds

/-- **What visiting once relies on**: if the tip that is dealt with next is a
merge and one of its parents created the content at the path, then that parent was
not traversed. Nothing is asked of a tip whose branch is only closed, as the history
of the path stops there. -/
def MergeCreatorNew (repo : Repository ι) (s : Traversal ι) : Prop :=
  ∀ tip ∈ s.pending.head?,
    (detectChangedPath repo tip.commit tip.commitId s.graph.path).isOk = true →
      ∀ qid ∈ mergeCreator repo s.graph tip.commitId tip.commit, qid ∉ s.graph.nodeIds

instance (repo : Repository ι) (s : Traversal ι) : Decidable (MergeCreatorNew repo s) :=
  inferInstanceAs (Decidable (∀ tip ∈ s.pending.head?,
    (detectChangedPath repo tip.commit tip.commitId s.graph.path).isOk = true →
      ∀ qid ∈ mergeCreator repo s.graph tip.commitId tip.commit, qid ∉ s.graph.nodeIds.entries))

variable {repo : Repository ι} {fuel : ℕ} {s s' : Traversal ι}

/-- Before the first step only the start of the traversal is open, and nothing was visited. -/
theorem Visits.of_started {path : List Name} {startId : ι} (h : Started path false startId s) :
    Visits s := by
  obtain ⟨graph, hopen, rfl⟩ := h
  have h₁ := openBranch_spec ObjectIdset.counted_alloc ObjectIdset.not_mem_alloc hopen
  have hnode : ∀ x, x ∉ graph.nodeIds := fun x => h₁.nodeIds ▸ ObjectIdset.not_mem_alloc
  have hlist : graph.iterList = [] := h₁.iterList
  refine ⟨h₁.firstParentTraversal, h₁.counted, List.nodup_nil, fun x => ?_, ?_, ?_⟩
  · exact ⟨fun hx => absurd hx List.not_mem_nil, fun hx => absurd hx.2 (hnode x)⟩
  · show (graph.iterList.map CommitGraphNode.id).Nodup
    rw [hlist]
    exact List.nodup_nil
  · show ∀ x ∈ graph.iterList.map CommitGraphNode.id, _
    rw [hlist]
    exact fun x hx => absurd hx List.not_mem_nil

/-- The tips of a sweep that begins were not traversed before. -/
theorem Visits.begin {graph graph' : CommitGraph ι} {tips : List (BranchTip ι)}
    {returned : List ι} (h : Visits ⟨graph, [], returned⟩)
    (htips : addBranchTips repo graph graph.openBranches.entries = .ok (tips, graph')) :
    Visits ⟨graph', tips, returned⟩ := by
  obtain ⟨hids, hopen, hmem, -⟩ := addBranchTips_spec htips
  have hframe := addBranchTips_frame htips
  have hnew : ∀ x ∈ graph.openBranches, x ∉ graph.nodeIds := fun x hx hnode =>
    List.not_mem_nil ((h.mem_pending x).mpr ⟨hx, hnode⟩)
  have hpending : pendingIds ⟨graph', tips, returned⟩ = graph.openBranches.entries := hids
  refine ⟨hframe.firstParentTraversal.trans h.all, hopen ▸ h.counted, ?_, fun x => ?_, ?_,
    fun x hx => ?_⟩
  · rw [hpending]
    exact graph.openBranches.nodup
  · rw [hpending, hopen, hmem]
    exact ⟨fun hx => ⟨hx, Or.inr hx⟩, fun hx => hx.1⟩
  · show (returned ++ graph'.iterList.map CommitGraphNode.id).Nodup
    rw [hframe.iterList]
    exact h.listed_nodup
  · have hx : x ∈ listed ⟨graph, [], returned⟩ := by
      unfold listed at hx ⊢
      rwa [← hframe.iterList]
    have hnode := (h.of_listed x hx).1
    rw [hpending, hmem]
    exact ⟨Or.inl hnode, fun hx => hnew x hx hnode⟩

/-- A tip that was dealt with is no longer open, and only commits that were not
traversed are opened in its place. -/
theorem Visits.of_opened {graph graph₁ graph' : CommitGraph ι} {tip : BranchTip ι}
    {tips : List (BranchTip ι)} {returned : List ι} {p : ι → Prop}
    (h : Visits ⟨graph, tip :: tips, returned⟩)
    (hlist : graph₁ = graph ∨ ∃ time, graph₁ = graph.addNodeToIterList ⟨tip.commitId, time⟩)
    (hopened : Opened graph₁ graph'
      (fun x => (x ≠ tip.commitId ∧ x ∈ graph₁.openBranches) ∨ p x))
    (hp : ∀ x, p x → x ∉ graph₁.nodeIds) : Visits ⟨graph', tips, returned⟩ := by
  have hsame : graph₁.openBranches = graph.openBranches ∧ graph₁.nodeIds = graph.nodeIds
      ∧ graph₁.firstParentTraversal = graph.firstParentTraversal := by
    rcases hlist with rfl | ⟨time, rfl⟩ <;> exact ⟨rfl, rfl, rfl⟩
  obtain ⟨hopen, hnodes, hfirst⟩ := hsame
  have hnode : graph'.nodeIds = graph.nodeIds := hopened.nodeIds.trans hnodes
  obtain ⟨htip, htips⟩ := List.nodup_cons.mp h.pending_nodup
  have hmem : ∀ x, x ∈ pendingIds ⟨graph, tip :: tips, returned⟩
      ↔ x = tip.commitId ∨ x ∈ pendingIds ⟨graph', tips, returned⟩ := fun x => List.mem_cons
  -- the list is the one before, or has the tip in it
  have hperm : (listed ⟨graph', tips, returned⟩).Perm (listed ⟨graph, tip :: tips, returned⟩)
      ∨ (listed ⟨graph', tips, returned⟩).Perm
        (tip.commitId :: listed ⟨graph, tip :: tips, returned⟩) := by
    unfold listed
    rw [hopened.iterList]
    rcases hlist with rfl | ⟨time, rfl⟩
    · exact Or.inl (List.Perm.refl _)
    · have hins := (perm_insertBehind ⟨tip.commitId, time⟩ graph.iterList).map CommitGraphNode.id
      exact Or.inr ((hins.append_left returned).trans List.perm_middle)
  have htipPending : tip.commitId ∈ pendingIds ⟨graph, tip :: tips, returned⟩ :=
    List.mem_cons_self
  have htipListed : tip.commitId ∉ listed ⟨graph, tip :: tips, returned⟩ := fun hx =>
    (h.of_listed _ hx).2 htipPending
  have hlisted : ∀ x ∈ listed ⟨graph', tips, returned⟩,
      x = tip.commitId ∨ x ∈ listed ⟨graph, tip :: tips, returned⟩ := by
    intro x hx
    rcases hperm with hperm | hperm
    · exact Or.inr (hperm.mem_iff.mp hx)
    · exact List.mem_cons.mp (hperm.mem_iff.mp hx)
  refine ⟨hopened.firstParentTraversal.trans (hfirst.trans h.all), hopened.counted, htips,
    fun x => ?_, ?_, fun x hx => ?_⟩
  · show x ∈ pendingIds ⟨graph', tips, returned⟩ ↔ x ∈ graph'.openBranches ∧ x ∈ graph'.nodeIds
    have hpending := h.mem_pending x
    rw [hmem] at hpending
    rw [hopened.mem_iff, hopen, hnode]
    constructor
    · intro hx
      obtain ⟨hxopen, hxnode⟩ := hpending.mp (Or.inr hx)
      exact ⟨Or.inl ⟨fun heq => htip (heq ▸ hx), hxopen⟩, hxnode⟩
    · rintro ⟨⟨hne, hxopen⟩ | hpx, hxnode⟩
      · exact (hpending.mpr ⟨hxopen, hxnode⟩).resolve_left hne
      · exact absurd hxnode (hnodes ▸ hp x hpx)
  · rcases hperm with hperm | hperm
    · exact hperm.nodup_iff.mpr h.listed_nodup
    · exact hperm.nodup_iff.mpr (List.nodup_cons.mpr ⟨htipListed, h.listed_nodup⟩)
  · show x ∈ graph'.nodeIds ∧ x ∉ pendingIds ⟨graph', tips, returned⟩
    rw [hnode]
    rcases hlisted x hx with rfl | hx
    · exact ⟨((h.mem_pending _).mp htipPending).2, htip⟩
    · obtain ⟨hxnode, hxpending⟩ := h.of_listed x hx
      exact ⟨hxnode, fun hx => hxpending ((hmem x).mpr (Or.inr hx))⟩

/-- One tip of a sweep keeps the invariant, when the creator of a merge was not traversed before. -/
theorem Visits.tip {graph graph' : CommitGraph ι} {tip : BranchTip ι} {tips : List (BranchTip ι)}
    {returned : List ι} (h : Visits ⟨graph, tip :: tips, returned⟩)
    (hok : MergeCreatorNew repo ⟨graph, tip :: tips, returned⟩)
    (htip : sweepTip repo fuel graph tip = .ok graph') : Visits ⟨graph', tips, returned⟩ := by
  rcases sweepTip_cases htip with ⟨-, hclose⟩ | ⟨changed, graph₁, hdetect, hgraph₁, hadvance⟩
  · exact h.of_opened (p := fun _ => False) (Or.inl rfl)
      ((closeBranch_spec h.counted hclose).congr fun x => (or_false _).symm ▸ Iff.rfl)
      (fun x hx => hx.elim)
  · have hlist : graph₁ = graph
        ∨ ∃ time, graph₁ = graph.addNodeToIterList ⟨tip.commitId, time⟩ := by
      rw [hgraph₁]
      cases changed with
      | true => exact Or.inr ⟨_, rfl⟩
      | false => exact Or.inl rfl
    have hsame : graph₁.openBranches = graph.openBranches ∧ graph₁.nodeIds = graph.nodeIds
        ∧ graph₁.firstParentTraversal = graph.firstParentTraversal ∧ graph₁.path = graph.path := by
      rcases hlist with rfl | ⟨time, rfl⟩ <;> exact ⟨rfl, rfl, rfl, rfl⟩
    obtain ⟨hopen, hnodes, hfirst, hpath⟩ := hsame
    obtain ⟨p, hopened, hp⟩ := advanceBranch_spec (hfirst.trans h.all) (hopen ▸ h.counted) hadvance
    refine h.of_opened hlist hopened fun x hpx hxnode => ?_
    -- a parent that was traversed is opened only if it created the content
    have hcreator := (hp x hpx).2 hxnode
    unfold mergeCreator at hcreator
    rw [hopen, hpath] at hcreator
    exact hok tip rfl (by rw [hdetect]; rfl) x hcreator (hnodes ▸ hxnode)

/-- One step of the traversal keeps what was visited apart from what is open. -/
theorem Visits.step (h : Visits s) (hok : MergeCreatorNew repo s) (hstep : Step repo fuel s s') :
    Visits s' := by
  cases hstep with
  | begin htips => exact h.begin htips
  | tip htip => exact h.tip hok htip
  | @next graph node rest returned hlist =>
    have hlisted : listed ⟨{ graph with iterList := rest }, [], returned ++ [node.id]⟩
        = listed ⟨graph, [], returned⟩ := by
      unfold listed
      rw [show graph.iterList = node :: rest from hlist]
      simp
    exact ⟨h.all, h.counted, h.pending_nodup, h.mem_pending, hlisted ▸ h.listed_nodup,
      hlisted ▸ h.of_listed⟩

/-- A traversed commit is only open while it is a tip of the sweep that is going on. -/
def OpenAreTips (s : Traversal ι) : Prop :=
  ∀ x ∈ s.graph.openBranches, x ∈ s.graph.nodeIds → x ∈ s.pendingIds

/-- **A step that opens no commit that was traversed**. -/
def OpensNew (s s' : Traversal ι) : Prop :=
  ∀ x ∈ s.graph.nodeIds, x ∉ s.graph.openBranches → x ∉ s'.graph.openBranches

theorem Visits.openAreTips (h : Visits s) : OpenAreTips s := fun x hopen hnode =>
  (h.mem_pending x).mpr ⟨hopen, hnode⟩

/-- Under the invariant a step reopens no branch of a node, when the creators of merges are new. -/
theorem Visits.opensNew (h : Visits s) (hok : MergeCreatorNew repo s)
    (hstep : Step repo fuel s s') : OpensNew s s' := by
  intro x hnode hopen hopen'
  have h' := h.step hok hstep
  cases hstep with
  | begin htips =>
    rw [(addBranchTips_spec htips).2.1] at hopen'
    exact hopen hopen'
  | next _ => exact hopen hopen'
  | tip htip =>
    -- it would be among the tips that are still pending, which are open
    have hnode' := (sweepTip_nodeIds h.all h.counted htip).symm ▸ hnode
    have hpending := (h'.mem_pending x).mpr ⟨hopen', hnode'⟩
    exact hopen ((h.mem_pending x).mp (List.mem_cons_of_mem _ hpending)).1

/-- **If the parent that created the content was traversed**, the step opens it, and it is no tip of
the sweep. -/
theorem Visits.mergeCreatorNew (h : Visits s) (hstep : Step repo fuel s s')
    (h' : OpenAreTips s') : MergeCreatorNew repo s := by
  intro tip htip hdetect qid hcreator hnode
  cases hstep with
  | begin _ => cases htip
  | next _ => cases htip
  | @tip graph graph' tip' tips returned hsweep =>
    obtain rfl : tip' = tip := Option.some.inj htip
    rcases sweepTip_cases hsweep with ⟨herr, -⟩ | ⟨changed, graph₁, -, hgraph₁, hadvance⟩
    · have hdetect : (detectChangedPath repo tip'.commit tip'.commitId graph.path).isOk = true :=
        hdetect
      rw [herr] at hdetect
      cases hdetect
    have hsame : graph₁.openBranches = graph.openBranches ∧ graph₁.nodeIds = graph.nodeIds
        ∧ graph₁.firstParentTraversal = graph.firstParentTraversal ∧ graph₁.path = graph.path := by
      rw [hgraph₁]
      cases changed <;> exact ⟨rfl, rfl, rfl, rfl⟩
    obtain ⟨hopen, hnodes, hfirst, hpath⟩ := hsame
    have hcreator₁ : mergeCreator repo graph₁ tip'.commitId tip'.commit = some qid := by
      unfold mergeCreator at hcreator ⊢
      rw [hopen, hpath]
      exact hcreator
    have hopened := mem_openBranches_of_mergeCreator (hfirst.trans h.all) (hopen ▸ h.counted)
      hadvance hcreator₁
    have hnode' : qid ∈ graph'.nodeIds :=
      (sweepTip_nodeIds h.all h.counted hsweep).symm ▸ hnode
    have htips : qid ∈ tips.map BranchTip.commitId := h' qid hopened hnode'
    -- but then it is an open branch, and not that of the merge
    have hpending := (h.mem_pending qid).mp (List.mem_cons_of_mem _ htips)
    have hne : qid ≠ tip'.commitId := fun heq =>
      (List.nodup_cons.mp h.pending_nodup).1 (heq ▸ htips)
    exact hne (eq_of_mergeCreator hcreator hpending.1)

/-- **Every run visits its commits once** – none is returned twice, those that are both traversed
and open are the tips of the sweep that is going on, and no step opens a commit that was traversed –
if and only if each merge that is advanced along the way has no parent that created its content and
was traversed before. -/
theorem visits_iff {path : List Name} {startId : ι} {s₀ : Traversal ι} {states : List (Traversal ι)}
    (hstart : Started path false startId s₀) (hrun : (s₀ :: states).IsChain (Step repo fuel)) :
    ((∀ s ∈ s₀ :: states, s.returned.Nodup ∧ OpenAreTips s) ∧ (s₀ :: states).IsChain OpensNew)
      ↔ (s₀ :: states).IsChain fun s _ => MergeCreatorNew repo s := by
  have hvisits := Visits.of_started hstart
  clear hstart
  have hstate : ∀ {s : Traversal ι}, Visits s → s.returned.Nodup ∧ OpenAreTips s := fun h =>
    ⟨(List.nodup_append.mp h.listed_nodup).1, h.openAreTips⟩
  induction states generalizing s₀ with
  | nil =>
    refine iff_of_true ⟨fun s hs => ?_, List.isChain_singleton _⟩ (List.isChain_singleton _)
    obtain rfl := List.mem_singleton.mp hs
    exact hstate hvisits
  | cons s states ih =>
    obtain ⟨hstep, hrun⟩ := List.isChain_cons_cons.mp hrun
    rw [List.isChain_cons_cons, List.isChain_cons_cons, List.forall_mem_cons]
    constructor
    · rintro ⟨⟨-, hstates⟩, -, hopens⟩
      have hok := hvisits.mergeCreatorNew hstep (hstates s List.mem_cons_self).2
      exact ⟨hok, (ih hrun (hvisits.step hok hstep)).mp ⟨hstates, hopens⟩⟩
    · rintro ⟨hok, hchain⟩
      obtain ⟨hstates, hopens⟩ := (ih hrun (hvisits.step hok hstep)).mpr hchain
      exact ⟨⟨hstate hvisits, hstates⟩, hvisits.opensNew hok hstep, hopens⟩

/-- **A full iteration is such a run**, and what it returns is what is returned at its end. -/
theorem exists_run_of_traverse {path : List Name} {startId : ι} {ids : List ι}
    (h : traverse repo path false fuel startId = .ok ids) :
    ∃ s₀ states, Started path false startId s₀ ∧ (s₀ :: states).IsChain (Step repo fuel)
      ∧ ((s₀ :: states).getLast (List.cons_ne_nil _ _)).returned = ids := by
  obtain ⟨s₀, graph, hstart, hsteps⟩ := steps_traverse h
  obtain ⟨states, hchain, hlast⟩ := List.exists_isChain_cons_of_relationReflTransGen hsteps
  exact ⟨s₀, states, hstart, hchain, by rw [hlast]⟩

/-- A commit with one file. -/
def fileCommit (content : Bytes) (time : ℤ) (parentIds : List ℕ) : CommitObject ℕ :=
  ⟨.tree (.cons GOT_DEFAULT_FILE_MODE ⟨['f'], isName_f⟩ (.blob content) .nil), parentIds, time,
    false⟩

/-- **Two ways to one commit.** The commit 0 merges 1 and 2, and the parent of 1
is a merge, 3, of 2 and 5; what 3 has is what 2 has. -/
def crissCross : Repository ℕ :=
  .ofCommits [fileCommit [0] 60 [1, 2], fileCommit [1] 50 [3], fileCommit [2] 40 [4],
    fileCommit [2] 45 [2, 5], fileCommit [4] 10 [], fileCommit [5] 20 [4]]

/-- Two sweeps, and the first commit is returned. -/
theorem visits_iff_crissCross : ∃ states : List (Traversal ℕ),
    states.map Traversal.returned = [[], [], [], [], [], [], [0]]
      ∧ (∀ s ∈ states, s.returned.Nodup ∧ OpenAreTips s) ∧ states.IsChain OpensNew :=
  ⟨[_, _, _, _, _, _, _], rfl, (@visits_iff ℕ _ crissCross 0 [⟨['f'], by decide⟩] 0 _ _
    ⟨_, rfl, rfl⟩
    (.cons_cons (.begin rfl) (.cons_cons (.tip rfl) (.cons_cons (.begin rfl)
      (.cons_cons (.tip rfl) (.cons_cons (.tip rfl) (.cons_cons (.next rfl)
        (.singleton _)))))))).mpr
    (.cons_cons (by decide) (.cons_cons (by decide) (.cons_cons (by decide)
      (.cons_cons (by decide) (.cons_cons (by decide) (.cons_cons (by decide)
        (.singleton _)))))))⟩

/-- **A commit is returned twice**: the branch of the commit 2 is opened for 3,
when it was traversed along with 1. -/
theorem reopened_returned_twice :
    ¬∀ ids, traverse crissCross [⟨['f'], by decide⟩] false 10 0 = .ok ids → ids.Nodup := by
  intro h
  have hids := h [0, 1, 2, 4, 2] rfl
  exact absurd hids (by decide)

end Traversal

end Got

import Got.CommitGraph.Graph

/-!
# What happens to open branches

None of the operations on open branches looks at anything but the two sets, and
they change one of them only: `Opened` says which set it becomes. So what
advancing a branch does is that the branch is closed and some of the parents of
its commit are opened, which were not open before (`advanceBranch_spec`). Without
a path these are all parents that were not traversed
(`advanceBranch_root_spec`).

With a path there is one branch that is opened without a look at what was
traversed: that of the parent which created the content of a merge
(`mergeCreator`).
-/

namespace Got

variable {ι : Type} [LinearOrder ι]

namespace CommitGraph

variable {repo : Repository ι} {fuel : ℕ} {graph graph' : CommitGraph ι} {commitId qid : ι}
  {commit : CommitObject ι} {qids : List ι} {p : ι → Prop}

/-! ## What stays the same -/

/-- **Only the two sets may differ.** -/
def Frame (graph graph' : CommitGraph ι) : Prop :=
  graph' = { graph with nodeIds := graph'.nodeIds, openBranches := graph'.openBranches }

theorem Frame.trans {graph'' : CommitGraph ι} (h : Frame graph graph')
    (h' : Frame graph' graph'') : Frame graph graph'' := by
  unfold Frame at *
  rw [h', h]

theorem Frame.iterList (h : Frame graph graph') : graph'.iterList = graph.iterList := by
  rw [show graph' = _ from h]

theorem Frame.path (h : Frame graph graph') : graph'.path = graph.path := by
  rw [show graph' = _ from h]

theorem Frame.firstParentTraversal (h : Frame graph graph') :
    graph'.firstParentTraversal = graph.firstParentTraversal := by
  rw [show graph' = _ from h]

theorem addNode_frame (h : graph.addNode commitId = .ok graph') : Frame graph graph' := by
  obtain ⟨nodeIds, -, h⟩ := bind_eq_ok_iff.mp h
  obtain rfl := Except.ok.inj h
  rfl

theorem openBranch_frame (h : graph.openBranch commitId = .ok graph') : Frame graph graph' := by
  obtain ⟨openBranches, -, h⟩ := bind_eq_ok_iff.mp h
  obtain rfl := Except.ok.inj h
  rfl

/-- Closing a branch touches no more than the two sets. -/
theorem closeBranch_frame (h : graph.closeBranch commitId = .ok graph') : Frame graph graph' := by
  unfold closeBranch at h
  split at h
  · obtain rfl := Except.ok.inj h
    rfl
  · obtain rfl := Except.ok.inj h
    rfl
  · exact nomatch h

/-- Opening one parent touches the nodes and the open branches only. -/
theorem openParent_frame (h : graph.openParent qid = .ok graph') : Frame graph graph' := by
  unfold openParent at h
  split at h
  · obtain rfl := Except.ok.inj h
    rfl
  · split at h
    · obtain rfl := Except.ok.inj h
      rfl
    · exact openBranch_frame h

/-- Opening the parents of a commit keeps the frame. -/
theorem openParents_frame (h : graph.openParents qids = .ok graph') : Frame graph graph' := by
  induction qids generalizing graph with
  | nil =>
    obtain rfl := Except.ok.inj h
    rfl
  | cons qid qids ih =>
    obtain ⟨graph₁, hparent, h⟩ := bind_eq_ok_iff.mp h
    exact (openParent_frame hparent).trans (ih h)

/-- Adding the traversed commits keeps the frame, whatever the loop adds. -/
theorem addTraversedCommits_frame {n m : ℕ}
    (h : graph.addTraversedCommits n qids = .ok (m, graph')) : Frame graph graph' := by
  induction qids generalizing graph n with
  | nil =>
    obtain ⟨-, rfl⟩ := Prod.mk.inj (Except.ok.inj h)
    rfl
  | cons qid qids ih =>
    rw [addTraversedCommits] at h
    split at h
    · exact ih h
    split at h
    · exact ih h
    split at h
    · obtain ⟨graph₁, hopen, h⟩ := bind_eq_ok_iff.mp h
      obtain ⟨-, rfl⟩ := Prod.mk.inj (Except.ok.inj h)
      exact openBranch_frame hopen
    · obtain ⟨graph₁, hadd, h⟩ := bind_eq_ok_iff.mp h
      exact (addNode_frame hadd).trans (ih h)

/-- The first-parent walk keeps the frame however many commits it skips over. -/
theorem advanceFirstParent_frame (h : advanceFirstParent repo fuel graph commit = .ok graph') :
    Frame graph graph' := by
  unfold advanceFirstParent at h
  split at h
  · obtain rfl := Except.ok.inj h
    rfl
  split at h
  · obtain rfl := Except.ok.inj h
    rfl
  split at h
  · obtain ⟨⟨ncommits, graph₁⟩, htraversed, h⟩ := bind_eq_ok_iff.mp h
    obtain ⟨traversed, -, htraversed⟩ := bind_eq_ok_iff.mp htraversed
    have h₁ := addTraversedCommits_frame htraversed
    dsimp only at h
    split at h
    · obtain rfl := Except.ok.inj h
      exact h₁
    · exact h₁.trans (openBranch_frame h)
  · exact openBranch_frame h

/-- Advancing a merge keeps the frame, whichever of its parents it opens. -/
theorem advanceMerge_frame (h : advanceMerge repo graph commitId commit = .ok graph') :
    Frame graph graph' := by
  obtain ⟨mergedId, -, h⟩ := bind_eq_ok_iff.mp h
  obtain ⟨content, -, h⟩ := bind_eq_ok_iff.mp h
  split at h
  · exact openBranch_frame h
  · exact openParents_frame h
  · split at h
    · obtain rfl := Except.ok.inj h
      rfl
    · exact openParent_frame h

/-- Advancing a branch changes nothing but the two sets. -/
theorem advanceBranch_frame (h : advanceBranch repo fuel graph commitId commit = .ok graph') :
    Frame graph graph' := by
  obtain ⟨graph₁, hclose, h⟩ := bind_eq_ok_iff.mp h
  refine (closeBranch_frame hclose).trans ?_
  split at h
  · exact advanceFirstParent_frame h
  split at h
  · exact advanceMerge_frame h
  · exact openParents_frame h

/-- Adding the tips of a sweep keeps the frame: each tip only adds its node. -/
theorem addBranchTips_frame {tips : List (BranchTip ι)}
    (h : addBranchTips repo graph qids = .ok (tips, graph')) : Frame graph graph' := by
  induction qids generalizing graph tips with
  | nil =>
    obtain ⟨-, rfl⟩ := Prod.mk.inj (Except.ok.inj h)
    rfl
  | cons qid qids ih =>
    obtain ⟨commit, -, h⟩ := bind_eq_ok_iff.mp h
    obtain ⟨graph₁, hadd, h⟩ := bind_eq_ok_iff.mp h
    obtain ⟨⟨tips', graph₂⟩, htips, h⟩ := bind_eq_ok_iff.mp h
    obtain ⟨-, rfl⟩ := Prod.mk.inj (Except.ok.inj h)
    exact (addNode_frame hadd).trans (ih htips)

/-- What a sweep does with a tip: unless the history of the path stops there, a
tip that changed the path is put into the list, and the branch is advanced. -/
theorem sweepTip_cases {tip : BranchTip ι} (h : sweepTip repo fuel graph tip = .ok graph') :
    (detectChangedPath repo tip.commit tip.commitId graph.path = .error .noObj
        ∧ graph.closeBranch tip.commitId = .ok graph')
      ∨ ∃ changed graph₁, detectChangedPath repo tip.commit tip.commitId graph.path = .ok changed
        ∧ graph₁ = (if changed = true
          then graph.addNodeToIterList ⟨tip.commitId, tip.commit.committerTime⟩ else graph)
        ∧ advanceBranch repo fuel graph₁ tip.commitId tip.commit = .ok graph' := by
  unfold sweepTip at h
  split at h
  · next hd => exact Or.inl ⟨hd, h⟩
  · exact nomatch h
  · next changed hd => exact Or.inr ⟨changed, _, hd, rfl, h⟩

/-! ## Sets of open branches -/

/-- **The graph with other open branches.** -/
structure Opened (graph graph' : CommitGraph ι) (p : ι → Prop) : Prop where
  same : graph' = { graph with openBranches := graph'.openBranches }
  mem_iff : ∀ x, x ∈ graph'.openBranches ↔ p x
  counted : graph'.openBranches.Counted

theorem Opened.refl (hc : graph.openBranches.Counted) :
    Opened graph graph (· ∈ graph.openBranches) :=
  ⟨rfl, fun _ => Iff.rfl, hc⟩

theorem Opened.nodeIds (h : Opened graph graph' p) : graph'.nodeIds = graph.nodeIds := by
  rw [h.same]

theorem Opened.path (h : Opened graph graph' p) : graph'.path = graph.path := by
  rw [h.same]

theorem Opened.iterList (h : Opened graph graph' p) : graph'.iterList = graph.iterList := by
  rw [h.same]

theorem Opened.firstParentTraversal (h : Opened graph graph' p) :
    graph'.firstParentTraversal = graph.firstParentTraversal := by
  rw [h.same]

theorem Opened.trans {graph'' : CommitGraph ι} {p q : ι → Prop} (h : Opened graph graph' p)
    (h' : Opened graph' graph'' q) : Opened graph graph'' q where
  same := by rw [h'.same, h.same]
  mem_iff := h'.mem_iff
  counted := h'.counted

theorem Opened.congr {p q : ι → Prop} (h : Opened graph graph' p) (hpq : ∀ x, p x ↔ q x) :
    Opened graph graph' q :=
  ⟨h.same, fun x => (h.mem_iff x).trans (hpq x), h.counted⟩

/-! ## Closing and opening -/

/-- **Closing a branch** always succeeds. -/
theorem exists_closeBranch (hc : graph.openBranches.Counted) (commitId : ι) :
    ∃ graph', graph.closeBranch commitId = .ok graph' := by
  unfold closeBranch
  cases h : graph.openBranches.remove commitId with
  | ok openBranches => exact ⟨_, rfl⟩
  | error e =>
    obtain ⟨rfl, -⟩ := ObjectIdset.remove_eq_error h hc
    exact ⟨_, rfl⟩

/-- Closing a branch leaves every other branch open and opens none. -/
theorem closeBranch_spec (hc : graph.openBranches.Counted)
    (h : graph.closeBranch commitId = .ok graph') :
    Opened graph graph' (fun x => x ≠ commitId ∧ x ∈ graph.openBranches) := by
  unfold closeBranch at h
  cases hr : graph.openBranches.remove commitId with
  | ok openBranches =>
    rw [hr] at h
    obtain rfl := Except.ok.inj h
    exact ⟨rfl, fun x => ObjectIdset.mem_remove hr, hc.remove hr⟩
  | error e =>
    obtain ⟨rfl, hid⟩ := ObjectIdset.remove_eq_error hr hc
    rw [hr] at h
    obtain rfl := Except.ok.inj h
    exact (Opened.refl hc).congr fun x =>
      ⟨fun hx => ⟨fun heq => hid (heq ▸ hx), hx⟩, fun hx => hx.2⟩

/-- Opening a branch that was not open adds it to those that are. -/
theorem openBranch_spec (hc : graph.openBranches.Counted) (hqid : qid ∉ graph.openBranches)
    (h : graph.openBranch qid = .ok graph') :
    Opened graph graph' (fun x => x = qid ∨ x ∈ graph.openBranches) := by
  obtain ⟨openBranches, hadd, h⟩ := bind_eq_ok_iff.mp h
  obtain rfl := Except.ok.inj h
  exact ⟨rfl, fun x => ObjectIdset.mem_add hadd, hc.add hadd hqid⟩

/-- Opening a parent keeps the open branches and opens the parent only if it was not known before.
-/
theorem openParent_spec (hc : graph.openBranches.Counted) (h : graph.openParent qid = .ok graph') :
    Opened graph graph'
      (fun x => x ∈ graph.openBranches ∨ (x = qid ∧ x ∉ graph.nodeIds)) := by
  unfold openParent at h
  split at h
  · next hopen =>
    obtain rfl := Except.ok.inj h
    refine (Opened.refl hc).congr fun x => ⟨Or.inl, fun hx => ?_⟩
    rcases hx with hx | ⟨rfl, -⟩
    · exact hx
    · exact ObjectIdset.contains_iff.mp hopen
  · next hopen =>
    split at h
    · next hnode =>
      obtain rfl := Except.ok.inj h
      refine (Opened.refl hc).congr fun x => ⟨Or.inl, fun hx => ?_⟩
      rcases hx with hx | ⟨rfl, hx⟩
      · exact hx
      · exact absurd (ObjectIdset.contains_iff.mp hnode) hx
    · next hnode =>
      have hqid := mt ObjectIdset.contains_iff.mpr hopen
      refine (openBranch_spec hc hqid h).congr fun x => ⟨fun hx => ?_, fun hx => ?_⟩
      · rcases hx with rfl | hx
        · exact Or.inr ⟨rfl, mt ObjectIdset.contains_iff.mpr hnode⟩
        · exact Or.inl hx
      · exact hx.symm.imp_left fun hx => hx.1

/-- The same over all parents of a commit: those already known stay as they are. -/
theorem openParents_spec (hc : graph.openBranches.Counted)
    (h : graph.openParents qids = .ok graph') :
    Opened graph graph'
      (fun x => x ∈ graph.openBranches ∨ (x ∈ qids ∧ x ∉ graph.nodeIds)) := by
  induction qids generalizing graph with
  | nil =>
    obtain rfl := Except.ok.inj h
    exact (Opened.refl hc).congr fun x =>
      ⟨Or.inl, fun hx => hx.resolve_right fun hx => List.not_mem_nil hx.1⟩
  | cons qid qids ih =>
    obtain ⟨graph₁, hparent, h⟩ := bind_eq_ok_iff.mp h
    have h₁ := openParent_spec hc hparent
    have h₂ := ih h₁.counted h
    refine (h₁.trans h₂).congr fun x => ?_
    rw [h₁.mem_iff, h₁.nodeIds, List.mem_cons]
    tauto

/-! ## Advancing -/

/-- **The parent that created the content of a merge** at the path of interest:
the first one that has the same object there as the merge, of those without an open
branch. The branch of the merge itself is being closed. Where the merge has nothing
at the path there is no such parent, even if a parent has nothing there either. -/
def mergeCreator (repo : Repository ι) (graph : CommitGraph ι) (commitId : ι)
    (commit : CommitObject ι) : Option ι :=
  if commit.parentIds.length > 1 ∧ graph.path ≠ [] then
    match repo.gotObjectIdByPath commitId graph.path with
    | .ok mergedId => commit.parentIds.find? (fun qid =>
        (!graph.openBranches.contains qid || decide (qid = commitId))
          && decide (repo.gotObjectIdByPath qid graph.path = .ok mergedId))
    | .error _ => none
  else none

/-- It has no open branch, but for the one that is being closed. -/
theorem eq_of_mergeCreator (h : mergeCreator repo graph commitId commit = some qid)
    (hopen : qid ∈ graph.openBranches) : qid = commitId := by
  unfold mergeCreator at h
  split at h
  · split at h
    · have hsome := List.find?_some h
      rw [ObjectIdset.contains_iff.mpr hopen, Bool.not_true, Bool.false_or,
        Bool.and_eq_true_iff] at hsome
      exact of_decide_eq_true hsome.1
    · cases h
  · cases h

/-- When `compare_branches` answers the commit that brought the object in, it is the first parent,
not yet open, at which the object sits. -/
theorem compareBranches_created {mergedId : Object} {prevId : Option Object}
    {branchesDiffer : Bool}
    (h : compareBranches repo graph mergedId prevId branchesDiffer qids = .ok (.created qid)) :
    qids.find? (fun qid => !graph.openBranches.contains qid
      && decide (repo.gotObjectIdByPath qid graph.path = .ok mergedId)) = some qid := by
  induction qids generalizing prevId branchesDiffer with
  | nil => exact nomatch h
  | cons qid' qids ih =>
    rw [compareBranches] at h
    split at h
    · next hopen =>
      rw [List.find?_cons_of_neg (by simp [hopen])]
      exact ih h
    · next hopen =>
      split at h
      · next hid =>
        rw [List.find?_cons_of_neg (by simp [hid])]
        exact ih h
      · exact nomatch h
      · next id hid =>
        split at h
        · next heq =>
          obtain rfl := MergedContent.created.inj (Except.ok.inj h)
          exact List.find?_cons_of_pos (by simp [hopen, hid, heq])
        · next hne =>
          rw [List.find?_cons_of_neg (by simp [hid, Ne.symm hne])]
          exact ih h

/-- The other way round: what the comparison comes to, if it comes to anything. -/
theorem compareBranches_of_find? {mergedId : Object} {prevId : Option Object}
    {branchesDiffer : Bool} {content : MergedContent ι}
    (h : compareBranches repo graph mergedId prevId branchesDiffer qids = .ok content)
    (hfind : qids.find? (fun qid => !graph.openBranches.contains qid
      && decide (repo.gotObjectIdByPath qid graph.path = .ok mergedId)) = some qid) :
    content = .created qid := by
  induction qids generalizing prevId branchesDiffer with
  | nil => cases hfind
  | cons qid' qids ih =>
    rw [compareBranches] at h
    split at h
    · next hopen =>
      rw [List.find?_cons_of_neg (by simp [hopen])] at hfind
      exact ih h hfind
    · next hopen =>
      split at h
      · next hid =>
        rw [List.find?_cons_of_neg (by simp [hid])] at hfind
        exact ih h hfind
      · cases h
      · next id hid =>
        split at h
        · next heq =>
          rw [List.find?_cons_of_pos (by simp [hopen, hid, heq])] at hfind
          obtain rfl := Option.some.inj hfind
          exact (Except.ok.inj h).symm
        · next hne =>
          rw [List.find?_cons_of_neg (by simp [hid, Ne.symm hne])] at hfind
          exact ih h hfind

/-- When the branch of the merge is closed it is one of the branches that are not open. -/
theorem mergeCreator_eq {graph₁ : CommitGraph ι} {mergedId : Object}
    (h₁ : Opened graph graph₁ (fun x => x ≠ commitId ∧ x ∈ graph.openBranches))
    (hmerge : commit.parentIds.length > 1 ∧ graph.path ≠ [])
    (hmerged : repo.gotObjectIdByPath commitId graph.path = .ok mergedId) :
    mergeCreator repo graph commitId commit
      = commit.parentIds.find? (fun qid => !graph₁.openBranches.contains qid
        && decide (repo.gotObjectIdByPath qid graph₁.path = .ok mergedId)) := by
  rw [mergeCreator, if_pos hmerge, hmerged, h₁.path]
  refine congrArg (List.find? · _) (funext fun y => ?_)
  congr 1
  rw [Bool.eq_iff_iff, Bool.or_eq_true, Bool.not_eq_true', Bool.not_eq_true',
    ObjectIdset.contains_eq_false_iff, ObjectIdset.contains_eq_false_iff, h₁.mem_iff,
    decide_eq_true_iff]
  tauto

/-- **Advancing a branch**, with all parents: the branch is closed, and parents
are opened. One that was traversed already is only opened if it created the
content of a merge. -/
theorem advanceBranch_spec (hall : graph.firstParentTraversal = false)
    (hc : graph.openBranches.Counted)
    (h : advanceBranch repo fuel graph commitId commit = .ok graph') :
    ∃ p : ι → Prop,
      Opened graph graph' (fun x => (x ≠ commitId ∧ x ∈ graph.openBranches) ∨ p x)
      ∧ ∀ x, p x → x ∈ commit.parentIds
        ∧ (x ∈ graph.nodeIds → mergeCreator repo graph commitId commit = some x) := by
  obtain ⟨graph₁, hclose, h⟩ := bind_eq_ok_iff.mp h
  have h₁ := closeBranch_spec hc hclose
  rw [h₁.firstParentTraversal, hall, if_neg Bool.false_ne_true, h₁.path] at h
  have hparents : ∀ {qids}, (∀ x ∈ qids, x ∈ commit.parentIds) →
      graph₁.openParents qids = .ok graph' → ∃ p : ι → Prop,
      Opened graph graph' (fun x => (x ≠ commitId ∧ x ∈ graph.openBranches) ∨ p x)
      ∧ ∀ x, p x → x ∈ commit.parentIds
        ∧ (x ∈ graph.nodeIds → mergeCreator repo graph commitId commit = some x) := by
    intro qids hsub hopen
    have h₂ := openParents_spec h₁.counted hopen
    refine ⟨fun x => x ∈ qids ∧ x ∉ graph.nodeIds, (h₁.trans h₂).congr fun x => ?_,
      fun x hx => ⟨hsub x hx.1, fun hnode => absurd hnode hx.2⟩⟩
    rw [h₁.mem_iff, h₁.nodeIds]
  split at h
  · next hmerge =>
    obtain ⟨mergedId, hmerged, h⟩ := bind_eq_ok_iff.mp h
    obtain ⟨content, hcontent, h⟩ := bind_eq_ok_iff.mp h
    rw [h₁.path] at hmerged
    split at h
    · next qid =>
      -- this parent is opened whether it was traversed or not
      have hfind := compareBranches_created hcontent
      have hqid : qid ∉ graph₁.openBranches := by
        have hsome := List.find?_some hfind
        rw [Bool.and_eq_true_iff, Bool.not_eq_true'] at hsome
        exact ObjectIdset.contains_eq_false_iff.mp hsome.1
      have h₂ := openBranch_spec h₁.counted hqid h
      refine ⟨(· = qid), (h₁.trans h₂).congr fun x => ?_, fun x hx => ?_⟩
      · rw [h₁.mem_iff]
        exact or_comm
      · subst hx
        refine ⟨List.mem_of_find?_eq_some hfind, fun _ => ?_⟩
        exact (mergeCreator_eq h₁ hmerge hmerged).trans hfind
    · exact hparents (fun _ hx => hx) h
    · split at h
      · exact @hparents [] (fun _ hx => absurd hx List.not_mem_nil) h
      · next qid hhead =>
        refine @hparents [qid] (fun x hx => ?_) ?_
        · rw [List.mem_singleton.mp hx]
          exact List.mem_of_mem_head? hhead
        · rw [openParents, h]
          rfl
  · exact hparents (fun _ hx => hx) h

/-- **The parent that created the content is opened**, whether it was traversed or not. -/
theorem mem_openBranches_of_mergeCreator (hall : graph.firstParentTraversal = false)
    (hc : graph.openBranches.Counted)
    (h : advanceBranch repo fuel graph commitId commit = .ok graph')
    (hcreator : mergeCreator repo graph commitId commit = some qid) :
    qid ∈ graph'.openBranches := by
  obtain ⟨graph₁, hclose, h⟩ := bind_eq_ok_iff.mp h
  have h₁ := closeBranch_spec hc hclose
  rw [h₁.firstParentTraversal, hall, if_neg Bool.false_ne_true, h₁.path] at h
  have hmerge : commit.parentIds.length > 1 ∧ graph.path ≠ [] := by
    by_contra hmerge
    rw [mergeCreator, if_neg hmerge] at hcreator
    cases hcreator
  rw [if_pos hmerge] at h
  obtain ⟨mergedId, hmerged, h⟩ := bind_eq_ok_iff.mp h
  obtain ⟨content, hcontent, h⟩ := bind_eq_ok_iff.mp h
  rw [h₁.path] at hmerged
  rw [mergeCreator_eq h₁ hmerge hmerged] at hcreator
  obtain rfl := compareBranches_of_find? hcontent hcreator
  obtain ⟨openBranches, hadd, h⟩ := bind_eq_ok_iff.mp h
  obtain rfl := Except.ok.inj h
  exact (ObjectIdset.mem_add hadd).mpr (Or.inl rfl)

/-- **Advancing without a path**: all parents are opened that were not
traversed. -/
theorem advanceBranch_root_spec (hall : graph.firstParentTraversal = false)
    (hpath : graph.path = []) (hc : graph.openBranches.Counted)
    (h : advanceBranch repo fuel graph commitId commit = .ok graph') :
    Opened graph graph' (fun x => (x ≠ commitId ∧ x ∈ graph.openBranches)
      ∨ (x ∈ commit.parentIds ∧ x ∉ graph.nodeIds)) := by
  obtain ⟨graph₁, hclose, h⟩ := bind_eq_ok_iff.mp h
  have h₁ := closeBranch_spec hc hclose
  rw [h₁.firstParentTraversal, hall, if_neg Bool.false_ne_true, h₁.path,
    if_neg (fun hmerge => hmerge.2 hpath)] at h
  refine (h₁.trans (openParents_spec h₁.counted h)).congr fun x => ?_
  rw [h₁.mem_iff, h₁.nodeIds]

end CommitGraph

end Got

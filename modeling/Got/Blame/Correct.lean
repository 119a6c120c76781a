import Got.Blame.Changes

/-!
# Every line is blamed on the right commit

A map is correct (`LineMap`) if it takes each line of an older file either to
nowhere or to a line of the file being blamed that is the same, and no two lines to
the same one. This is so for the map of the newer file whenever a commit comes to be
processed, and after that for the map of the older one as far as it is filled in
(`blameCommit_spec`). It is filled in to the end unless all lines are annotated, and
then it is not looked at anymore.

So a line can be followed through the maps. The commit that it is annotated with in
the end is the one that it is to be blamed on (`Blamed`): the newest whose difference
adds it, or the last one.
-/

namespace Got

variable {ι : Type} {diff : DiffRoot → List DiffChunk} {hdrlen : Object → ℕ} {repo : Repository ι}
  {path : List Name} {id id' last : ι} {ids : List ι} {file version : List DiffAtom}

/-! ## What is to be shown -/

/-- **A map of an older version** to the file being blamed. -/
structure LineMap (file version : List DiffAtom) (linemap : List ℤ) : Prop where
  content : ∀ (q : ℕ) (ln : ℤ), linemap[q]? = some ln
    → ln = -1 ∨ ∃ (line : ℕ) (atom atom' : DiffAtom),
    ln = line ∧ file[line]? = some atom ∧ version[q]? = some atom' ∧ atom.data = atom'.data
  injective : ∀ (q q' line : ℕ), linemap[q]? = some (line : ℤ) → linemap[q']? = some (line : ℤ) →
    q = q'

/-- **The map of the older version is correct**, as far as it is filled in. -/
def Blame.LineMap1 (file : List DiffAtom) (blame : Blame ι) : Prop :=
  ∃ k ≤ blame.linemap1.length, LineMap file blame.data1 (blame.linemap1.take k)
    ∧ (blame.nannotated ≠ blame.nlines → k = blame.linemap1.length)

/-- **What a commit is compared with**: the version of its parent, if there is one. -/
inductive ParentVersion (hdrlen : Object → ℕ) (repo : Repository ι) (path : List Name) (id : ι) :
    Option (List DiffAtom) → Prop
  | root {commit : CommitObject ι} :
    repo.gotObjectOpenAsCommit id = .ok commit → commit.parentIds = [] →
    ParentVersion hdrlen repo path id none
  | created {commit : CommitObject ι} {pid : ι} {rest : List ι} :
    repo.gotObjectOpenAsCommit id = .ok commit → commit.parentIds = pid :: rest →
    repo.gotObjectIdByPath pid path = .error .noTreeEntry →
    ParentVersion hdrlen repo path id none
  | changed {commit : CommitObject ι} {pid : ι} {rest : List ι} {content : Bytes} :
    repo.gotObjectOpenAsCommit id = .ok commit → commit.parentIds = pid :: rest →
    repo.gotObjectIdByPath pid path = .ok (.blob content) →
    ParentVersion hdrlen repo path id (some (blobAtoms hdrlen content))

/-- **The commit that a line of a version is to be blamed on.** -/
inductive Blamed (diff : DiffRoot → List DiffChunk) (hdrlen : Object → ℕ) (repo : Repository ι)
    (path : List Name) (last : ι) : List ι → List DiffAtom → ℕ → ι → Prop
  | adds {id : ι} {ids : List ι} {newer older : List DiffAtom} {line : ℕ} :
    ParentVersion hdrlen repo path id (some older) → Adds (diff ⟨older, newer, false⟩) line →
    Blamed diff hdrlen repo path last (id :: ids) newer line id
  | keeps {id id' : ι} {ids : List ι} {newer older : List DiffAtom} {line line' : ℕ} :
    ParentVersion hdrlen repo path id (some older) →
    Keeps (diff ⟨older, newer, false⟩) line line' →
    Blamed diff hdrlen repo path last ids older line' id' →
    Blamed diff hdrlen repo path last (id :: ids) newer line id'
  | created {id : ι} {ids : List ι} {newer : List DiffAtom} {line : ℕ} :
    ParentVersion hdrlen repo path id none →
    Blamed diff hdrlen repo path last (id :: ids) newer line last
  | last {newer : List DiffAtom} {line : ℕ} : Blamed diff hdrlen repo path last [] newer line last

/-- **A state in which the next commit is processed.** -/
inductive Processing (diff : DiffRoot → List DiffChunk) (hdrlen : Object → ℕ)
    (repo : Repository ι) (path : List Name) (content : Bytes) : List ι → Blame ι → Prop
  | start : Processing diff hdrlen repo path content [] (blamePrepare hdrlen content)
  | next {ids : List ι} {id : ι} {blame blame' : Blame ι} :
    Processing diff hdrlen repo path content ids blame →
    blameCommit diff hdrlen repo path blame id = .ok blame' →
    blame'.nannotated ≠ blame'.nlines →
    Processing diff hdrlen repo path content (ids ++ [id]) blame'.closeFile2AndReuseFile1

/-- **A sound difference** of any two files. -/
def SoundDiff (diff : DiffRoot → List DiffChunk) : Prop :=
  ∀ root, SoundScript root (diff root) root.left.length root.right.length

theorem SoundDiff.not_keeps (hdiff : SoundDiff diff) {root : DiffRoot} {line line' : ℕ}
    (h : Adds (diff root) line) : ¬Keeps (diff root) line line' :=
  h.not_keeps (hdiff root).left (hdiff root).right (hdiff root).good

theorem SoundDiff.unique (hdiff : SoundDiff diff) {root : DiffRoot} {line line' k k' : ℕ}
    (h : Keeps (diff root) line k) (h' : Keeps (diff root) line' k') : line = line' ↔ k = k' :=
  h.unique (hdiff root).left (hdiff root).right (hdiff root).good h'

/-! ## The lines of a blob -/

theorem length_atomizeFile (content : Bytes) (offsets : List ℕ) :
    (atomizeFile content offsets).length = offsets.length := by
  induction offsets with
  | nil => rfl
  | cons pos rest ih => rw [atomizeFile, List.length_cons, ih, List.length_cons]

theorem length_blobAtoms (hdrlen : Object → ℕ) (content : Bytes) :
    (blobAtoms hdrlen content).length
      = (gotObjectBlobDumpToFile (hdrlen (.blob content)) content).length :=
  length_atomizeFile _ _

/-- Lines start behind each other, and not behind the end. -/
theorem lineOffsetsFrom_spec (off : ℕ) (data : Bytes) :
    (lineOffsetsFrom off data).Pairwise (· < ·)
      ∧ ∀ pos ∈ lineOffsetsFrom off data, off < pos ∧ pos ≤ off + data.length := by
  induction data generalizing off with
  | nil => exact ⟨List.Pairwise.nil, fun pos h => absurd h List.not_mem_nil⟩
  | cons c data ih =>
    obtain ⟨hlt, hmem⟩ := ih (off + 1)
    have hmem' : ∀ pos ∈ lineOffsetsFrom (off + 1) data, off < pos
      ∧ pos ≤ off + (c :: data).length :=
      fun pos h => by
        have := hmem pos h
        rw [List.length_cons]
        omega
    rw [lineOffsetsFrom]
    split
    · refine ⟨List.pairwise_cons.mpr ⟨fun pos h => (hmem pos h).1, hlt⟩, fun pos h => ?_⟩
      rcases List.mem_cons.mp h with rfl | h
      · rw [List.length_cons]
        omega
      · exact hmem' pos h
    · exact ⟨hlt, hmem'⟩

/-- The offsets of the lines ascend and stay within the content. -/
theorem lineOffsets_spec (content : Bytes) :
    (0 :: lineOffsetsFrom 0 content).Pairwise (· < ·)
      ∧ ∀ off ∈ 0 :: lineOffsetsFrom 0 content, off ≤ content.length := by
  obtain ⟨hlt, hmem⟩ := lineOffsetsFrom_spec 0 content
  refine ⟨List.pairwise_cons.mpr ⟨fun pos h => (hmem pos h).1, hlt⟩, fun off h => ?_⟩
  rcases List.mem_cons.mp h with rfl | h
  · exact Nat.zero_le _
  · exact Nat.zero_add content.length ▸ (hmem off h).2

/-- Of the lines from some line on only the last can be empty. -/
theorem atomizeFile_spec {content : Bytes} {pos : ℕ} {rest : List ℕ}
    (hlt : (pos :: rest).Pairwise (· < ·)) (hle : ∀ off ∈ pos :: rest, off ≤ content.length) :
    ((atomizeFile content (pos :: rest)).map DiffAtom.data).flatten = content.drop pos
      ∧ ((atomizeFile content (pos :: rest)).filter (·.data ≠ [])).length
        = if (pos :: rest).getLast? = some content.length then rest.length
          else rest.length + 1 := by
  induction rest generalizing pos with
  | nil =>
    have hpos := hle pos List.mem_cons_self
    have hdata : (content.drop pos).take (content.length - pos) = content.drop pos :=
      List.take_of_length_le (by rw [List.length_drop])
    have hempty : content.drop pos = [] ↔ pos = content.length := by
      rw [List.drop_eq_nil_iff]
      omega
    simp only [atomizeFile, List.head?_nil, Option.getD_none, hdata]
    refine ⟨by simp, ?_⟩
    by_cases h : pos = content.length
    · simp [h]
    · simp [mt hempty.mp h, h]
  | cons next rest ih =>
    obtain ⟨hnext, hlt⟩ := List.pairwise_cons.mp hlt
    have hpos := hnext next List.mem_cons_self
    have hnle := hle next (List.mem_cons_of_mem _ List.mem_cons_self)
    obtain ⟨hflat, hlen⟩ := ih hlt fun off h => hle off (List.mem_cons_of_mem _ h)
    have hne : (content.drop pos).take (next - pos) ≠ [] := by
      rw [Ne, ← List.length_eq_zero_iff, List.length_take, List.length_drop]
      omega
    rw [atomizeFile]
    simp only [List.head?_cons, Option.getD_some]
    constructor
    · rw [List.map_cons, List.flatten_cons, hflat]
      have hdrop : content.drop next = (content.drop pos).drop (next - pos) := by
        rw [List.drop_drop, Nat.add_sub_cancel' hpos.le]
      rw [hdrop, List.take_append_drop]
    · rw [List.filter_cons_of_pos (by simpa using hne), List.length_cons, hlen,
        List.getLast?_cons_cons]
      split <;> rfl

/-- **The lines that are blamed** are the atoms that are not empty. -/
theorem nlines_blamePrepare (hdrlen : Object → ℕ) (content : Bytes) :
    (blamePrepare hdrlen content : Blame ι).nlines
      = ((blobAtoms hdrlen content).filter (·.data ≠ [])).length := by
  unfold blamePrepare blobAtoms gotObjectBlobDumpToFile
  dsimp only
  split
  · rfl
  · obtain ⟨hlt, hle⟩ := lineOffsets_spec content
    rw [(atomizeFile_spec hlt hle).2]
    rfl

/-! ## One commit -/

namespace Blame

/-- **What holds of a state in which a commit is to be processed.** -/
structure Valid (file : List DiffAtom) (blame : Blame ι) : Prop where
  counted : blame.Counted
  length : blame.linemap2.length = blame.data2.length
  map : LineMap file blame.data2 blame.linemap2
  data1 : blame.data1 = []
  linemap1 : blame.linemap1 = []

end Blame

/-- What `blame_open` prepares before the first commit is a valid blame of the file's lines. -/
theorem valid_blamePrepare (hdrlen : Object → ℕ) (content : Bytes) :
    (blamePrepare hdrlen content : Blame ι).Valid (blobAtoms hdrlen content) := by
  have hget : ∀ (q : ℕ) (ln : ℤ),
      (blamePrepare hdrlen content : Blame ι).linemap2[q]? = some ln →
      ln = q ∧ q < (blobAtoms hdrlen content).length := by
    intro q ln hq
    rw [length_blobAtoms]
    obtain ⟨a, ha, rfl⟩ := Option.map_eq_some_iff.mp (List.getElem?_map ▸ hq)
    obtain ⟨hlt, rfl⟩ := List.getElem?_eq_some_iff.mp ha
    rw [List.getElem_range]
    rw [List.length_range] at hlt
    exact ⟨rfl, hlt⟩
  refine ⟨⟨List.length_replicate, ?_⟩, ?_, ⟨fun q ln hq => ?_, fun q q' line hq hq' => ?_⟩, rfl,
    rfl⟩
  · exact (List.countP_eq_zero.mpr fun line hline => by
      rw [List.eq_of_mem_replicate hline]; exact Bool.false_ne_true).symm
  · show ((List.range _).map _).length = _
    rw [List.length_map, List.length_range, ← length_blobAtoms]
    rfl
  · obtain ⟨rfl, hlt⟩ := hget q ln hq
    have hatom := List.getElem?_eq_getElem hlt
    exact Or.inr ⟨q, _, _, rfl, hatom, hatom, rfl⟩
  · have h := (hget q line hq).1
    have h' := (hget q' line hq').1
    omega

/-- Atoms that are the same have the same content. -/
theorem data_eq_of_same {older newer : List DiffAtom} {q r : ℕ}
    (h : DiffRoot.same ⟨older, newer, false⟩ q r = true) :
    ∃ atom atom', newer[r]? = some atom ∧ older[q]? = some atom' ∧ atom.data = atom'.data := by
  unfold DiffRoot.same at h
  split at h
  · next left right hl hr =>
    obtain ⟨-, hcmp⟩ := of_decide_eq_true h
    exact ⟨right, left, hr, hl, ((diffAtomCmp_eq_iff false left right).mp hcmp).symm⟩
  · exact absurd h Bool.false_ne_true

/-- At first every line is where it is. -/
theorem linemap2_blamePrepare {content : Bytes} {line : ℕ}
    (h : line < (blamePrepare hdrlen content : Blame ι).nlines) :
    (blamePrepare hdrlen content : Blame ι).linemap2[line]? = some (line : ℤ) := by
  have hle : (blamePrepare hdrlen content : Blame ι).nlines
      ≤ (gotObjectBlobDumpToFile (hdrlen (.blob content)) content).length := by
    unfold blamePrepare
    dsimp only
    split
    · exact Nat.sub_le _ _
    · exact le_rfl
  show ((List.range _).map (Nat.cast : ℕ → ℤ))[line]? = _
  rw [List.getElem?_map, List.getElem?_range (lt_of_lt_of_le h hle)]
  rfl

/-- The maps of two versions, one of which is carried over to the other. -/
theorem lineMap_of_carriedOver {older newer : List DiffAtom} {linemap1 linemap2 : List ℤ}
    {chunks : List DiffChunk}
    (hscript : SoundScript ⟨older, newer, false⟩ chunks older.length newer.length)
    (hmap : LineMap file newer linemap2)
    (h : ∀ q < linemap1.length, CarriedOver chunks linemap2 q linemap1[q]?) :
    LineMap file older linemap1 := by
  have hcarried : ∀ (q : ℕ) (ln : ℤ), linemap1[q]? = some ln →
      ln = -1 ∨ ∃ r, Keeps chunks r q ∧ linemap2[r]? = some ln := by
    intro q ln hq
    rcases h q (List.getElem?_eq_some_iff.mp hq).1 with ⟨heq, -⟩ | ⟨r, hkeeps, heq⟩
    · exact Or.inl (Option.some.inj (hq.symm.trans heq))
    · exact Or.inr ⟨r, hkeeps, heq.symm.trans hq⟩
  refine ⟨fun q ln hq => ?_, fun q q' line hq hq' => ?_⟩
  · rcases hcarried q ln hq with hneg | ⟨r, hkeeps, hr⟩
    · exact Or.inl hneg
    · obtain ⟨newer', older', hnewer, holder, hsame⟩ := data_eq_of_same (hkeeps.same hscript.good)
      refine (hmap.content r ln hr).imp_right fun ⟨line, atom, atom', hln, hline, hatom', heq⟩ => ?_
      obtain rfl := Option.some.inj (hnewer.symm.trans hatom')
      exact ⟨line, atom, older', hln, hline, holder, heq.trans hsame⟩
  · obtain ⟨r, hkeeps, hr⟩ := (hcarried q line hq).resolve_left (by omega)
    obtain ⟨r', hkeeps', hr'⟩ := (hcarried q' line hq').resolve_left (by omega)
    exact (hkeeps.unique hscript.left hscript.right hscript.good hkeeps').mp
      (hmap.injective r r' line hr hr')

variable {blame blame' : Blame ι}

/-- A commit whose parent has no version of the file (or that has no parent) annotates nothing here:
the root pass does it afterwards. -/
theorem blameCommit_none (h : ParentVersion hdrlen repo path id none) :
    blameCommit diff hdrlen repo path blame id = .ok blame := by
  cases h with
  | root hopen hparents =>
    rw [blameCommit, hopen, ok_bind, hparents]
    rfl
  | created hopen hparents hpath =>
    rw [blameCommit, hopen, ok_bind, hparents]
    dsimp only
    rw [hpath]
    rfl

/-- A commit that can be processed has been compared with something. -/
theorem exists_parentVersion (h : blameCommit diff hdrlen repo path blame id = .ok blame') :
    ∃ v, ParentVersion hdrlen repo path id v := by
  obtain ⟨commit, hopen, h⟩ := bind_eq_ok_iff.mp h
  split at h
  · next hparents => exact ⟨none, .root hopen hparents⟩
  · next pid rest hparents =>
    split at h
    · next hpath => exact ⟨none, .created hopen hparents hpath⟩
    · exact nomatch h
    · next pblobId hpath =>
      obtain ⟨pblob, hblob, -⟩ := bind_eq_ok_iff.mp h
      cases pblobId with
      | blob content => exact ⟨_, .changed hopen hparents hpath⟩
      | tree es => exact nomatch hblob
      | foreign id => exact nomatch hblob

/-- **One commit**, if its parent has a version of the file. -/
theorem blameCommit_some (hdiff : SoundDiff diff) (hvalid : blame.Valid file)
    {older : List DiffAtom}
    (h : ParentVersion hdrlen repo path id (some older)) :
    ∃ blame', blameCommit diff hdrlen repo path blame id = .ok blame'
      ∧ Blame.Annotates id (fun line => ∃ r, Adds (diff ⟨older, blame.data2, false⟩) r
        ∧ blame.linemap2[r]? = some (line : ℤ)) blame blame'
      ∧ blame'.data1 = older ∧ blame'.data2 = blame.data2 ∧ blame'.linemap2 = blame.linemap2
      ∧ blame'.linemap1.length = older.length
      ∧ ∃ k ≤ older.length, (blame'.nannotated ≠ blame'.nlines → k = older.length)
        ∧ ∀ q < k, CarriedOver (diff ⟨older, blame.data2, false⟩) blame.linemap2 q
          blame'.linemap1[q]? := by
  cases h with
  | @changed commit pid rest content hopen hparents hpath =>
    rw [blameCommit, hopen, ok_bind, hparents]
    dsimp only
    rw [hpath]
    dsimp only [gotObjectOpenAsBlob]
    rw [ok_bind]
    generalize blobAtoms hdrlen content = older
    obtain ⟨hleft, hright, hgood⟩ := hdiff ⟨older, blame.data2, false⟩
    generalize diff ⟨older, blame.data2, false⟩ = chunks at hleft hright hgood ⊢
    split
    · obtain ⟨blame', heq, hann, ⟨hd1, hd2, hm2⟩, k, f, -, hk, hlast, ⟨hlen, hfilled⟩, hcarried⟩ :=
        @Blame.blameChanges_spec ι id _ chunks
          { blame with data1 := older, linemap1 := List.replicate older.length 0 } 0 0 _ _
          ⟨hvalid.counted.length, hvalid.counted.count⟩ hleft hright hgood
          List.length_replicate.symm hvalid.length.symm
      refine ⟨blame', heq, ⟨hann.counted, hann.nlines, hann.new, hann.old⟩, hd1, hd2, hm2,
        hlen.trans List.length_replicate, k, hk, hlast, fun q hq => ?_⟩
      rw [hfilled, if_pos ⟨Nat.zero_le q, hq⟩]
      exact hcarried q (Nat.zero_le q) hq
    · next hzero =>
      -- both files are empty
      obtain rfl : chunks = [] := List.eq_nil_of_length_eq_zero (by omega)
      have hlen : 0 = older.length := hleft
      refine ⟨_, rfl, ⟨⟨hvalid.counted.length, hvalid.counted.count⟩, rfl, fun line _ hadds => ?_,
        fun _ _ => rfl⟩, rfl, rfl, rfl, ?_, 0, Nat.zero_le _, fun _ => hlen,
        fun q hq => absurd hq (Nat.not_lt_zero q)⟩
      · obtain ⟨r, ⟨c, hc, -⟩, -⟩ := hadds
        exact absurd hc List.not_mem_nil
      · show blame.linemap1.length = older.length
        rw [hvalid.linemap1, ← hlen]
        rfl

theorem lineMap_nil (file version : List DiffAtom) : LineMap file version [] :=
  ⟨fun _ _ h => (nomatch h), fun _ _ _ h => (nomatch h)⟩

/-- **What a step of the loop does**: lines stay annotated, and the maps are correct. -/
structure Blame.StepsTo (file : List DiffAtom) (blame blame' : Blame ι) : Prop where
  counted : blame'.Counted
  nlines : blame'.nlines = blame.nlines
  data2 : blame'.data2 = blame.data2
  linemap2 : blame'.linemap2 = blame.linemap2
  linemap1 : blame'.LineMap1 file
  length : blame'.nannotated ≠ blame'.nlines → blame'.linemap1.length = blame'.data1.length
  annotated : ∀ (line : ℕ) (id : ι), blame.lines[line]? = some (some id) →
    blame'.lines[line]? = some (some id)

/-- **The step lemma.** -/
theorem blameCommit_stepsTo (hdiff : SoundDiff diff) (hvalid : blame.Valid file)
    (h : blameCommit diff hdrlen repo path blame id = .ok blame') : blame.StepsTo file blame' := by
  obtain ⟨v, hv⟩ := exists_parentVersion h
  cases v with
  | none =>
    rw [blameCommit_none hv] at h
    obtain rfl := Except.ok.inj h
    refine ⟨hvalid.counted, rfl, rfl, rfl, ⟨0, Nat.zero_le _, lineMap_nil _ _, fun _ => ?_⟩,
      fun _ => ?_, fun _ _ hline => hline⟩
    · rw [hvalid.linemap1]
      rfl
    · rw [hvalid.linemap1, hvalid.data1]
      rfl
  | some older =>
    obtain ⟨blame₁, heq, hann, rfl, hd2, hm2, hlen, k, hk, hlast, hcarried⟩ :=
      blameCommit_some hdiff hvalid hv
    rw [heq] at h
    obtain rfl := Except.ok.inj h
    have hs := hdiff ⟨blame₁.data1, blame.data2, false⟩
    refine ⟨hann.counted, hann.nlines, hd2, hm2, ⟨k, hlen ▸ hk, ?_, hlen ▸ hlast⟩, fun _ => hlen,
      fun line id' hline => hann.annotated hline⟩
    refine lineMap_of_carriedOver hs hvalid.map fun q hq => ?_
    have hqk : q < k := lt_of_lt_of_le hq (List.length_take_le _ _)
    rw [List.getElem?_take_of_lt hqk]
    exact hcarried q hqk

/-- The next commit can be processed. -/
theorem Blame.StepsTo.valid (h : blame.StepsTo file blame')
    (hne : blame'.nannotated ≠ blame'.nlines) : blame'.closeFile2AndReuseFile1.Valid file := by
  obtain ⟨k, -, hmap, hk⟩ := h.linemap1
  refine ⟨⟨h.counted.length, h.counted.count⟩, h.length hne, ?_, rfl, rfl⟩
  rw [hk hne, List.take_length] at hmap
  exact hmap

/-- **The run lemma**: every state in which a commit is processed is valid. -/
theorem Processing.valid {content : Bytes} (hdiff : SoundDiff diff)
    (h : Processing diff hdrlen repo path content ids blame) :
    blame.Valid (blobAtoms hdrlen content) := by
  induction h with
  | start => exact valid_blamePrepare hdrlen content
  | next _ hcommit hne ih => exact (blameCommit_stepsTo hdiff ih hcommit).valid hne

/-! ## The end -/

/-- The loop of `blame_commit` over a run of lines annotates exactly the lines of the run. -/
theorem foldl_annotateLine_spec (h : blame.Counted) (id : ι) (n : ℕ) :
    Blame.Annotates id (· < n) blame
      ((List.range n).foldl (fun blame (lineno : ℕ) => blame.annotateLine lineno id) blame) := by
  induction n with
  | zero => exact .refl h fun line _ => Nat.not_lt_zero line
  | succ n ih =>
    rw [List.range_succ, List.foldl_append]
    refine (ih.trans (Blame.annotateLine_spec ih.counted n id).1).congr fun line => ?_
    rw [Nat.lt_succ_iff_lt_or_eq]
    exact or_congr_right Int.ofNat_inj

/-- **All lines that remain are annotated.** -/
theorem annotateRemaining_spec (h : blame.Counted) (id : ι) :
    Blame.Annotates id (fun _ => True) blame (annotateRemaining (some id) blame) := by
  unfold annotateRemaining
  dsimp only
  split
  · have hann := foldl_annotateLine_spec h id blame.nlines
    refine ⟨hann.counted, hann.nlines, fun line hline _ => hann.new line hline ?_,
      fun line hline => hann.old line fun hc => hline ⟨hc.1, trivial⟩⟩
    rw [← h.length]
    exact (List.getElem?_eq_some_iff.mp hline).1
  · next hall =>
    have hnone := h.eq_iff.mp (le_antisymm h.le (not_lt.mp hall))
    exact .refl h fun line hline => absurd hline (hnone line)

/-! ## The whole loop -/

/-- The loop of `blame_open`, over the commits that there are. -/
def blameAll (diff : DiffRoot → List DiffChunk) (hdrlen : Object → ℕ) (repo : Repository ι)
    (path : List Name) : List ι → Option ι → Blame ι → Except GotErr (Blame ι)
  | [], id, blame => .ok (annotateRemaining id blame)
  | id :: ids, _, blame =>
    match blameCommit diff hdrlen repo path blame id with
    | .error .iterCompleted => .ok blame
    | .error e => .error e
    | .ok blame =>
      if blame.nannotated = blame.nlines then .ok (annotateRemaining (some id) blame)
      else blameAll diff hdrlen repo path ids (some id) blame.closeFile2AndReuseFile1

/-- **The loop goes over the commits of the graph.** -/
theorem blameLoop_eq [LinearOrder ι] {fuel n : ℕ} {graph : CommitGraph ι} {processed : Option ι}
    (h : graph.iterAll repo fuel n = .ok ids) :
    blameLoop diff hdrlen repo path fuel n graph processed blame
      = blameAll diff hdrlen repo path ids processed blame := by
  induction n generalizing graph ids processed blame with
  | zero => exact nomatch h
  | succ n ih =>
    rw [CommitGraph.iterAll] at h
    rw [blameLoop]
    cases hnext : graph.gotCommitGraphIterNext repo fuel with
    | error e =>
      rw [hnext] at h
      cases e with
      | iterCompleted =>
        obtain rfl := Except.ok.inj h
        rfl
      | _ => exact nomatch h
    | ok next =>
      obtain ⟨id, graph'⟩ := next
      rw [hnext] at h
      obtain ⟨ids', hids, h⟩ := bind_eq_ok_iff.mp h
      obtain rfl := Except.ok.inj h
      rw [blameAll]
      dsimp only
      cases blameCommit diff hdrlen repo path blame id with
      | error e => cases e <;> rfl
      | ok blame =>
        dsimp only
        rw [ih hids]

/-- A commit that has a line of an older version keeps it, and adds no other line. -/
theorem Blame.Annotates.of_keeps {older newer : List DiffAtom} {linemap2 : List ℤ} {r q line : ℕ}
    (hdiff : SoundDiff diff) (hmap : LineMap file newer linemap2)
    (hann : Blame.Annotates id (fun line => ∃ r, Adds (diff ⟨older, newer, false⟩) r
      ∧ linemap2[r]? = some (line : ℤ)) blame blame')
    (hkeeps : Keeps (diff ⟨older, newer, false⟩) r q) (hr : linemap2[r]? = some (line : ℤ)) :
    blame'.lines[line]? = blame.lines[line]? := by
  refine hann.old line fun ⟨_, r', hadds, hr'⟩ => ?_
  obtain rfl := hmap.injective r r' line hr hr'
  exact hdiff.not_keeps hadds hkeeps

/-- **A run to the end**, from any valid state: each line is annotated with the commit
that it is to be blamed on. -/
theorem blameAll_spec {processed : Option ι} (hdiff : SoundDiff diff) (hvalid : blame.Valid file)
    (hread : ∀ id ∈ ids, ∃ v, ParentVersion hdrlen repo path id v)
    (hlast : ids.getLast?.or processed = some last) :
    ∃ blame', blameAll diff hdrlen repo path ids processed blame = .ok blame' ∧ blame'.Counted
      ∧ blame'.nlines = blame.nlines
      ∧ (∀ (line : ℕ) (id : ι), blame.lines[line]? = some (some id) →
        blame'.lines[line]? = some (some id))
      ∧ ∀ line : ℕ, blame.lines[line]? = some none →
        (∀ r : ℕ, blame.linemap2[r]? = some (line : ℤ) → ∃ id,
          blame'.lines[line]? = some (some id)
            ∧ Blamed diff hdrlen repo path last ids blame.data2 r id)
        ∧ ((∀ r : ℕ, blame.linemap2[r]? ≠ some (line : ℤ)) →
          blame'.lines[line]? = some (some last)) := by
  induction ids generalizing blame processed with
  | nil =>
    obtain rfl : processed = some last := hlast
    have hann := annotateRemaining_spec hvalid.counted last
    exact ⟨_, rfl, hann.counted, hann.nlines, fun line id hline => hann.annotated hline,
      fun line hline => ⟨fun r _ => ⟨last, hann.new line hline trivial, .last⟩,
        fun _ => hann.new line hline trivial⟩⟩
  | cons id ids ih =>
    have hlast' : ids.getLast?.or (some id) = some last := by
      rw [← hlast]
      cases ids <;> rfl
    obtain ⟨v, hv⟩ := hread id List.mem_cons_self
    have hread' := fun id hid => hread id (List.mem_cons_of_mem _ hid)
    rw [blameAll]
    cases v with
    | none => 
      rw [blameCommit_none hv]
      dsimp only
      split
      · next hall =>
        have hnone := hvalid.counted.eq_iff.mp hall
        have hann := annotateRemaining_spec hvalid.counted id
        exact ⟨_, rfl, hann.counted, hann.nlines, fun line id hline => hann.annotated hline,
          fun line hline => absurd hline (hnone line)⟩
      · next hne =>
        obtain ⟨blame', heq, hcounted, hnlines, hold, hnew⟩ := ih
          (blameCommit_stepsTo hdiff hvalid (blameCommit_none hv) |>.valid hne) hread' hlast'
        have hlines : ∀ line : ℕ, blame.lines[line]? = some none →
            blame'.lines[line]? = some (some last) :=
              fun line hline => (hnew line hline).2 fun r => by
          show blame.linemap1[r]? ≠ _
          rw [hvalid.linemap1]
          exact nofun
        exact ⟨blame', heq, hcounted, hnlines, hold,
          fun line hline => ⟨fun r _ => ⟨last, hlines line hline, .created hv⟩,
            fun _ => hlines line hline⟩⟩
    | some older =>
      obtain ⟨blame₁, hcommit, hann, rfl, hd2, hm2, hlen, k, hk, hend, hcarried⟩ :=
        blameCommit_some hdiff hvalid hv
      have hs := hdiff ⟨blame₁.data1, blame.data2, false⟩
      have hstep := blameCommit_stepsTo hdiff hvalid hcommit
      rw [hcommit]
      dsimp only
      -- what happens after the commit, in either case
      obtain ⟨blame', heq, hcounted, hnlines, hold, hnew⟩ : ∃ blame',
          (if blame₁.nannotated = blame₁.nlines then
            .ok (annotateRemaining (some id) blame₁)
          else blameAll diff hdrlen repo path ids (some id) blame₁.closeFile2AndReuseFile1)
            = Except.ok blame' ∧ blame'.Counted ∧ blame'.nlines = blame₁.nlines
          ∧ (∀ (line : ℕ) (id : ι), blame₁.lines[line]? = some (some id) →
            blame'.lines[line]? = some (some id))
          ∧ ∀ line : ℕ, blame₁.lines[line]? = some none → blame₁.nannotated ≠ blame₁.nlines
            ∧ (∀ r : ℕ, blame₁.linemap1[r]? = some (line : ℤ) → ∃ id,
              blame'.lines[line]? = some (some id)
                ∧ Blamed diff hdrlen repo path last ids blame₁.data1 r id)
            ∧ ((∀ r : ℕ, blame₁.linemap1[r]? ≠ some (line : ℤ)) →
              blame'.lines[line]? = some (some last)) := by
        split
        · next hall =>
          have hnone := hann.counted.eq_iff.mp hall
          have hann := annotateRemaining_spec hann.counted id
          exact ⟨_, rfl, hann.counted, hann.nlines, fun line id hline => hann.annotated hline,
            fun line hline => absurd hline (hnone line)⟩
        · next hne =>
          obtain ⟨blame', heq, hcounted, hnlines, hold, hnew⟩ := ih (hstep.valid hne) hread' hlast'
          exact ⟨blame', heq, hcounted, hnlines, hold, fun line hline => ⟨hne, hnew line hline⟩⟩
      refine ⟨blame', heq, hcounted, hnlines.trans hann.nlines,
        fun line id hline => hold line id (hann.annotated hline), fun line hline => ⟨?_, ?_⟩⟩
      · intro r hr
        have hlt : r < blame.data2.length := hvalid.length ▸ (List.getElem?_eq_some_iff.mp hr).1
        rcases adds_or_keeps hs.left hs.right hs.good (Nat.zero_le r) hlt with hadds | ⟨q, hkeeps⟩
        · exact ⟨id, hold line id (hann.new line hline ⟨r, hadds, hr⟩), .adds hv hadds⟩
        · obtain ⟨hne, hmapped, -⟩ :=
            hnew line ((hann.of_keeps hdiff hvalid.map hkeeps hr).trans hline)
          have hq : q < k := by
            rw [hend hne]
            exact (hkeeps.bounds hs.left hs.right hs.good).2.2
          have hln : blame₁.linemap1[q]? = some (line : ℤ) := by
            rcases hcarried q hq with ⟨-, hnot⟩ | ⟨r', hkeeps', hr'⟩
            · exact absurd hkeeps (hnot r)
            · obtain rfl := (hdiff.unique hkeeps hkeeps').mpr rfl
              exact hr'.trans hr
          obtain ⟨id', hid, hblamed⟩ := hmapped q hln
          exact ⟨id', hid, .keeps hv hkeeps hblamed⟩
      · intro hnot
        have hsame := hann.old line fun ⟨_, r, _, hr⟩ => hnot r hr
        obtain ⟨hne, -, hlost⟩ := hnew line (hsame.trans hline)
        refine hlost fun q hln => ?_
        have hq : q < k := by
          rw [hend hne, ← hlen]
          exact (List.getElem?_eq_some_iff.mp hln).1
        rcases hcarried q hq with ⟨hneg, -⟩ | ⟨r, -, hr⟩
        · rw [hln] at hneg
          have := Option.some.inj hneg
          omega
        · exact hnot r (hr.symm.trans hln)

/-! ## Blame -/

/-- A state in the middle of a run has the rest of it before it. -/
theorem Processing.blameAll_append {content : Bytes} {done : List ι}
    (h : Processing diff hdrlen repo path content done blame) (rest : List ι) :
    ∃ processed, blameAll diff hdrlen repo path (done ++ rest) none (blamePrepare hdrlen content)
        = blameAll diff hdrlen repo path rest processed blame
      ∧ rest.getLast?.or processed = (done ++ rest).getLast? := by
  induction h generalizing rest with
  | start => exact ⟨none, rfl, Option.or_none⟩
  | @next ids id blame blame' _ hcommit hne ih =>
    obtain ⟨processed, heq, -⟩ := ih (id :: rest)
    refine ⟨some id, ?_, ?_⟩
    · rw [List.append_assoc, List.singleton_append, heq, blameAll, hcommit]
      exact if_neg hne
    · rw [List.getLast?_append, List.getLast?_append]
      rfl

/-- How many lines there are does not change while commits are processed. -/
theorem Processing.nlines {content : Bytes} (hdiff : SoundDiff diff)
    (h : Processing diff hdrlen repo path content ids blame) :
    blame.nlines = (blamePrepare hdrlen content : Blame ι).nlines := by
  induction h with
  | start => rfl
  | next hprev hcommit _ ih =>
    exact (blameCommit_stepsTo hdiff (hprev.valid hdiff) hcommit).nlines.trans ih

variable [LinearOrder ι] {startId : ι} {fuel : ℕ}

/-- `blame_open` once the path and the commits are known: an empty file is not blamed, any other
file is blamed commit by commit from the prepared state. -/
theorem blameOpen_eq {content : Bytes}
    (hpath : repo.gotObjectIdByPath startId path = .ok (.blob content))
    (htraverse : CommitGraph.traverse repo path true fuel startId = .ok ids) :
    blameOpen diff hdrlen repo path fuel startId
      = if gotObjectBlobDumpToFile (hdrlen (.blob content)) content = [] then
          .ok (blamePrepare hdrlen content)
        else blameAll diff hdrlen repo path ids none (blamePrepare hdrlen content) := by
  obtain ⟨graph, hstart, hiter⟩ := bind_eq_ok_iff.mp htraverse
  rw [blameOpen, hpath, ok_bind, gotObjectOpenAsBlob, ok_bind]
  dsimp only
  split
  · rfl
  · rw [hstart, ok_bind, blameLoop_eq hiter]

/-- **Blame keeps its maps correct, and blames every line on the right commit.** Whichever commits
were processed, the map of the newer file leads from its lines to lines of the file being blamed
with the same text, and no two to the same one (`LineMap`), and a commit that is processed next
takes it one step further. In the end all lines are annotated, lines that were annotated on the way
have kept their commits, and each line has the commit which it is to be blamed on: the newest whose
difference adds it, or the last one. -/
theorem blameOpen_spec {content : Bytes} (hdiff : SoundDiff diff)
    (hpath : repo.gotObjectIdByPath startId path = .ok (.blob content))
    (htraverse : CommitGraph.traverse repo path true fuel startId = .ok (ids ++ [last]))
    (hread : ∀ id ∈ ids ++ [last], ∃ v, ParentVersion hdrlen repo path id v) :
    (∀ done blame, Processing diff hdrlen repo path content done blame →
      LineMap (blobAtoms hdrlen content) blame.data2 blame.linemap2 ∧ blame.Counted
        ∧ ∀ id blame', blameCommit diff hdrlen repo path blame id = .ok blame' →
          blame.StepsTo (blobAtoms hdrlen content) blame')
      ∧ ∃ blame, blameOpen diff hdrlen repo path fuel startId = .ok blame ∧ blame.Counted
        ∧ blame.nlines = ((blobAtoms hdrlen content).filter (·.data ≠ [])).length
        ∧ (∀ done rest blame', ids ++ [last] = done ++ rest →
          Processing diff hdrlen repo path content done blame' →
          ∀ (line : ℕ) (id : ι), blame'.lines[line]? = some (some id) →
            blame.lines[line]? = some (some id))
        ∧ ∀ line < blame.nlines, ∃ id, blame.lines[line]? = some (some id)
          ∧ Blamed diff hdrlen repo path last (ids ++ [last])
            (blobAtoms hdrlen content) line id := by
  refine ⟨fun done blame h => ?_, ?_⟩
  · have hvalid := h.valid hdiff
    exact ⟨hvalid.map, hvalid.counted, fun id blame' hcommit =>
      blameCommit_stepsTo hdiff hvalid hcommit⟩
  · rw [blameOpen_eq hpath htraverse]
    have hvalid := @valid_blamePrepare ι hdrlen content
    split
    · next hempty =>
      have hzero : (blamePrepare hdrlen content : Blame ι).nlines = 0 := by
        unfold blamePrepare
        dsimp only
        rw [hempty]
        rfl
      refine ⟨_, rfl, hvalid.counted, nlines_blamePrepare hdrlen content,
        fun done rest blame' _ h line id hline => ?_,
        fun line hline => by omega⟩
      have hlt := (List.getElem?_eq_some_iff.mp hline).1
      have hn := h.nlines hdiff
      rw [(h.valid hdiff).counted.length] at hlt
      omega
    · have hlast : (ids ++ [last]).getLast? = some last := List.getLast?_concat
      obtain ⟨blame, heq, hcounted, hnlines, -, hnew⟩ := @blameAll_spec ι diff hdrlen repo path last
        _ _ _ none hdiff hvalid hread (by rw [Option.or_none, hlast])
      refine ⟨blame, heq, hcounted, hnlines.trans (nlines_blamePrepare hdrlen content), ?_,
        fun line hline => ?_⟩
      · intro done rest blame' hids h line id hline
        rw [hids] at heq hread hlast
        obtain ⟨processed, heq', hor⟩ := h.blameAll_append rest
        obtain ⟨blame'', heq'', -, -, hold, -⟩ :=
          @blameAll_spec ι diff hdrlen repo path last rest _ _
          processed hdiff (h.valid hdiff) (fun id hid => hread id (List.mem_append_right _ hid))
          (hor.trans hlast)
        rw [heq', heq''] at heq
        obtain rfl := Except.ok.inj heq
        exact hold line id hline
      · rw [hnlines] at hline
        obtain ⟨id, hid, hblamed⟩ := (hnew line (List.getElem?_replicate_of_lt hline)).1 line
          (linemap2_blamePrepare hline)
        exact ⟨id, hid, hblamed⟩

/-! ## Two histories -/

/-- A commit with one file. -/
def fileCommit (content : Bytes) (time : ℤ) (parentIds : List ℕ) : CommitObject ℕ :=
  ⟨.tree (.cons GOT_DEFAULT_FILE_MODE ⟨['f'], isName_f⟩ (.blob content) .nil), parentIds, time,
    false⟩

/-- The path of that file. -/
def filePath : List Name := [⟨['f'], isName_f⟩]

/-- The first line was put in front of the second. -/
def lineAdded : Repository ℕ :=
  .ofCommits [fileCommit [97, 10, 98, 10] 20 [1], fileCommit [98, 10] 10 []]

/-- The theorem at work on a history of two commits, the second of which adds a line. -/
theorem blameOpen_spec_lineAdded :
    ∃ blame, blameOpen diffMainPatience (fun _ => 0) lineAdded filePath 6 0 = .ok blame
      ∧ ∀ line < blame.nlines, ∃ id, blame.lines[line]? = some (some id)
        ∧ Blamed diffMainPatience (fun _ => 0) lineAdded filePath 1 [0, 1]
          (blobAtoms (fun _ => 0) [97, 10, 98, 10]) line id := by
  have hread : ∀ id ∈ [0] ++ [1], ∃ v, ParentVersion (fun _ => 0) lineAdded filePath id v := by
    intro id hid
    rcases List.mem_cons.mp hid with rfl | hid
    · exact ⟨_, @ParentVersion.changed _ _ _ _ _ (fileCommit [97, 10, 98, 10] 20 [1]) 1 [] [98, 10]
        rfl rfl rfl⟩
    · obtain rfl := List.mem_singleton.mp hid
      exact ⟨_, @ParentVersion.root _ _ _ _ _ (fileCommit [98, 10] 10 []) rfl rfl⟩
  obtain ⟨-, blame, heq, -, -, -, hlines⟩ :=
    @blameOpen_spec ℕ diffMainPatience (fun _ => 0) lineAdded
    filePath 1 [0] _ 0 6 [97, 10, 98, 10] diffMainPatience_sound rfl rfl hread
  exact ⟨blame, heq, hlines⟩

/-- All lines were replaced. -/
def linesReplaced : Repository ℕ :=
  .ofCommits [fileCommit [97, 10, 98, 10] 20 [1], fileCommit [99, 10, 100, 10, 101, 10] 10 []]

/-- **A map that is not filled in**: the fourth line of the older version, which is
empty, is taken to be the first line of the file. -/
theorem linemap1_of_linesReplaced :
    ∃ blame : Blame ℕ, Processing diffMainPatience (fun _ => 0) linesReplaced filePath
      [97, 10, 98, 10]
        [] (blamePrepare (fun _ => 0) [97, 10, 98, 10])
      ∧ blameCommit diffMainPatience (fun _ => 0) linesReplaced filePath
        (blamePrepare (fun _ => 0) [97, 10, 98, 10]) 0 = .ok blame
      ∧ SoundDiff diffMainPatience
      ∧ blame.linemap1 = [-1, -1, -1, 0]
      ∧ ¬LineMap (blobAtoms (fun _ => 0) [97, 10, 98, 10]) blame.data1 blame.linemap1 := by
  refine ⟨⟨2, 2, [some 0, some 0], blobAtoms (fun _ => 0) [99, 10, 100, 10, 101, 10],
    blobAtoms (fun _ => 0) [97, 10, 98, 10], [-1, -1, -1, 0], [0, 1, 2]⟩, .start, rfl,
    diffMainPatience_sound, rfl, fun h => ?_⟩
  obtain ⟨line, atom, atom', hln, hatom, hatom', heq⟩ :=
    (h.content 3 0 rfl).resolve_left (by decide)
  obtain rfl : line = 0 := by omega
  obtain rfl := Option.some.inj hatom
  obtain rfl := Option.some.inj hatom'
  exact absurd heq (by decide)

end Got

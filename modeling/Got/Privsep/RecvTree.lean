import Got.Path
import Got.Privsep.Imsg

/-!
# Receiving a tree, and a blob

A tree is sent as the number of its entries, followed by one message for each of them. The receiver
allocates an array, and each entry goes to the next place of it. How many there are already is
compared with the size of the array only when no more messages are complete, so one entry too many
is written behind the array if it comes along with the last one.

What has been sent is not trusted, so what matters is which sequences of messages are handled
without a write or a read out of bounds. Each of them is described by the frames which are
handled: those in front of them were the number of entries and entries.
-/

namespace Got

open Records

namespace Privsep

/-! ## The tree -/

/-- The size of `struct got_imsg_tree_object`. -/
def sizeofImsgTree : ℕ := 4

/-- The size of `struct got_imsg_tree_entry`. -/
def sizeofImsgTreeEntry : ℕ := SHA1_DIGEST_LENGTH + 4

/-- `struct got_tree_entry`. The name is an array. -/
structure GotTreeEntry where
  mode : UInt32
  name : Bytes
  id : Sha1
  idx : ℕ
  deriving DecidableEq

/-- `struct got_tree_object`, with an array of entries. Those that are not written yet are zero. -/
structure GotTreeObject where
  nentries : ℤ
  entries : List (Option GotTreeEntry)
  deriving DecidableEq

/-- The entry of a message. -/
def treeEntryOf (data : Bytes) (idx : ℕ) : GotTreeEntry where
  mode := readMode ((data.drop SHA1_DIGEST_LENGTH).take 4)
  name := data.drop sizeofImsgTreeEntry ++
    List.replicate (NAME_MAX + 1 - (data.drop sizeofImsgTreeEntry).length) 0
  id := oidOf (data.take SHA1_DIGEST_LENGTH)
  idx := idx

/-- What has been received of a tree: the object, and the number of entries. -/
abbrev TreeState := Option GotTreeObject × ℕ

/-- **One turn of the loop of `got_privsep_recv_tree`.** -/
def recvTreeMsg (st : TreeState) (frame : Frame) : Except GotErr TreeState :=
  match frame with
  -- `imsg_get` has failed, and this is not noticed: a message which is not there is used and freed
  | none => .error .outOfMap
  | some imsg =>
    if imsg.data.length < min sizeofImsgError sizeofImsgTree then .error .privsepLen
    else match imsg.type with
      | .error => .error (recvImsgError imsg.data)
      | .tree =>
        if st.1.isSome then .error .privsepMsg
        else if imsg.data.length ≠ sizeofImsgTree then .error .privsepLen
        else
          let nentries := (readInt imsg.data).toInt
          if nentries < 0 then .error (.errno .nomem)
          else .ok (some ⟨nentries, List.replicate nentries.toNat none⟩, st.2)
      | .treeEntry =>
        match st.1 with
        | none => .error .privsepMsg
        | some tree =>
          if imsg.data.length < sizeofImsgTreeEntry ∨ imsg.data.length > MAX_IMSGSIZE then
            .error .privsepLen
          else
            let datalen := imsg.data.length - sizeofImsgTreeEntry
            if datalen = 0 ∨ datalen > MAX_IMSGSIZE then .error .privsepLen
            else if datalen + 1 > NAME_MAX + 1 then .error .noSpace
            else if st.2 < tree.entries.length then
              .ok (some { tree with
                entries := tree.entries.set st.2 (some (treeEntryOf imsg.data st.2)) }, st.2 + 1)
            else .error .outOfMap
      | _ => .error .privsepMsg

/-- The reads. As long as entries are missing there is one more. -/
def recvTreeReads (st : TreeState) : List (List Frame) → Except GotErr (Option GotTreeObject)
  | [] => .error .privsepPipe
  | frames :: reads => do
    let st ← frames.foldlM recvTreeMsg st
    if st.1.any fun tree => tree.nentries ≠ (st.2 : ℤ) then recvTreeReads st reads else return st.1

/-- What is complete after each read, the first of which comes with what was complete before. -/
def ImsgBuf.batches (ibuf : ImsgBuf) : List (List Frame) :=
  match ibuf.reads with
  | [] => []
  | frames :: reads => (ibuf.frames ++ frames) :: reads

/-- **`got_privsep_recv_tree`**. It reads before it looks at anything. -/
def gotPrivsepRecvTree (ibuf : ImsgBuf) : Except GotErr (Option GotTreeObject) :=
  recvTreeReads (none, 0) ibuf.batches

/-! ## Sequences of messages -/

/-- A message with the number of entries. -/
def IsHeader (n : ℕ) (frame : Frame) : Prop :=
  ∃ imsg, frame = some imsg ∧ imsg.type = .tree ∧ imsg.data.length = sizeofImsgTree ∧
    (readInt imsg.data).toInt = n

/-- A message with an entry whose name has a length that is accepted. -/
def IsEntry (frame : Frame) : Prop :=
  ∃ imsg, frame = some imsg ∧ imsg.type = .treeEntry ∧
    sizeofImsgTreeEntry < imsg.data.length ∧ imsg.data.length ≤ sizeofImsgTreeEntry + NAME_MAX

/-- An error that the program does not know. It is aborted then. -/
def IsUnknownError (frame : Frame) : Prop :=
  ∃ imsg, frame = some imsg ∧ imsg.type = .error ∧ imsg.data.length = sizeofImsgError ∧
    errorKnown (readInt (imsg.data.take 4)).toInt = false

/-- **The start of a tree**: nothing, or the number of entries and some of these. -/
def TreeStart (frames : List Frame) : Prop :=
  frames = [] ∨ ∃ n header es, frames = header :: es ∧ IsHeader n header ∧ (∀ e ∈ es, IsEntry e) ∧
    es.length ≤ n

/-- **A whole tree**: the number of entries, and as many of them. -/
def WholeTree (frames : List Frame) : Prop :=
  ∃ header es, frames = header :: es ∧ IsHeader es.length header ∧ ∀ e ∈ es, IsEntry e

/-! ## What the loop knows -/

variable {frames es b back : List Frame} {header frame : Frame} {n : ℕ} {st : TreeState}

/-- The number of entries that a message tells. -/
def countOf (header : Frame) : ℕ := header.elim 0 fun imsg => (readInt imsg.data).toInt.toNat

/-- The tree after some entries: they are in the array one behind the other. -/
def treeAfter (n : ℕ) (es : List Frame) : GotTreeObject where
  nentries := n
  entries := es.mapIdx (fun i frame => frame.map fun imsg => treeEntryOf imsg.data i) ++
    List.replicate (n - es.length) none

/-- What is known after the start of a tree. -/
def stateAfter : List Frame → TreeState
  | [] => (none, 0)
  | header :: es => (some (treeAfter (countOf header) es), es.length)

/-- What must not come next: no message, an unknown error, or an entry too many. -/
def Bad (frames : List Frame) (frame : Frame) : Prop :=
  frame = none ∨ IsUnknownError frame ∨ IsEntry frame ∧ WholeTree frames

/-- The ways to fail that are no errors of the function. -/
def Fatal (e : GotErr) : Prop := e = .outOfMap ∨ e = .aborted

theorem length_treeAfter (h : es.length ≤ n) : (treeAfter n es).entries.length = n := by
  rw [treeAfter, List.length_append, List.length_mapIdx, List.length_replicate]
  exact Nat.add_sub_cancel' h

/-- **An entry goes to the next place.** -/
theorem treeAfter_set {imsg : Imsg} (h : es.length < n) :
    (treeAfter n es).entries.set es.length (some (treeEntryOf imsg.data es.length)) =
      (treeAfter n (es ++ [some imsg])).entries := by
  have hrep : List.replicate (n - es.length) (none : Option GotTreeEntry) =
      none :: List.replicate (n - (es.length + 1)) none := by
    rw [← List.replicate_succ]
    congr 1
    omega
  rw [treeAfter, treeAfter, List.set_append_right _ _ (by rw [List.length_mapIdx]),
    List.length_mapIdx, Nat.sub_self, hrep, List.set_cons_zero, List.mapIdx_append,
      List.append_assoc,
    List.length_append, List.length_singleton]
  simp

/-- A message of type error stops the process exactly when its code is none that is known. -/
theorem fatal_recvImsgError {imsg : Imsg} (htype : imsg.type = .error) :
    Fatal (recvImsgError imsg.data) ↔ IsUnknownError (some imsg) := by
  unfold recvImsgError gotError Fatal
  by_cases hlen : imsg.data.length = sizeofImsgError
  · rw [if_neg (not_not.mpr hlen)]
    cases hknown : errorKnown (readInt (imsg.data.take 4)).toInt with
    | true =>
      refine iff_of_false (by simp) fun ⟨m, hm, _, _, h⟩ => ?_
      obtain rfl := Option.some.inj hm
      rw [hknown] at h
      exact nomatch h
    | false => exact iff_of_true (by simp) ⟨imsg, rfl, htype, hlen, hknown⟩
  · rw [if_pos hlen]
    refine iff_of_false (by simp) fun ⟨m, hm, _, h, _⟩ => ?_
    obtain rfl := Option.some.inj hm
    exact hlen h

theorem countOf_eq (h : IsHeader n header) : countOf header = n := by
  obtain ⟨imsg, rfl, -, -, hn⟩ := h
  show (readInt imsg.data).toInt.toNat = n
  rw [hn]
  rfl

/-- A tree begins with its header. -/
theorem treeStart_singleton : TreeStart [frame] ↔ ∃ n, IsHeader n frame := by
  constructor
  · rintro (h | ⟨n, header, es, h, hheader, -, -⟩)
    · exact nomatch h
    · obtain ⟨rfl, -⟩ := List.cons.inj h
      exact ⟨n, hheader⟩
  · rintro ⟨n, h⟩
    exact .inr ⟨n, frame, [], rfl, h, List.forall_mem_nil _, Nat.zero_le n⟩

/-- One more frame of a tree is received when it is an entry and the tree is not complete. -/
theorem treeStart_append (h : IsHeader n header) (hes : ∀ e ∈ es, IsEntry e) :
    TreeStart (header :: es ++ [frame]) ↔ IsEntry frame ∧ es.length < n := by
  constructor
  · rintro (h' | ⟨n', header', es', heq, hheader, hes', hlen⟩)
    · exact nomatch h'
    · rw [List.cons_append] at heq
      obtain ⟨rfl, rfl⟩ := List.cons.inj heq
      have hn : n' = n := (countOf_eq hheader).symm.trans (countOf_eq h)
      rw [List.length_append, List.length_singleton] at hlen
      exact ⟨hes' frame (List.mem_append_right _ List.mem_cons_self), by omega⟩
  · rintro ⟨hentry, hlen⟩
    refine .inr ⟨n, header, es ++ [frame], rfl, h, ?_, ?_⟩
    · intro e he
      rcases List.mem_append.mp he with he | he
      · exact hes e he
      · exact List.mem_singleton.mp he ▸ hentry
    · rw [List.length_append, List.length_singleton]
      omega

/-- A tree is whole when it has as many entries as its header says. -/
theorem wholeTree_iff (h : IsHeader n header) (hes : ∀ e ∈ es, IsEntry e) :
    WholeTree (header :: es) ↔ es.length = n := by
  constructor
  · rintro ⟨header', es', heq, hheader, -⟩
    obtain ⟨rfl, rfl⟩ := List.cons.inj heq
    exact (countOf_eq hheader).symm.trans (countOf_eq h)
  · rintro rfl
    exact ⟨header, es, rfl, h, hes⟩

/-- What makes a message the header of a tree. -/
theorem exists_isHeader_some {imsg : Imsg} : (∃ n, IsHeader n (some imsg)) ↔
    imsg.type = .tree ∧ imsg.data.length = sizeofImsgTree ∧ ¬ (readInt imsg.data).toInt < 0 := by
  constructor
  · rintro ⟨n, m, hm, htype, hlen, hn⟩
    obtain rfl := Option.some.inj hm
    exact ⟨htype, hlen, by omega⟩
  · rintro ⟨htype, hlen, hn⟩
    exact ⟨_, imsg, rfl, htype, hlen, (Int.toNat_of_nonneg (not_lt.mp hn)).symm⟩

/-- What makes a message an unknown error. -/
theorem isUnknownError_some {imsg : Imsg} : IsUnknownError (some imsg) ↔
    imsg.type = .error ∧ imsg.data.length = sizeofImsgError ∧
      errorKnown (readInt (imsg.data.take 4)).toInt = false := by
  constructor
  · rintro ⟨m, hm, h⟩
    obtain rfl := Option.some.inj hm
    exact h
  · exact fun h => ⟨imsg, rfl, h⟩

/-- What makes a message an entry of a tree. -/
theorem isEntry_some {imsg : Imsg} : IsEntry (some imsg) ↔ imsg.type = .treeEntry ∧
    sizeofImsgTreeEntry < imsg.data.length ∧ imsg.data.length ≤ sizeofImsgTreeEntry + NAME_MAX := by
  constructor
  · rintro ⟨m, hm, h⟩
    obtain rfl := Option.some.inj hm
    exact h
  · exact fun h => ⟨imsg, rfl, h⟩

instance : DecidablePred Fatal := fun _ => inferInstanceAs (Decidable (_ ∨ _))

/-- **The first message.** -/
theorem recvTreeMsg_first (frame : Frame) :
    (TreeStart [frame] → recvTreeMsg (none, 0) frame = .ok (stateAfter [frame])) ∧
    (¬ TreeStart [frame] → ∃ e, recvTreeMsg (none, 0) frame = .error e ∧
      (Fatal e ↔ Bad [] frame)) := by
  have hwhole : ¬ WholeTree [] := fun ⟨_, _, h, _⟩ => nomatch h
  have hbad : Bad [] frame ↔ frame = none ∨ IsUnknownError frame := by
    unfold Bad
    simp only [hwhole, and_false, or_false]
  rw [treeStart_singleton, hbad]
  cases frame with
  | none =>
    exact ⟨fun ⟨_, _, h, _⟩ => (nomatch h), fun _ => ⟨_, rfl, iff_of_true (.inl rfl) (.inl rfl)⟩⟩
  | some imsg =>
    have hnone : (some imsg = none ∨ IsUnknownError (some imsg)) ↔ IsUnknownError (some imsg) :=
      or_iff_right (by simp)
    rw [hnone, exists_isHeader_some]
    unfold recvTreeMsg
    dsimp only
    by_cases hshort : imsg.data.length < min sizeofImsgError sizeofImsgTree
    · rw [if_pos hshort, isUnknownError_some]
      refine ⟨fun ⟨_, hlen, _⟩ => ?_, fun _ => ⟨_, rfl, iff_of_false (by decide) ?_⟩⟩
      · rw [hlen] at hshort
        exact absurd hshort (by decide)
      · rintro ⟨-, hlen, -⟩
        rw [hlen] at hshort
        exact absurd hshort (by decide)
    · rw [if_neg hshort]
      cases htype : imsg.type with
      | error => exact ⟨fun h => (nomatch h.1), fun _ => ⟨_, rfl, fatal_recvImsgError htype⟩⟩
      | tree =>
        dsimp only
        rw [if_neg (by decide), isUnknownError_some, htype]
        by_cases hlen : imsg.data.length = sizeofImsgTree
        · rw [if_neg (not_not.mpr hlen)]
          by_cases hneg : (readInt imsg.data).toInt < 0
          · rw [if_pos hneg]
            exact ⟨fun h => absurd hneg h.2.2,
              fun _ => ⟨_, rfl, iff_of_false (by decide) (by simp)⟩⟩
          · rw [if_neg hneg]
            obtain ⟨n, hn⟩ := Int.eq_ofNat_of_zero_le (not_lt.mp hneg)
            refine ⟨fun _ => ?_, fun h => absurd ⟨rfl, hlen, hneg⟩ h⟩
            rw [stateAfter, countOf_eq ⟨imsg, rfl, htype, hlen, hn⟩, hn]
            rfl
        · rw [if_pos hlen]
          exact ⟨fun h => absurd h.2.1 hlen, fun _ => ⟨_, rfl, iff_of_false (by decide) (by simp)⟩⟩
      | treeEntry | commit | commitLogmsg | blob | tag | tagTagmsg | other =>
        rw [isUnknownError_some, htype]
        exact ⟨fun h => (nomatch h.1), fun _ => ⟨_, rfl, iff_of_false (by decide) (by simp)⟩⟩

/-- **The messages behind the first one.** -/
theorem recvTreeMsg_next (h : IsHeader n header) (hes : ∀ e ∈ es, IsEntry e) (hlen : es.length ≤ n)
    (frame : Frame) :
    (TreeStart (header :: es ++ [frame]) → recvTreeMsg (stateAfter (header :: es)) frame =
      .ok (stateAfter (header :: es ++ [frame]))) ∧
    (¬ TreeStart (header :: es ++ [frame]) → ∃ e,
      recvTreeMsg (stateAfter (header :: es)) frame = .error e ∧
        (Fatal e ↔ Bad (header :: es) frame)) := by
  have hstate (es : List Frame) : stateAfter (header :: es)
    = (some (treeAfter n es), es.length) := by
    rw [stateAfter, countOf_eq h]
  unfold Bad
  rw [treeStart_append h hes, wholeTree_iff h hes, List.cons_append, hstate, hstate]
  cases frame with
  | none =>
    exact ⟨fun ⟨⟨_, h, _⟩, _⟩ => (nomatch h), fun _ => ⟨_, rfl, iff_of_true (.inl rfl) (.inl rfl)⟩⟩
  | some imsg =>
    have hnone (p : Prop) : some imsg = none ∨ p ↔ p := or_iff_right (by simp)
    rw [hnone, isEntry_some]
    unfold recvTreeMsg
    dsimp only
    by_cases hshort : imsg.data.length < min sizeofImsgError sizeofImsgTree
    · rw [if_pos hshort, isUnknownError_some]
      have hshort' : imsg.data.length < 4 := hshort
      refine ⟨fun ⟨⟨_, hlt, _⟩, _⟩ => ?_, fun _ => ⟨_, rfl, iff_of_false (by decide) ?_⟩⟩
      · unfold sizeofImsgTreeEntry at hlt
        omega
      · rintro (⟨-, hlt, -⟩ | ⟨⟨-, hlt, -⟩, -⟩)
        · unfold sizeofImsgError at hlt
          omega
        · unfold sizeofImsgTreeEntry at hlt
          omega
    · rw [if_neg hshort]
      cases htype : imsg.type with
      | error =>
        refine ⟨fun h => (nomatch h.1.1), fun _ => ⟨_, rfl, ?_⟩⟩
        rw [fatal_recvImsgError htype]
        simp
      | treeEntry =>
        dsimp only
        rw [isUnknownError_some, htype]
        by_cases hentry : sizeofImsgTreeEntry < imsg.data.length ∧
            imsg.data.length ≤ sizeofImsgTreeEntry + NAME_MAX
        · obtain ⟨hlt, hle⟩ := hentry
          have hmax : sizeofImsgTreeEntry + NAME_MAX ≤ MAX_IMSGSIZE := by decide
          rw [if_neg (by omega), if_neg (by omega), if_neg (by omega), length_treeAfter hlen]
          by_cases hroom : es.length < n
          · rw [if_pos hroom, treeAfter_set hroom]
            refine ⟨fun _ => ?_, fun h => absurd ⟨⟨rfl, hlt, hle⟩, hroom⟩ h⟩
            rw [List.length_append]
            rfl
          · rw [if_neg hroom]
            refine ⟨fun h => absurd h.2 hroom, fun _ => ⟨_, rfl, iff_of_true (by decide) ?_⟩⟩
            exact .inr ⟨⟨rfl, hlt, hle⟩, by omega⟩
        · refine ⟨fun h => absurd h.1.2 hentry, fun _ => ?_⟩
          have hbad : ¬ ((ImsgType.treeEntry = .error ∧ imsg.data.length = sizeofImsgError ∧
              errorKnown (readInt (imsg.data.take 4)).toInt = false) ∨
              (ImsgType.treeEntry = .treeEntry ∧ sizeofImsgTreeEntry < imsg.data.length ∧
                imsg.data.length ≤ sizeofImsgTreeEntry + NAME_MAX) ∧ es.length = n) := by
            rintro (⟨h, -⟩ | ⟨h, -⟩)
            · exact nomatch h
            · exact hentry h.2
          split
          · exact ⟨_, rfl, iff_of_false (by decide) hbad⟩
          · split
            · exact ⟨_, rfl, iff_of_false (by decide) hbad⟩
            · split
              · exact ⟨_, rfl, iff_of_false (by decide) hbad⟩
              · exact absurd ⟨by omega, by omega⟩ hentry
      | tree =>
        dsimp only
        rw [if_pos (by rfl), isUnknownError_some, htype]
        exact ⟨fun h => (nomatch h.1.1), fun _ => ⟨_, rfl, iff_of_false (by decide) (by simp)⟩⟩
      | commit | commitLogmsg | blob | tag | tagTagmsg | other =>
        rw [isUnknownError_some, htype]
        exact ⟨fun h => (nomatch h.1.1), fun _ => ⟨_, rfl, iff_of_false (by decide) (by simp)⟩⟩

/-- **What one message does** after the start of a tree: it goes on with the tree, or it fails. -/
theorem recvTreeMsg_spec (h : TreeStart frames) (frame : Frame) :
    (TreeStart (frames ++ [frame]) →
      recvTreeMsg (stateAfter frames) frame = .ok (stateAfter (frames ++ [frame]))) ∧
    (¬ TreeStart (frames ++ [frame]) → ∃ e, recvTreeMsg (stateAfter frames) frame = .error e ∧
      (Fatal e ↔ Bad frames frame)) := by
  rcases h with rfl | ⟨n, header, es, rfl, hheader, hes, hlen⟩
  · exact recvTreeMsg_first frame
  · exact recvTreeMsg_next hheader hes hlen frame

/-- What goes on with the tree is not bad. -/
theorem not_bad_of_treeStart (h : TreeStart frames) (hnext : TreeStart (frames ++ [frame])) :
    ¬ Bad frames frame := by
  have hframe : (∃ n, IsHeader n frame) ∨ IsEntry frame ∧ ¬ WholeTree frames := by
    rcases h with rfl | ⟨n, header, es, rfl, hheader, hes, -⟩
    · exact .inl (treeStart_singleton.mp hnext)
    · obtain ⟨hentry, hlt⟩ := (treeStart_append hheader hes).mp hnext
      exact .inr ⟨hentry, fun hwhole => hlt.ne ((wholeTree_iff hheader hes).mp hwhole)⟩
  rintro (rfl | ⟨imsg, rfl, htype, -⟩ | ⟨hentry, hwhole⟩)
  · rcases hframe with ⟨_, _, h, _⟩ | ⟨⟨_, h, _⟩, _⟩
    · exact nomatch h
    · exact nomatch h
  · rcases hframe with ⟨_, m, hm, h, _⟩ | ⟨⟨m, hm, h, _⟩, _⟩
    · obtain rfl := Option.some.inj hm
      rw [htype] at h
      exact nomatch h
    · obtain rfl := Option.some.inj hm
      rw [htype] at h
      exact nomatch h
  · rcases hframe with ⟨_, m, hm, h, _⟩ | ⟨-, h⟩
    · obtain ⟨m', hm', htype, -⟩ := hentry
      obtain rfl := Option.some.inj (hm.symm.trans hm')
      rw [htype] at h
      exact nomatch h
    · exact h hwhole

/-! ## Every run -/

/-- A name which ends within its array. -/
def Terminated (name : Bytes) : Prop := name.length = NAME_MAX + 1 ∧ 0 ∈ name

/-- A tree in which every entry has been written. -/
def GotTreeObject.Complete (tree : GotTreeObject) : Prop :=
  (tree.entries.length : ℤ) = tree.nentries ∧
    ∀ entry ∈ tree.entries, ∃ te, entry = some te ∧ Terminated te.name

/-- **What a receiver may return**: an error, or a complete tree. -/
def GoodTree : Except GotErr (Option GotTreeObject) → Prop
  | .error e => ¬ Fatal e
  | .ok none => False
  | .ok (some tree) => tree.Complete

/-- **The frames which are handled**, after those that have been seen. A batch is handled
frame by frame as long as this is the start of a tree, and after it comes the next one if the tree
is not whole. -/
inductive Handled : List Frame → List (List Frame) → List Frame → Frame → Prop
  | here {seen b : List Frame} {frame : Frame} {back : List (List Frame)} :
    Handled seen ((frame :: b) :: back) seen frame
  | frame {seen b pre : List Frame} {f f' : Frame} {back : List (List Frame)} :
    TreeStart (seen ++ [f]) → Handled (seen ++ [f]) (b :: back) pre f' →
    Handled seen ((f :: b) :: back) pre f'
  | batch {seen pre : List Frame} {f' : Frame} {back : List (List Frame)} :
    seen ≠ [] → ¬ WholeTree seen → Handled seen back pre f' → Handled seen ([] :: back) pre f'

/-- The name that is received with an entry is terminated. -/
theorem terminated_treeEntryOf {imsg : Imsg} (h : IsEntry (some imsg)) (idx : ℕ) :
    Terminated (treeEntryOf imsg.data idx).name := by
  obtain ⟨-, hlt, hle⟩ := isEntry_some.mp h
  have hname : (imsg.data.drop sizeofImsgTreeEntry).length ≤ NAME_MAX := by
    rw [List.length_drop]
    omega
  constructor
  · rw [treeEntryOf, List.length_append, List.length_replicate]
    omega
  · refine List.mem_append_right _ (List.mem_replicate.mpr ⟨?_, rfl⟩)
    omega

/-- Every entry that is in the array is one that was received. -/
theorem treeAfter_names (hes : ∀ e ∈ es, IsEntry e) {te : GotTreeEntry}
    (h : some te ∈ (treeAfter n es).entries) : Terminated te.name := by
  rcases List.mem_append.mp h with h | h
  · obtain ⟨i, hi, heq⟩ := List.mem_mapIdx.mp h
    have hentry := hes _ (List.getElem_mem hi)
    obtain ⟨imsg, himsg, -⟩ := id hentry
    rw [himsg] at heq hentry
    obtain rfl := Option.some.inj heq
    exact terminated_treeEntryOf hentry i
  · exact nomatch (List.mem_replicate.mp h).2

/-- A tree that has received its entries is complete. -/
theorem complete_treeAfter (hes : ∀ e ∈ es, IsEntry e) : (treeAfter es.length es).Complete := by
  refine ⟨congrArg Int.ofNat (length_treeAfter le_rfl), fun entry hentry => ?_⟩
  cases entry with
  | some te => exact ⟨te, rfl, treeAfter_names hes hentry⟩
  | none =>
    rw [treeAfter, Nat.sub_self, List.replicate_zero, List.append_nil] at hentry
    obtain ⟨i, hi, heq⟩ := List.mem_mapIdx.mp hentry
    obtain ⟨imsg, himsg, -⟩ := hes _ (List.getElem_mem hi)
    rw [himsg] at heq
    exact nomatch heq

/-- What is stored on the way ends within its array. -/
theorem foldlM_names (b : List Frame) (h : TreeStart frames)
    (hfold : b.foldlM recvTreeMsg (stateAfter frames) = .ok st) {tree : GotTreeObject}
    (htree : st.1 = some tree) {te : GotTreeEntry} (hte : some te ∈ tree.entries) :
    Terminated te.name := by
  induction b generalizing frames with
  | nil =>
    obtain rfl := Except.ok.inj hfold
    rcases h with rfl | ⟨n, header, es, rfl, -, hes, -⟩
    · exact nomatch htree
    · obtain rfl := Option.some.inj htree
      exact treeAfter_names hes hte
  | cons f b ih =>
    rw [List.foldlM_cons] at hfold
    obtain ⟨st', hst', hfold⟩ := bind_eq_ok_iff.mp hfold
    by_cases hnext : TreeStart (frames ++ [f])
    · rw [(recvTreeMsg_spec h f).1 hnext] at hst'
      obtain rfl := Except.ok.inj hst'
      exact ih hnext hfold
    · obtain ⟨e, he, -⟩ := (recvTreeMsg_spec h f).2 hnext
      rw [he] at hst'
      exact nomatch hst'

/-- A batch is received message by message. -/
theorem recvTreeReads_cons (st : TreeState) (f : Frame) (b : List Frame)
    (back : List (List Frame)) :
    recvTreeReads st ((f :: b) :: back) = recvTreeMsg st f >>= fun st =>
      recvTreeReads st (b :: back) := by
  rw [recvTreeReads, List.foldlM_cons]
  cases recvTreeMsg st f <;> rfl

/-- **Every run is good exactly if nothing bad is handled**, unless it returns at once. -/
theorem recvTreeReads_iff (batches : List (List Frame)) {seen : List Frame} (h : TreeStart seen)
    (hfirst : seen = [] → batches.head? ≠ some []) :
    GoodTree (recvTreeReads (stateAfter seen) batches) ↔
      ∀ pre f, Handled seen batches pre f → ¬ Bad pre f := by
  induction batches generalizing seen with
  | nil => exact iff_of_true (show ¬ Fatal .privsepPipe by decide) fun pre f hf => nomatch hf
  | cons b back ih =>
    induction b generalizing seen with
    | nil =>
      have hne : seen ≠ [] := fun hnil => hfirst hnil rfl
      obtain ⟨n, header, es, rfl, hheader, hes, hlen⟩ := h.resolve_left hne
      have hstate : stateAfter (header :: es) = (some (treeAfter n es), es.length) := by
        rw [stateAfter, countOf_eq hheader]
      rw [recvTreeReads, List.foldlM_nil, hstate]
      show GoodTree (if ((n : ℤ) ≠ (es.length : ℤ) : Bool) then _ else _) ↔ _
      by_cases hwhole : es.length = n
      · rw [if_neg (by simp [hwhole])]
        refine iff_of_true ?_ fun pre f hf => ?_
        · subst hwhole
          exact complete_treeAfter hes
        · cases hf with
          | batch _ hnot _ => exact absurd ((wholeTree_iff hheader hes).mpr hwhole) hnot
      · rw [if_pos (by simp; omega), ← hstate,
          ih (.inr ⟨n, header, es, rfl, hheader, hes, hlen⟩) fun hnil => nomatch hnil]
        refine forall₂_congr fun pre f => imp_congr_left ⟨fun hf => ?_, fun hf => ?_⟩
        · exact .batch hne (fun h => hwhole ((wholeTree_iff hheader hes).mp h)) hf
        · cases hf with
          | batch _ _ hf => exact hf
    | cons f b ihb =>
      rw [recvTreeReads_cons]
      by_cases hnext : TreeStart (seen ++ [f])
      · rw [(recvTreeMsg_spec h f).1 hnext, ok_bind, ihb hnext fun hnil => by simp at hnil]
        constructor
        · intro hall pre f' hf
          cases hf with
          | here => exact not_bad_of_treeStart h hnext
          | frame _ hf => exact hall pre f' hf
        · exact fun hall pre f' hf => hall pre f' (.frame hnext hf)
      · obtain ⟨e, he, hfatal⟩ := (recvTreeMsg_spec h f).2 hnext
        rw [he, error_bind]
        show ¬ Fatal e ↔ _
        rw [hfatal]
        constructor
        · intro hbad pre f' hf
          cases hf with
          | here => exact hbad
          | frame hstart _ => exact absurd hstart hnext
        · exact fun hall => hall _ _ .here

/-! ## Blobs -/

/-- The size of `struct got_imsg_blob`. -/
def sizeofImsgBlob : ℕ := 16

/-- The size of the largest blob which is sent along. -/
def GOT_PRIVSEP_INLINE_BLOB_DATA_MAX : ℕ := MAX_IMSGSIZE - IMSG_HEADER_SIZE - sizeofImsgBlob

/-- The size which a message tells. -/
def blobSize (imsg : Imsg) : UInt64 := readSize (imsg.data.take 8)

/-- **`got_privsep_recv_blob`**: the data, if it came with the message, the size and the length of
the header. -/
def gotPrivsepRecvBlob (ibuf : ImsgBuf) : Except GotErr (Option Bytes × UInt64 × UInt64) := do
  let (imsg, _) ← gotPrivsepRecvImsg ibuf 0
  match imsg.type with
  | .blob =>
    if imsg.data.length < sizeofImsgBlob then throw .privsepLen
    let size := blobSize imsg
    let hdrlen := readSize ((imsg.data.drop 8).take 8)
    if imsg.data.length = sizeofImsgBlob then return (none, size, hdrlen)
    if size.toNat > GOT_PRIVSEP_INLINE_BLOB_DATA_MAX then throw .privsepLen
    -- `memcpy`, of as many bytes as the message tells
    if size.toNat ≤ imsg.data.length - sizeofImsgBlob then
      return (some ((imsg.data.drop sizeofImsgBlob).take size.toNat), size, hdrlen)
    else throw .outOfMap
  | _ => throw .privsepMsg

/-- What may be returned instead of a blob is an error. -/
def GoodBlob : Except GotErr (Option Bytes × UInt64 × UInt64) → Prop
  | .error e => ¬ Fatal e
  | .ok (outbuf, size, _) => ∀ out ∈ outbuf, out.length = size.toNat

/-- **A message that holds the blob it tells of**, if it comes with one of a size that is allowed.
-/
def HoldsBlob (imsg : Imsg) : Prop :=
  imsg.type = .blob → sizeofImsgBlob < imsg.data.length →
    (blobSize imsg).toNat ≤ GOT_PRIVSEP_INLINE_BLOB_DATA_MAX →
      (blobSize imsg).toNat ≤ imsg.data.length - sizeofImsgBlob

/-- A blob is received well exactly when the first message holds one. -/
theorem gotPrivsepRecvBlob_iff (ibuf : ImsgBuf) : GoodBlob (gotPrivsepRecvBlob ibuf) ↔
    ∀ imsg, ibuf.stream.head? = some (some imsg) →
      ¬ IsUnknownError (some imsg) ∧ HoldsBlob imsg := by
  cases hstream : ibuf.stream with
  | nil =>
    rw [gotPrivsepRecvBlob, gotPrivsepRecvImsg_nil hstream]
    exact iff_of_true (show ¬ Fatal .privsepPipe by decide) fun _ h => nomatch h
  | cons frame rest =>
    cases frame with
    | none =>
      rw [gotPrivsepRecvBlob, gotPrivsepRecvImsg_none hstream]
      exact iff_of_true (show ¬ Fatal (.errno .range) by decide) fun _ h => nomatch h
    | some imsg =>
      have hhead (p : Imsg → Prop) :
          (∀ m, (some imsg :: rest).head? = some (some m) → p m) ↔ p imsg := by
        rw [List.head?_cons]
        exact ⟨fun h => h imsg rfl, fun h m hm => Option.some.inj (Option.some.inj hm) ▸ h⟩
      obtain ⟨ibuf', -, himsg⟩ := gotPrivsepRecvImsg_cons hstream 0
      rw [hhead, gotPrivsepRecvBlob, himsg, if_neg (Nat.not_lt_zero _)]
      by_cases herror : imsg.type = .error
      · rw [if_pos herror, error_bind]
        show ¬ Fatal (recvImsgError imsg.data) ↔ _
        rw [fatal_recvImsgError herror]
        refine (and_iff_left fun h => ?_).symm
        rw [herror] at h
        exact nomatch h
      · have hknown : ¬ IsUnknownError (some imsg) := fun h => herror (isUnknownError_some.mp h).1
        rw [if_neg herror, ok_bind, and_iff_right hknown]
        unfold HoldsBlob
        dsimp only
        cases htype : imsg.type with
        | blob =>
          dsimp only
          by_cases hshort : imsg.data.length < sizeofImsgBlob
          · rw [if_pos hshort]
            exact iff_of_true (show ¬ Fatal .privsepLen by decide) fun _ h => absurd h (by omega)
          rw [if_neg hshort]
          by_cases hfd : imsg.data.length = sizeofImsgBlob
          · rw [if_pos hfd]
            exact iff_of_true (fun _ h => nomatch h) fun _ h => absurd h (by omega)
          rw [if_neg hfd]
          by_cases hmax : (blobSize imsg).toNat > GOT_PRIVSEP_INLINE_BLOB_DATA_MAX
          · rw [if_pos hmax]
            exact iff_of_true (show ¬ Fatal .privsepLen by decide) fun _ _ h => absurd h (by omega)
          rw [if_neg hmax]
          by_cases hsize : (blobSize imsg).toNat ≤ imsg.data.length - sizeofImsgBlob
          · rw [if_pos hsize]
            refine iff_of_true (fun out hout => ?_) fun _ _ _ => hsize
            obtain rfl := Option.some.inj hout
            rw [List.length_take, List.length_drop]
            omega
          · rw [if_neg hsize]
            refine iff_of_false (fun h => h (.inl rfl)) fun h => hsize (h rfl ?_ ?_)
            · omega
            · omega
        | error => exact absurd htype herror
        | commit | commitLogmsg | tree | treeEntry | tag | tagTagmsg | other =>
          exact iff_of_true (show ¬ Fatal .privsepMsg by decide) fun h => nomatch h

/-! ## Both -/

/-- **A tree is received safely**: nothing is written or read where it must not be, there is an
error or a complete tree in the end, and each name that is stored on the way is terminated in its
array. -/
structure RecvTreeSafe (ibuf : ImsgBuf) : Prop where
  result : GoodTree (gotPrivsepRecvTree ibuf)
  names : ∀ frames st, frames <+: ibuf.batches.flatten →
    frames.foldlM recvTreeMsg (none, 0) = .ok st → ∀ tree, st.1 = some tree →
      ∀ te, some te ∈ tree.entries → Terminated te.name

/-- **A tree is received safely** exactly when no message that is handled is a bad one. -/
theorem recvTreeSafe_iff (ibuf : ImsgBuf) : RecvTreeSafe ibuf ↔
    ibuf.batches.head? ≠ some [] ∧ ∀ pre f, Handled [] ibuf.batches pre f → ¬ Bad pre f := by
  have hnames : ∀ frames st, frames <+: ibuf.batches.flatten →
      frames.foldlM recvTreeMsg (none, 0) = .ok st → ∀ tree, st.1 = some tree →
        ∀ te, some te ∈ tree.entries → Terminated te.name :=
    fun frames _ _ hfold _ htree _ hte => foldlM_names frames (.inl rfl) hfold htree hte
  have hresult : RecvTreeSafe ibuf ↔ GoodTree (recvTreeReads (stateAfter []) ibuf.batches) :=
    ⟨fun h => h.result, fun h => ⟨h, hnames⟩⟩
  rw [hresult]
  by_cases hfirst : ibuf.batches.head? = some []
  · refine iff_of_false (fun h => ?_) fun h => h.1 hfirst
    obtain ⟨back, hback⟩ := List.head?_eq_some_iff.mp hfirst
    rw [hback] at h
    exact h
  · rw [recvTreeReads_iff _ (.inl rfl) fun _ => hfirst]
    exact (and_iff_right hfirst).symm

/-- **When a tree and a blob are received safely.** For the tree, a message has to be complete after
the first read, and nothing bad may be handled; for the blob, the first message must hold what it
tells of. -/
theorem receivedSafely_iff (tree blob : ImsgBuf) :
    RecvTreeSafe tree ∧ GoodBlob (gotPrivsepRecvBlob blob) ↔
      (tree.batches.head? ≠ some [] ∧ ∀ pre f, Handled [] tree.batches pre f → ¬ Bad pre f) ∧
      ∀ imsg, blob.stream.head? = some (some imsg) →
        ¬ IsUnknownError (some imsg) ∧ HoldsBlob imsg :=
  and_congr (recvTreeSafe_iff tree) (gotPrivsepRecvBlob_iff blob)

/-- A tree of no entries, and an entry, which come with one read. -/
def surplusEntry : ImsgBuf :=
  ⟨[], [[some ⟨.tree, intBytes 0⟩, some
    ⟨.treeEntry, List.replicate sizeofImsgTreeEntry 0 ++ [0x61]⟩]]⟩

/-- A blob of two bytes, with one of them. -/
def shortBlob : ImsgBuf :=
  ⟨[], [[some ⟨.blob, sizeBytes 2 ++ sizeBytes 0 ++ [0x61]⟩]]⟩

/-- **The entry is written behind the array**, and a byte behind the message is read. -/
theorem not_receivedSafely_surplusEntry :
    ¬ RecvTreeSafe surplusEntry ∧ ¬ GoodBlob (gotPrivsepRecvBlob shortBlob) := by
  constructor
  · intro h
    have hresult : gotPrivsepRecvTree surplusEntry = .error .outOfMap := by decide
    have hgood := h.result
    rw [hresult] at hgood
    exact hgood (.inl rfl)
  · have hresult : gotPrivsepRecvBlob shortBlob = .error .outOfMap := by decide
    rw [hresult]
    exact fun hgood => hgood (.inl rfl)

end Privsep

end Got

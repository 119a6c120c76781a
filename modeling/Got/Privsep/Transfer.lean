import Got.Privsep.RoundTrip

/-!
# Trees which arrive, and every object

The names of a tree are stored in arrays, so what arrives is compared with the tree object that
stands for the entries which were sent (`treeObjectOf`). A whole tree is received, in whatever
batches it comes, unless the first of them is empty (`recvTreeReads_whole`).

`Object` has an object of each kind. For each of them, and each way to cut its messages into reads,
`transferred_iff` says when it arrives.
-/

namespace Got

open Records

namespace Privsep

variable {imsg : Imsg} {ibuf : ImsgBuf} {frames : List Frame} {n : ℕ}

/-! ## Trees -/

/-- An entry as it is stored by the receiver. -/
def ParsedEntry.stored (pte : ParsedEntry) (idx : ℕ) : GotTreeEntry where
  mode := pte.mode
  name := pte.name.val ++ List.replicate (NAME_MAX + 1 - pte.name.val.length) 0
  id := pte.id
  idx := idx

/-- **The tree object of some entries.** -/
def treeObjectOf (entries : List ParsedEntry) : GotTreeObject where
  nentries := entries.length
  entries := entries.mapIdx fun i pte => some (pte.stored i)

/-- The message of an entry. -/
def ParsedEntry.message (pte : ParsedEntry) : Imsg :=
  ⟨.treeEntry, pte.id.val ++ modeBytes pte.mode ++ pte.name.val⟩

/-- **A tree that can be received**: the number of its entries is an `int`, and no name is empty, or
longer than a name can be. -/
def TreeFits (entries : List ParsedEntry) : Prop :=
  entries.length < 2 ^ 31 ∧
    ∀ pte ∈ entries, pte.name.val ≠ [] ∧ pte.name.val.length ≤ NAME_MAX

theorem ParsedEntry.length_message (pte : ParsedEntry) :
    pte.message.data.length = sizeofImsgTreeEntry + pte.name.val.length := by
  rw [message, List.length_append, List.length_append, pte.id.2, record_mode.length_enc]
  rfl

/-- What is sent for an entry is never cut off. -/
theorem sendTreeEntry_eq_ok {pte : ParsedEntry} (h : sendTreeEntry pte = .ok imsg) :
    imsg = pte.message := by
  unfold sendTreeEntry at h
  dsimp only at h
  split at h
  · cases h
  next hle =>
  have hlen := pte.length_message
  have hmod : pte.message.data.length % 2 ^ 16 = pte.message.data.length :=
    Nat.mod_eq_of_lt (lt_of_le_of_lt (hlen.trans_le (not_lt.mp hle)) (by decide))
  change imsgCompose .treeEntry pte.message.data = .ok imsg at h
  unfold imsgCompose at h
  rw [hmod] at h
  dsimp only at h
  rw [List.take_length] at h
  split at h
  · obtain rfl := Except.ok.inj h
    rfl
  · cases h

/-- An entry is sent when its name is no longer than `NAME_MAX`. -/
theorem sendTreeEntry_of_le {pte : ParsedEntry} (h : pte.name.val.length ≤ NAME_MAX) :
    sendTreeEntry pte = .ok pte.message := by
  have hlen := pte.length_message
  have hmax : sizeofImsgTreeEntry + NAME_MAX ≤ MAX_DATALEN := by decide
  have hmax' : MAX_DATALEN ≤ MAX_IMSGSIZE := by decide
  unfold sendTreeEntry
  dsimp only
  rw [if_neg (by omega)]
  exact imsgCompose_of_le (hlen.trans_le (by omega))

theorem isEntry_message {pte : ParsedEntry} : IsEntry (some pte.message) ↔
    pte.name.val ≠ [] ∧ pte.name.val.length ≤ NAME_MAX := by
  have htype : pte.message.type = .treeEntry := rfl
  rw [isEntry_some, pte.length_message, and_iff_right htype, ← List.length_pos_iff]
  omega

/-- **An entry is stored as it was sent.** -/
theorem treeEntryOf_message (pte : ParsedEntry) (idx : ℕ) :
    treeEntryOf pte.message.data idx = pte.stored idx := by
  have hid : pte.id.val.length = SHA1_DIGEST_LENGTH := pte.id.2
  have hmode : (modeBytes pte.mode).length = 4 := record_mode.length_enc _
  have hname : pte.message.data.drop sizeofImsgTreeEntry = pte.name.val :=
    List.drop_left' (by rw [List.length_append, hid, hmode]; rfl)
  have hmodeAt : (pte.message.data.drop SHA1_DIGEST_LENGTH).take 4 = modeBytes pte.mode := by
    rw [ParsedEntry.message, List.append_assoc, List.drop_left' hid, List.take_left' hmode]
  have hidAt : pte.message.data.take SHA1_DIGEST_LENGTH = pte.id.val := by
    rw [ParsedEntry.message, List.append_assoc, List.take_left' hid]
  rw [treeEntryOf, hname, hmodeAt, hidAt, record_mode.dec_enc, record_sha1.dec_enc]
  rfl

/-- The tree after its entries is the tree object. -/
theorem treeAfter_messages (entries : List ParsedEntry) :
    treeAfter entries.length ((entries.map ParsedEntry.message).map some)
      = treeObjectOf entries := by
  rw [treeAfter, treeObjectOf, List.length_map, List.length_map, Nat.sub_self, List.replicate_zero,
    List.append_nil]
  congr 1
  refine List.ext_getElem (by simp) fun i hi _ => ?_
  simp [treeEntryOf_message]

/-! ## Runs with a whole tree -/

/-- The start of a tree stays a start when what follows is cut off. -/
theorem TreeStart.of_append {frames more : List Frame} (h : TreeStart (frames ++ more)) :
    TreeStart frames := by
  cases frames with
  | nil => exact .inl rfl
  | cons header es =>
    rcases h with h | ⟨n, header', es', heq, hheader, hes, hlen⟩
    · exact nomatch h
    · rw [List.cons_append] at heq
      obtain ⟨rfl, rfl⟩ := List.cons.inj heq
      rw [List.length_append] at hlen
      exact .inr ⟨n, header, es, rfl, hheader,
        fun e he => hes e (List.mem_append_left _ he), by omega⟩

theorem WholeTree.start (h : WholeTree frames) : TreeStart frames := by
  obtain ⟨header, es, rfl, hheader, hes⟩ := h
  exact .inr ⟨es.length, header, es, rfl, hheader, hes, le_rfl⟩

/-- The messages of a batch which goes on with a tree. -/
theorem foldlM_recvTreeMsg (b : List Frame) {seen : List Frame} (h : TreeStart (seen ++ b)) :
    b.foldlM recvTreeMsg (stateAfter seen) = .ok (stateAfter (seen ++ b)) := by
  induction b generalizing seen with
  | nil =>
    rw [List.append_nil]
    rfl
  | cons f b ih =>
    have happ : seen ++ f :: b = seen ++ [f] ++ b := by rw [List.append_assoc]; rfl
    rw [happ] at h ⊢
    rw [List.foldlM_cons, (recvTreeMsg_spec h.of_append.of_append f).1 h.of_append, ok_bind]
    exact ih h

/-- **A whole tree is received**, if there is a message after the first read. -/
theorem recvTreeReads_whole (batches : List (List Frame)) {seen : List Frame}
    (hseen : ¬ WholeTree seen) (hfirst : seen = [] → batches.head? ≠ some [])
    (h : WholeTree (seen ++ batches.flatten)) :
    recvTreeReads (stateAfter seen) batches = .ok (stateAfter (seen ++ batches.flatten)).1 := by
  induction batches generalizing seen with
  | nil =>
    rw [List.flatten_nil, List.append_nil] at h
    exact absurd h hseen
  | cons b back ih =>
    rw [List.flatten_cons, ← List.append_assoc] at h ⊢
    rw [recvTreeReads, foldlM_recvTreeMsg b h.start.of_append, ok_bind]
    have hne : seen ++ b ≠ [] := fun hnil => by
      obtain ⟨rfl, rfl⟩ := List.append_eq_nil_iff.mp hnil
      exact hfirst rfl rfl
    obtain ⟨n, header, es, hsplit, hheader, hes, hlen⟩ := h.start.of_append.resolve_left hne
    rw [hsplit] at h ⊢
    have hstate : stateAfter (header :: es) = (some (treeAfter n es), es.length) := by
      rw [stateAfter, countOf_eq hheader]
    rw [hstate]
    show (if ((n : ℤ) ≠ (es.length : ℤ) : Bool) then _ else _) = _
    by_cases hwhole : es.length = n
    · -- the rest of the stream is empty
      have hrest : back.flatten = [] := by
        obtain ⟨header', es', heq, hheader', hes'⟩ := h
        rw [List.cons_append] at heq
        obtain ⟨rfl, rfl⟩ := List.cons.inj heq
        have hn := (countOf_eq hheader').symm.trans (countOf_eq hheader)
        rw [List.length_append] at hn
        exact List.length_eq_zero_iff.mp (by omega)
      rw [if_neg (by simp [hwhole]), hrest, List.append_nil, hstate]
      rfl
    · rw [if_pos (by simp; omega), ← hstate]
      exact ih (fun hw => hwhole ((wholeTree_iff hheader hes).mp hw)) (fun hnil => by cases hnil) h

/-- **What is returned has been received**: the messages up to some place were a whole tree. -/
theorem recvTreeReads_eq_ok (batches : List (List Frame)) {seen : List Frame}
    {result : Option GotTreeObject} (h : TreeStart seen)
    (hfirst : seen = [] → batches.head? ≠ some [])
    (htree : recvTreeReads (stateAfter seen) batches = .ok result) :
    ∃ frames, frames <+: seen ++ batches.flatten ∧ WholeTree frames ∧
      (stateAfter frames).1 = result := by
  induction batches generalizing seen with
  | nil => cases htree
  | cons b back ih =>
    induction b generalizing seen with
    | nil =>
      rw [recvTreeReads, List.foldlM_nil] at htree
      change (if ((stateAfter seen).1.any fun tree => tree.nentries ≠ ((stateAfter seen).2 : ℤ))
        then
        _ else _) = _ at htree
      rw [List.flatten_cons, List.nil_append]
      obtain ⟨n, header, es, rfl, hheader, hes, hlen⟩ :=
        id h.resolve_left fun hnil => hfirst hnil rfl
      have hstate : stateAfter (header :: es) = (some (treeAfter n es), es.length) := by
        rw [stateAfter, countOf_eq hheader]
      by_cases hwhole : es.length = n
      · refine ⟨header :: es, List.prefix_append _ _, (wholeTree_iff hheader hes).mpr hwhole, ?_⟩
        rw [if_neg (by rw [hstate]; simp [treeAfter, hwhole])] at htree
        exact Except.ok.inj htree
      · rw [if_pos (by rw [hstate]; simp [treeAfter]; omega)] at htree
        exact ih h (fun hnil => by cases hnil) htree
    | cons f b ihb =>
      rw [recvTreeReads_cons] at htree
      by_cases hnext : TreeStart (seen ++ [f])
      · rw [(recvTreeMsg_spec h f).1 hnext, ok_bind] at htree
        obtain ⟨frames, hframes, hwhole⟩ := ihb hnext (fun hnil => by simp at hnil) htree
        refine ⟨frames, ?_, hwhole⟩
        rw [List.flatten_cons, List.append_assoc] at hframes
        rw [List.flatten_cons]
        exact hframes
      · obtain ⟨e, he, -⟩ := (recvTreeMsg_spec h f).2 hnext
        rw [he] at htree
        cases htree

theorem toInt_readInt_intBytes (k : Int32) : (readInt (intBytes k)).toInt = k.toInt := by
  rw [record_int.dec_enc]

/-- The messages of a tree that was sent. -/
theorem gotPrivsepSendTree_eq_ok {entries : List ParsedEntry} {k : Int32} {imsgs : List Imsg}
    (h : gotPrivsepSendTree entries k = .ok imsgs) :
    imsgs = ⟨.tree, intBytes k⟩ :: entries.map ParsedEntry.message := by
  unfold gotPrivsepSendTree at h
  have hlen : (intBytes k).length = 4 := record_int.length_enc k
  rw [imsgCompose_of_le (hlen.trans_le (by decide)), ok_bind] at h
  obtain ⟨more, hmore, h⟩ := bind_eq_ok_iff.mp h
  obtain rfl := Except.ok.inj h
  have hall : List.Forall₂ (· = ·) (entries.map ParsedEntry.message) more :=
    List.forall₂_map_left_iff.mpr
      ((mapM_eq_ok_iff.mp hmore).imp fun _ _ hpte => (sendTreeEntry_eq_ok hpte).symm)
  rw [List.forall₂_eq_eq_eq] at hall
  rw [hall]

/-- A tree is sent, entry by entry, when all its names fit. -/
theorem gotPrivsepSendTree_of_fits {entries : List ParsedEntry} (k : Int32)
    (h : ∀ pte ∈ entries, pte.name.val.length ≤ NAME_MAX) :
    gotPrivsepSendTree entries k = .ok
      (⟨.tree, intBytes k⟩ :: entries.map ParsedEntry.message) := by
  have hlen : (intBytes k).length = 4 := record_int.length_enc k
  have hmap : entries.mapM sendTreeEntry = .ok (entries.map ParsedEntry.message) := by
    rw [mapM_eq_ok_iff, List.forall₂_map_right_iff, List.forall₂_same]
    exact fun pte hpte => sendTreeEntry_of_le (h pte hpte)
  unfold gotPrivsepSendTree
  rw [imsgCompose_of_le (hlen.trans_le (by decide)), ok_bind, hmap]
  rfl

theorem batches_nil (reads : List (List Frame)) : (⟨[], reads⟩ : ImsgBuf).batches = reads := by
  cases reads <;> rfl

/-- The first message of a tree. -/
theorem isHeader_intBytes {k : Int32} (h : k.toInt = n) : IsHeader n (some ⟨.tree, intBytes k⟩) :=
  ⟨_, rfl, rfl, record_int.length_enc k, (toInt_readInt_intBytes k).trans h⟩

/-- **A tree that fits arrives**, if there is a message after the first read. -/
theorem gotPrivsepRecvTree_send {entries : List ParsedEntry} (h : TreeFits entries)
    {reads : List (List Frame)} (hreads : reads.head? ≠ some [])
    (hflat : reads.flatten =
      some ⟨.tree, intBytes entries.length.toInt32⟩ :: (entries.map ParsedEntry.message).map some) :
    gotPrivsepRecvTree ⟨[], reads⟩ = .ok (some (treeObjectOf entries)) := by
  have hheader := isHeader_intBytes (Int32.toInt_ofNat_of_lt h.1)
  have hentries : ∀ e ∈ (entries.map ParsedEntry.message).map some, IsEntry e := by
    simp only [List.mem_map]
    rintro _ ⟨_, ⟨pte, hpte, rfl⟩, rfl⟩
    exact isEntry_message.mpr (h.2 pte hpte)
  have hlen : ((entries.map ParsedEntry.message).map some).length = entries.length := by
    rw [List.length_map, List.length_map]
  have hwhole : WholeTree ([] ++ reads.flatten) := by
    rw [List.nil_append, hflat]
    exact (wholeTree_iff hheader hentries).mpr hlen
  rw [gotPrivsepRecvTree, batches_nil]
  refine (recvTreeReads_whole reads (fun ⟨_, _, hnil, _⟩ => nomatch hnil)
    (fun _ => hreads) hwhole).trans ?_
  rw [List.nil_append, hflat, stateAfter, countOf_eq hheader, treeAfter_messages]

/-- **A tree that arrives fits**, and there was a message after the first read. -/
theorem treeFits_of_recv {entries : List ParsedEntry} {reads : List (List Frame)}
    (hflat : reads.flatten =
      some ⟨.tree, intBytes entries.length.toInt32⟩ :: (entries.map ParsedEntry.message).map some)
    (hrecv : gotPrivsepRecvTree ⟨[], reads⟩ = .ok (some (treeObjectOf entries))) :
    TreeFits entries ∧ reads.head? ≠ some [] := by
  rw [gotPrivsepRecvTree, batches_nil] at hrecv
  have hfirst : reads.head? ≠ some [] := fun hfirst => by
    obtain ⟨back, rfl⟩ := List.head?_eq_some_iff.mp hfirst
    cases hrecv
  obtain ⟨frames, hprefix, ⟨header, es, rfl, hheader, hes⟩, htree⟩ :=
    recvTreeReads_eq_ok reads (.inl rfl) (fun _ => hfirst) hrecv
  rw [List.nil_append, hflat] at hprefix
  obtain ⟨rfl, hes'⟩ := List.cons_prefix_cons.mp hprefix
  -- the number of entries is that of the messages
  rw [stateAfter, countOf_eq hheader] at htree
  have hcount : es.length = entries.length :=
    Int.ofNat.inj (congrArg GotTreeObject.nentries (Option.some.inj htree))
  have heq : es = (entries.map ParsedEntry.message).map some :=
    hes'.eq_of_length (by rw [hcount, List.length_map, List.length_map])
  refine ⟨⟨?_, fun pte hpte => ?_⟩, hfirst⟩
  · obtain ⟨imsg, himsg, -, -, hn⟩ := hheader
    obtain rfl := Option.some.inj himsg
    have hlt := Int32.toInt_lt entries.length.toInt32
    rw [toInt_readInt_intBytes, hcount] at hn
    omega
  · rw [← isEntry_message]
    refine hes _ ?_
    rw [heq]
    exact List.mem_map_of_mem (List.mem_map_of_mem hpte)

/-! ## Every object -/

/-- **An object that is sent.** -/
inductive Object
  | commit (commit : GotCommitObject)
  | tree (entries : List ParsedEntry)
  | tag (tag : GotTagObject)

namespace Object

/-- The messages which are sent for an object. -/
def send : Object → Except GotErr (List Imsg)
  | commit c => gotPrivsepSendCommit c
  | tree entries => gotPrivsepSendTree entries entries.length.toInt32
  | tag t => gotPrivsepSendTag t

/-- The object is received. -/
def ReceivedFrom (ibuf : ImsgBuf) : Object → Prop
  | commit c => gotPrivsepRecvCommit ibuf = .ok (some c)
  | tree entries => gotPrivsepRecvTree ibuf = .ok (some (treeObjectOf entries))
  | tag t => gotPrivsepRecvTag ibuf = .ok (some t)

/-- The function that receives objects of this kind returns success only with one that is
complete. -/
def SoundFor (ibuf : ImsgBuf) : Object → Prop
  | commit _ => gotPrivsepRecvCommit ibuf ≠ .ok none
  | tree _ => ∀ result, gotPrivsepRecvTree ibuf = .ok result →
      ∃ tree, result = some tree ∧ tree.Complete
  | tag _ => gotPrivsepRecvTag ibuf ≠ .ok none

end Object

/-- **Messages in reads**: after each of them some more are complete. -/
def segments : List ℕ → List Frame → List (List Frame)
  | [], frames => [frames]
  | n :: cuts, frames => frames.take n :: segments cuts (frames.drop n)

/-- **An object arrives** if its messages are received as the object, and whatever is received
instead is never taken for an object that is not there. -/
def Transferred (o : Object) (cuts : List ℕ) (ibuf : ImsgBuf) : Prop :=
  (∃ imsgs, o.send = .ok imsgs ∧ o.ReceivedFrom ⟨[], segments cuts (imsgs.map some)⟩) ∧
    o.SoundFor ibuf

/-- **When an object arrives**: it fits into its messages, and in the case of a tree a message
is complete after the first read. -/
def Transferable (cuts : List ℕ) (ibuf : ImsgBuf) : Object → Prop
  | .commit c => CommitFits c
  | .tree entries => TreeFits entries ∧ cuts.head? ≠ some 0 ∧ ibuf.batches.head? ≠ some []
  | .tag t => TagFits t

theorem flatten_segments (cuts : List ℕ) (frames : List Frame) :
    (segments cuts frames).flatten = frames := by
  induction cuts generalizing frames with
  | nil => exact List.append_nil frames
  | cons n cuts ih => rw [segments, List.flatten_cons, ih, List.take_append_drop]

theorem head?_segments (cuts : List ℕ) (hne : frames ≠ []) :
    (segments cuts frames).head? = some [] ↔ cuts.head? = some 0 := by
  cases cuts with
  | nil => exact iff_of_false (fun h => hne (Option.some.inj h)) fun h => nomatch h
  | cons n cuts =>
    rw [segments, List.head?_cons, List.head?_cons, Option.some.injEq, Option.some.injEq,
      List.take_eq_nil_iff, or_iff_left hne]

/-- Receiving a commit answers a commit or an error. -/
theorem recvCommit_ne_none (ibuf : ImsgBuf) : gotPrivsepRecvCommit ibuf ≠ .ok none := by
  intro h
  obtain ⟨⟨imsg, ibuf'⟩, -, h⟩ := bind_eq_ok_iff.mp h
  dsimp only at h
  split at h
  · obtain ⟨c, -, hc⟩ := map_eq_ok_iff.mp h
    exact nomatch hc
  · cases h

/-- Receiving a tag answers a tag or an error. -/
theorem recvTag_ne_none (ibuf : ImsgBuf) : gotPrivsepRecvTag ibuf ≠ .ok none := by
  intro h
  obtain ⟨⟨imsg, ibuf'⟩, -, h⟩ := bind_eq_ok_iff.mp h
  dsimp only at h
  split at h
  · split at h
    · cases h
    obtain ⟨⟨itag, data⟩, -, h⟩ := bind_eq_ok_iff.mp h
    dsimp only at h
    split at h
    · cases h
    obtain ⟨_, -, h⟩ := bind_eq_ok_iff.mp h
    obtain ⟨_, -, h⟩ := bind_eq_ok_iff.mp h
    obtain ⟨_, -, h⟩ := bind_eq_ok_iff.mp h
    cases h
  · cases h

/-- A tree that is returned is complete; whether there is one is decided by the first read. -/
theorem recvTree_sound_iff (ibuf : ImsgBuf) :
    (∀ result, gotPrivsepRecvTree ibuf = .ok result → ∃ tree, result = some tree ∧ tree.Complete) ↔
      ibuf.batches.head? ≠ some [] := by
  constructor
  · intro h hfirst
    obtain ⟨back, hback⟩ := List.head?_eq_some_iff.mp hfirst
    have hnone : gotPrivsepRecvTree ibuf = .ok none := by
      rw [gotPrivsepRecvTree, hback]
      rfl
    obtain ⟨tree, htree, -⟩ := h none hnone
    exact nomatch htree
  · intro hfirst result hresult
    obtain ⟨frames, -, ⟨header, es, rfl, hheader, hes⟩, htree⟩ :=
      recvTreeReads_eq_ok ibuf.batches (.inl rfl) (fun _ => hfirst) hresult
    rw [stateAfter, countOf_eq hheader] at htree
    exact ⟨_, htree.symm, complete_treeAfter hes⟩

/-- **An object arrives exactly if it is transferable**, wherever the stream is cut into reads. A
commit or a tag must fit into the messages that it is put in; the names of a tree must be neither
empty nor too long, and as its receiver reads only once before it gives up, a message must be there
after the first read. -/
theorem transferred_iff (o : Object) (cuts : List ℕ) (ibuf : ImsgBuf) :
    Transferred o cuts ibuf ↔ Transferable cuts ibuf o := by
  have hstream (imsgs : List Imsg) :
      (⟨[], segments cuts (imsgs.map some)⟩ : ImsgBuf).stream = imsgs.map some :=
    flatten_segments cuts _
  unfold Transferred
  cases o with
  | commit c =>
    rw [and_iff_left (show Object.SoundFor ibuf (.commit c) from recvCommit_ne_none ibuf)]
    constructor
    · rintro ⟨imsgs, hsend, hrecv⟩
      exact commitFits_of_recv hsend (hstream imsgs) hrecv
    · intro h
      obtain ⟨imsgs, hsend, hrecv⟩ := gotPrivsepRecvCommit_send h
      exact ⟨imsgs, hsend, hrecv _ (hstream imsgs)⟩
  | tag t =>
    rw [and_iff_left (show Object.SoundFor ibuf (.tag t) from recvTag_ne_none ibuf)]
    constructor
    · rintro ⟨imsgs, hsend, hrecv⟩
      exact tagFits_of_recv hsend (hstream imsgs) hrecv
    · intro h
      obtain ⟨imsgs, hsend, hrecv⟩ := gotPrivsepRecvTag_send h
      exact ⟨imsgs, hsend, hrecv _ (hstream imsgs)⟩
  | tree entries =>
    have hne (frame : Frame) (frames : List Frame) : frame :: frames ≠ [] := List.cons_ne_nil _ _
    constructor
    · rintro ⟨⟨imsgs, hsend, hrecv⟩, hsound⟩
      obtain rfl := gotPrivsepSendTree_eq_ok hsend
      obtain ⟨hfits, hfirst⟩ := treeFits_of_recv (flatten_segments cuts _) hrecv
      exact ⟨hfits, (not_congr (head?_segments cuts (hne _ _))).mp hfirst,
        (recvTree_sound_iff ibuf).mp hsound⟩
    · rintro ⟨hfits, hfirst, hbatches⟩
      refine ⟨⟨_, gotPrivsepSendTree_of_fits _ fun pte hpte => (hfits.2 pte hpte).2, ?_⟩,
        (recvTree_sound_iff ibuf).mpr hbatches⟩
      exact gotPrivsepRecvTree_send hfits ((not_congr (head?_segments cuts (hne _ _))).mpr hfirst)
        (flatten_segments cuts _)

/-- **A tree whose first message is split between two reads**: the receiver returns success, and no
tree. -/
theorem not_transferred_splitTree :
    (⟨[], segments [0] [some ⟨.tree, intBytes 0⟩]⟩ : ImsgBuf).batches
    = [[], [some ⟨.tree, intBytes 0⟩]] ∧
    gotPrivsepRecvTree ⟨[], segments [0] [some ⟨.tree, intBytes 0⟩]⟩ = .ok none ∧
    ¬ Transferred (.tree []) [0] ⟨[], []⟩ := by
  refine ⟨rfl, rfl, fun ⟨⟨imsgs, hsend, hrecv⟩, _⟩ => ?_⟩
  obtain rfl := gotPrivsepSendTree_eq_ok hsend
  exact nomatch (hrecv : Except.ok none = _)

end Privsep

end Got

import Got.Privsep.Objects

/-!
# Objects which arrive as they were sent

A commit or a tag arrives as it was sent if it can be sent at all, however the reads cut the stream
of messages: its structure and its strings have to fit into one message, and the log message, in
messages that both sides cut in the same places, may have any length.

A tree also arrives, if all its names have a length that the receiver accepts and a message is
complete after the first read. If none is, then the receiver returns as if all was well, without a
tree.
-/

namespace Got

open Records

namespace Privsep

variable {type : ImsgType} {data rest : Bytes} {imsg : Imsg} {ibuf : ImsgBuf} {frames : List Frame}
  {n : ℕ}

/-! ## Composing -/

/-- What fits into a message is composed. -/
theorem imsgCompose_of_le (h : data.length ≤ MAX_DATALEN) :
    imsgCompose type data = .ok ⟨type, data⟩ := by
  have hmax : MAX_DATALEN + IMSG_HEADER_SIZE = MAX_IMSGSIZE := rfl
  have hmod : data.length % 2 ^ 16 = data.length :=
    Nat.mod_eq_of_lt (lt_of_le_of_lt h (by decide))
  unfold imsgCompose
  rw [hmod, if_pos (by omega), List.take_length]

/-- What is composed fits into a message. -/
theorem imsgCompose_eq_ok (h : imsgCompose type data = .ok imsg) :
    imsg.type = type ∧ imsg.data <+: data ∧ imsg.data.length ≤ MAX_DATALEN := by
  have hmax : MAX_DATALEN + IMSG_HEADER_SIZE = MAX_IMSGSIZE := rfl
  unfold imsgCompose at h
  dsimp only at h
  split at h
  · next hle =>
    obtain rfl := Except.ok.inj h
    refine ⟨rfl, List.take_prefix _ _, ?_⟩
    rw [List.length_take]
    omega
  · cases h

/-! ## Log messages -/

/-- **A log message arrives**, whatever its length is. -/
theorem recvLogmsg_send (htype : type ≠ .error) {fuel : ℕ} {logmsg : Bytes}
    (hfuel : logmsg.length < fuel) : ∃ imsgs, sendLogmsg type fuel logmsg = .ok imsgs ∧
      ∀ (ibuf : ImsgBuf) (frames : List Frame), ibuf.stream = imsgs.map some ++ frames →
        ∃ ibuf' : ImsgBuf, ibuf'.stream = frames ∧
          recvLogmsg type fuel logmsg.length ibuf = .ok (logmsg, ibuf') := by
  induction fuel generalizing logmsg with
  | zero => exact absurd hfuel (Nat.not_lt_zero _)
  | succ fuel ih =>
    by_cases hnil : logmsg.length = 0
    · refine ⟨[], by rw [sendLogmsg, if_pos hnil], fun ibuf frames h => ⟨ibuf, h, ?_⟩⟩
      rw [recvLogmsg, if_pos hnil, List.length_eq_zero_iff.mp hnil]
    · have hmax : 0 < MAX_DATALEN := by decide
      have hlen : (logmsg.take (min MAX_DATALEN logmsg.length)).length =
          min MAX_DATALEN logmsg.length := List.length_take_of_le (min_le_right _ _)
      obtain ⟨imsgs, hsend, hrecv⟩ := @ih (logmsg.drop (min MAX_DATALEN logmsg.length)) (by
        rw [List.length_drop]
        omega)
      refine ⟨⟨type, logmsg.take (min MAX_DATALEN logmsg.length)⟩ :: imsgs, ?_, ?_⟩
      · rw [sendLogmsg, if_neg hnil]
        dsimp only
        rw [imsgCompose_of_le (hlen.trans_le (min_le_left _ _)), ok_bind, hsend]
        rfl
      · intro ibuf frames hstream
        obtain ⟨ibuf₁, hstream₁, himsg⟩ :=
          gotPrivsepRecvImsg_cons hstream (min MAX_DATALEN logmsg.length)
        obtain ⟨ibuf₂, hstream₂, hmore⟩ := hrecv ibuf₁ frames hstream₁
        refine ⟨ibuf₂, hstream₂, ?_⟩
        rw [List.length_drop] at hmore
        rw [recvLogmsg, if_neg hnil]
        dsimp only
        rw [himsg, if_neg (by rw [hlen]; exact lt_irrefl _), if_neg htype, ok_bind]
        dsimp only
        rw [if_neg (not_not.mpr rfl), hmore, ok_bind]
        dsimp only
        rw [List.take_of_length_le hlen.le, List.take_append_drop]
        rfl

/-! ## Structures -/

/-- **The structure of a commit is read as it was written.** -/
theorem readImsgCommit_eq_ok_iff {icommit : GotImsgCommitObject} :
    readImsgCommit data = .ok (icommit, rest) ↔ data = icommit.bytes ++ rest := by
  unfold readImsgCommit GotImsgCommitObject.bytes
  simp only [bind_eq_ok_iff, Prod.exists, record_sha1.readField_eq_ok_iff,
    record_size.readField_eq_ok_iff, record_time.readField_eq_ok_iff,
    record_int.readField_eq_ok_iff, List.append_assoc]
  constructor
  · rintro ⟨_, _, rfl, _, _, rfl, _, _, rfl, _, _, rfl, _, _, rfl, _, _, rfl, _, _, rfl, _, _, rfl,
      _, _, rfl, h⟩
    cases h
    rfl
  · rintro rfl
    exact ⟨_, _, rfl, _, _, rfl, _, _, rfl, _, _, rfl, _, _, rfl, _, _, rfl, _, _, rfl, _, _, rfl,
      _, _, rfl, rfl⟩

/-- **The structure of a tag is read as it was written.** -/
theorem readImsgTag_eq_ok_iff {itag : GotImsgTagObject} :
    readImsgTag data = .ok (itag, rest) ↔ data = itag.bytes ++ rest := by
  unfold readImsgTag GotImsgTagObject.bytes
  simp only [bind_eq_ok_iff, Prod.exists, record_sha1.readField_eq_ok_iff,
    record_size.readField_eq_ok_iff, record_time.readField_eq_ok_iff,
    record_int.readField_eq_ok_iff, List.append_assoc]
  constructor
  · rintro ⟨_, _, rfl, _, _, rfl, _, _, rfl, _, _, rfl, _, _, rfl, _, _, rfl, _, _, rfl, h⟩
    cases h
    rfl
  · rintro rfl
    exact ⟨_, _, rfl, _, _, rfl, _, _, rfl, _, _, rfl, _, _, rfl, _, _, rfl, _, _, rfl, rfl⟩

theorem length_imsgCommit (icommit : GotImsgCommitObject) :
    icommit.bytes.length = sizeofImsgCommit := by
  have hid : icommit.treeId.val.length = 20 := icommit.treeId.2
  simp only [GotImsgCommitObject.bytes, List.length_append, record_size.length_enc,
    record_time.length_enc, record_int.length_enc, hid]
  rfl

theorem length_imsgTag (itag : GotImsgTagObject) : itag.bytes.length = sizeofImsgTag := by
  have hid : itag.id.val.length = 20 := itag.id.2
  simp only [GotImsgTagObject.bytes, List.length_append, record_size.length_enc,
    record_time.length_enc, record_int.length_enc, hid]
  rfl

/-! ## Commits -/

/-- **A commit that can be sent**: its structure, the strings that are sent along and its parents
fit into a message, and the length of the log message is a `size_t`. -/
def CommitFits (commit : GotCommitObject) : Prop :=
  sizeofImsgCommit + commit.author.val.length + commit.committer.val.length +
    commit.parentIds.length * SHA1_DIGEST_LENGTH ≤ MAX_DATALEN ∧ commit.logmsg.val.length < 2 ^ 64

theorem strdup_val (s : CStr) : strdup s.val = s :=
  Subtype.ext (List.takeWhile_eq_self_iff.mpr fun _ hc => decide_eq_true fun heq => s.2 (heq ▸ hc))

/-- A string in memory is not longer than what it was taken from. -/
theorem length_strdup_le (p : Bytes) : (strdup p).val.length ≤ p.length :=
  (List.takeWhile_sublist _).length_le

theorem toNat_toUInt64 (h : n < 2 ^ 64) : n.toUInt64.toNat = n := Nat.mod_eq_of_lt h

/-- The length that is told is the length of the message. -/
theorem datalen_eq {a c p : ℕ} (hp : p ≤ MAX_DATALEN) :
    (sizeofImsgCommit + a + c + p * SHA1_DIGEST_LENGTH).toUInt64 =
      80 + a.toUInt64 + c.toUInt64 + (p.toInt32 * 20).toInt64.toUInt64 := by
  have hprod : p.toInt32 * 20 = Int32.ofNat (p * 20) := (Int32.ofNat_mul p 20).symm
  have hle : ((p * 20 : ℕ) : ℤ) ≤ Int32.maxValue.toInt := by
    have hmax : MAX_DATALEN = 16368 := rfl
    rw [Int32.toInt_maxValue]
    omega
  rw [hprod, Int32.toInt64_ofNat' hle, Int64.toUInt64_ofNat']
  show UInt64.ofNat (80 + a + c + p * 20)
    = 80 + UInt64.ofNat a + UInt64.ofNat c + UInt64.ofNat (p * 20)
  rw [UInt64.ofNat_add, UInt64.ofNat_add, UInt64.ofNat_add]
  rfl

/-- A log message is not longer than was told. -/
theorem length_recvLogmsg {fuel : ℕ} {logmsg : Bytes} {ibuf' : ImsgBuf}
    (h : recvLogmsg type fuel n ibuf = .ok (logmsg, ibuf')) : logmsg.length ≤ n := by
  induction fuel generalizing n ibuf logmsg with
  | zero => cases h
  | succ fuel ih =>
    rw [recvLogmsg] at h
    split at h
    · cases h
      exact Nat.zero_le _
    · obtain ⟨⟨imsg, ibuf₁⟩, -, h⟩ := bind_eq_ok_iff.mp h
      dsimp only at h
      split at h
      · cases h
      obtain ⟨⟨more, ibuf₂⟩, hmore, h⟩ := bind_eq_ok_iff.mp h
      cases h
      have hlen := ih hmore
      dsimp only at hlen ⊢
      rw [List.length_append, List.length_take]
      omega

/-- **What is made of a message.** It has to be exactly as long as it tells. -/
theorem getCommitFromImsg_eq_ok_iff {commit : GotCommitObject} :
    getCommitFromImsg imsg ibuf = .ok commit ↔
      ∃ (icommit : GotImsgCommitObject) (author committer : Bytes) (parentIds : List Sha1)
        (logmsg rest : Bytes) (ibuf' : ImsgBuf),
        imsg.data = icommit.bytes ++ (author ++ (committer ++
          (parentIds.flatMap Subtype.val ++ rest))) ∧
        imsg.data.length.toUInt64 = icommit.datalen ∧ ¬ icommit.nparents.toInt < 0 ∧
        author.length = icommit.authorLen.toNat ∧ committer.length = icommit.committerLen.toNat ∧
        parentIds.length = icommit.nparents.toInt.toNat ∧
        recvLogmsg .commitLogmsg (icommit.logmsgLen.toNat + 1) icommit.logmsgLen.toNat ibuf =
          .ok (logmsg, ibuf') ∧
        commit = ⟨icommit.treeId, parentIds, strdup author, icommit.authorTime,
          icommit.authorGmtoff, strdup committer, icommit.committerTime, icommit.committerGmtoff,
          strdup logmsg⟩ := by
  unfold getCommitFromImsg
  constructor
  · intro h
    split at h
    · cases h
    obtain ⟨⟨icommit, data₁⟩, hread, h⟩ := bind_eq_ok_iff.mp h
    dsimp only at h
    split at h
    · cases h
    next hlen =>
    split at h
    · cases h
    next hneg =>
    obtain ⟨⟨author, data₂⟩, hauthor, h⟩ := bind_eq_ok_iff.mp h
    obtain ⟨⟨committer, data₃⟩, hcommitter, h⟩ := bind_eq_ok_iff.mp h
    obtain ⟨⟨logmsg, ibuf'⟩, hlogmsg, h⟩ := bind_eq_ok_iff.mp h
    obtain ⟨⟨parentIds, rest⟩, hparents, h⟩ := bind_eq_ok_iff.mp h
    obtain rfl := Except.ok.inj h
    obtain ⟨hauthorLen, rfl⟩ := next_eq_ok_iff.mp hauthor
    obtain ⟨hcommitterLen, rfl⟩ := next_eq_ok_iff.mp hcommitter
    obtain ⟨hparentsLen, rfl⟩ := record_sha1.readTable_eq_ok_iff.mp hparents
    exact ⟨icommit, author, committer, parentIds, logmsg, rest, ibuf',
      readImsgCommit_eq_ok_iff.mp hread,
      not_not.mp hlen, hneg, hauthorLen, hcommitterLen, hparentsLen, hlogmsg, rfl⟩
  · rintro ⟨icommit, author, committer, parentIds, logmsg, rest, ibuf', hdata, hlen, hneg, hauthor,
      hcommitter, hparents, hlogmsg, rfl⟩
    have hshort : ¬ imsg.data.length < sizeofImsgCommit := by
      rw [hdata, List.length_append, length_imsgCommit]
      omega
    rw [if_neg hshort, readImsgCommit_eq_ok_iff.mpr hdata, ok_bind]
    dsimp only
    rw [if_neg (not_not.mpr hlen), if_neg hneg, next_eq_ok_iff.mpr ⟨hauthor, rfl⟩, ok_bind]
    dsimp only
    rw [next_eq_ok_iff.mpr ⟨hcommitter, rfl⟩, ok_bind]
    dsimp only
    rw [hlogmsg, ok_bind]
    dsimp only
    rw [record_sha1.readTable_eq_ok_iff.mpr ⟨hparents, rfl⟩]
    rfl

/-- The first message decides which object is received. -/
theorem gotPrivsepRecvCommit_cons (hstream : ibuf.stream = some imsg :: frames)
    (htype : imsg.type = .commit) : ∃ ibuf' : ImsgBuf, ibuf'.stream = frames ∧
      gotPrivsepRecvCommit ibuf = if imsg.data.length < min sizeofImsgError sizeofImsgCommit then
        .error .privsepLen else some <$> getCommitFromImsg imsg ibuf' := by
  obtain ⟨ibuf', hstream', himsg⟩ :=
    gotPrivsepRecvImsg_cons hstream (min sizeofImsgError sizeofImsgCommit)
  refine ⟨ibuf', hstream', ?_⟩
  rw [gotPrivsepRecvCommit, himsg]
  split
  · rfl
  · rw [htype, if_neg (by decide), ok_bind]
    dsimp only
    rw [htype]

/-- What is sent along with a commit. -/
def GotCommitObject.buf (commit : GotCommitObject) : Bytes :=
  commit.imsg.bytes ++ commit.author.val ++ commit.committer.val ++
    commit.parentIds.flatMap Subtype.val

theorem GotCommitObject.length_buf (commit : GotCommitObject) : commit.buf.length =
    sizeofImsgCommit + commit.author.val.length + commit.committer.val.length +
      commit.parentIds.length * SHA1_DIGEST_LENGTH := by
  rw [buf, List.length_append, List.length_append, List.length_append, length_imsgCommit,
    record_sha1.length_flatMap]

/-- **A commit that fits arrives.** -/
theorem gotPrivsepRecvCommit_send {commit : GotCommitObject} (h : CommitFits commit) :
    ∃ imsgs, gotPrivsepSendCommit commit = .ok imsgs ∧ ∀ ibuf : ImsgBuf,
      ibuf.stream = imsgs.map some → gotPrivsepRecvCommit ibuf = .ok (some commit) := by
  obtain ⟨hfits, hlogmsg⟩ := h
  have hmax : MAX_DATALEN = 16368 := rfl
  have hp : commit.parentIds.length ≤ MAX_DATALEN := by
    have hle : commit.parentIds.length * 1 ≤ commit.parentIds.length * SHA1_DIGEST_LENGTH :=
      Nat.mul_le_mul_left _ (by decide)
    omega
  have hsize : ∀ s : Bytes, s.length ≤ MAX_DATALEN → s.length.toUInt64.toNat = s.length :=
    fun s hs => toNat_toUInt64 (by omega)
  have hnparents : commit.imsg.nparents.toInt = commit.parentIds.length :=
    Int32.toInt_ofNat_of_lt (by omega)
  have hlogmsgLen : commit.imsg.logmsgLen.toNat = commit.logmsg.val.length := toNat_toUInt64 hlogmsg
  obtain ⟨imsgs, hsend, hrecv⟩ := @recvLogmsg_send .commitLogmsg (by decide)
    (commit.logmsg.val.length + 1) commit.logmsg.val (Nat.lt_succ_self _)
  have hcompose : imsgCompose .commit commit.buf = .ok ⟨.commit, commit.buf⟩ :=
    imsgCompose_of_le (commit.length_buf.trans_le hfits)
  refine ⟨⟨.commit, commit.buf⟩ :: imsgs, ?_, fun ibuf hstream => ?_⟩
  · unfold gotPrivsepSendCommit
    dsimp only
    rw [← GotCommitObject.buf, hcompose, ok_bind, hsend]
    rfl
  · obtain ⟨ibuf', hstream', himsg⟩ := gotPrivsepRecvCommit_cons hstream rfl
    obtain ⟨ibuf'', -, hmsg⟩ := hrecv ibuf' [] (hstream'.trans (List.append_nil _).symm)
    have hmin : min sizeofImsgError sizeofImsgCommit ≤ commit.buf.length := by
      rw [commit.length_buf, sizeofImsgError]
      unfold sizeofImsgCommit
      omega
    rw [himsg, if_neg (not_lt.mpr hmin), getCommitFromImsg_eq_ok_iff.mpr]
    · rfl
    refine ⟨commit.imsg, commit.author.val, commit.committer.val, commit.parentIds,
      commit.logmsg.val, [], ibuf'', ?_, ?_, ?_, (hsize _ (by omega)).symm,
        (hsize _ (by omega)).symm,
      ?_, ?_, ?_⟩
    · dsimp only
      rw [GotCommitObject.buf, List.append_nil, List.append_assoc, List.append_assoc]
    · dsimp only
      rw [commit.length_buf]
      exact datalen_eq hp
    · rw [hnparents]
      omega
    · rw [hnparents]
      rfl
    · rw [hlogmsgLen]
      exact hmsg
    · rw [strdup_val, strdup_val, strdup_val]
      rfl

/-- **A commit that arrives fits.** What is received is not longer than the message. -/
theorem commitFits_of_recv {commit : GotCommitObject} {imsgs : List Imsg}
    (hsend : gotPrivsepSendCommit commit = .ok imsgs) (hstream : ibuf.stream = imsgs.map some)
    (hrecv : gotPrivsepRecvCommit ibuf = .ok (some commit)) : CommitFits commit := by
  unfold gotPrivsepSendCommit at hsend
  obtain ⟨imsg, hcompose, hsend⟩ := bind_eq_ok_iff.mp hsend
  obtain ⟨more, -, hsend⟩ := bind_eq_ok_iff.mp hsend
  obtain rfl := Except.ok.inj hsend
  obtain ⟨htype, -, hmax⟩ := imsgCompose_eq_ok hcompose
  obtain ⟨ibuf', -, himsg⟩ := gotPrivsepRecvCommit_cons hstream htype
  rw [himsg] at hrecv
  split at hrecv
  · cases hrecv
  obtain ⟨c, hc, hsome⟩ := map_eq_ok_iff.mp hrecv
  obtain rfl := Option.some.inj hsome
  obtain ⟨icommit, author, committer, parentIds, logmsg, rest, ibuf'', hdata, -, -, -, -, -,
    hlogmsg,
    rfl⟩ := getCommitFromImsg_eq_ok_iff.mp hc
  have hlen := congrArg List.length hdata
  simp only [List.length_append, length_imsgCommit, record_sha1.length_flatMap] at hlen
  have hauthor := length_strdup_le author
  have hcommitter := length_strdup_le committer
  refine ⟨?_, ?_⟩
  · show sizeofImsgCommit + (strdup author).val.length + (strdup committer).val.length +
      parentIds.length * SHA1_DIGEST_LENGTH ≤ MAX_DATALEN
    omega
  · show (strdup logmsg).val.length < 2 ^ 64
    exact lt_of_le_of_lt ((length_strdup_le logmsg).trans (length_recvLogmsg hlogmsg))
      icommit.logmsgLen.toNat_lt

/-! ## Tags -/

/-- **A tag that can be sent**: its structure and the strings that are sent along fit into a
message, and the length of its message is a `size_t`. -/
def TagFits (tag : GotTagObject) : Prop :=
  sizeofImsgTag + tag.tag.val.length + tag.tagger.val.length ≤ MAX_DATALEN ∧
    tag.tagmsg.val.length < 2 ^ 64

/-- **What is received of a tag.** -/
theorem gotPrivsepRecvTag_eq_ok_iff {tag : Option GotTagObject}
    (hstream : ibuf.stream = some imsg :: frames) (htype : imsg.type = .tag) :
    ∃ ibuf' : ImsgBuf, ibuf'.stream = frames ∧ (gotPrivsepRecvTag ibuf = .ok tag ↔
      ∃ (itag : GotImsgTagObject) (name tagger tagmsg rest : Bytes) (ibuf'' : ImsgBuf),
        imsg.data = itag.bytes ++ (name ++ (tagger ++ rest)) ∧
        imsg.data.length.toUInt64 = 64 + itag.tagLen + itag.taggerLen ∧
        name.length = itag.tagLen.toNat ∧ tagger.length = itag.taggerLen.toNat ∧
        recvLogmsg .tagTagmsg (itag.tagmsgLen.toNat + 1) itag.tagmsgLen.toNat ibuf' =
          .ok (tagmsg, ibuf'') ∧
        tag = some ⟨itag.id, itag.objType, strdup name, itag.taggerTime, itag.taggerGmtoff,
          strdup tagger, strdup tagmsg⟩) := by
  obtain ⟨ibuf', hstream', himsg⟩ :=
    gotPrivsepRecvImsg_cons hstream (min sizeofImsgError sizeofImsgTag)
  refine ⟨ibuf', hstream', ?_⟩
  have hmin : min sizeofImsgError sizeofImsgTag ≤ sizeofImsgTag := min_le_right _ _
  unfold gotPrivsepRecvTag
  constructor
  · intro h
    rw [himsg] at h
    split at h
    · cases h
    rw [htype, if_neg (by decide), ok_bind] at h
    dsimp only at h
    rw [htype] at h
    dsimp only at h
    split at h
    · cases h
    obtain ⟨⟨itag, data₁⟩, hread, h⟩ := bind_eq_ok_iff.mp h
    dsimp only at h
    split at h
    · cases h
    next hlen =>
    obtain ⟨⟨name, data₂⟩, hname, h⟩ := bind_eq_ok_iff.mp h
    obtain ⟨⟨tagger, rest⟩, htagger, h⟩ := bind_eq_ok_iff.mp h
    obtain ⟨⟨tagmsg, ibuf''⟩, htagmsg, h⟩ := bind_eq_ok_iff.mp h
    obtain rfl := Except.ok.inj h
    obtain ⟨hnameLen, rfl⟩ := next_eq_ok_iff.mp hname
    obtain ⟨htaggerLen, rfl⟩ := next_eq_ok_iff.mp htagger
    exact ⟨itag, name, tagger, tagmsg, rest, ibuf'', readImsgTag_eq_ok_iff.mp hread,
      not_not.mp hlen,
      hnameLen, htaggerLen, htagmsg, rfl⟩
  · rintro ⟨itag, name, tagger, tagmsg, rest, ibuf'', hdata, hlen, hname, htagger, htagmsg, rfl⟩
    have hsize : sizeofImsgTag ≤ imsg.data.length := by
      rw [hdata, List.length_append, length_imsgTag]
      omega
    rw [himsg, if_neg (by omega), htype, if_neg (by decide), ok_bind]
    dsimp only
    rw [htype]
    dsimp only
    rw [if_neg (by omega), readImsgTag_eq_ok_iff.mpr hdata, ok_bind]
    dsimp only
    rw [if_neg (not_not.mpr hlen), next_eq_ok_iff.mpr ⟨hname, rfl⟩, ok_bind]
    dsimp only
    rw [next_eq_ok_iff.mpr ⟨htagger, rfl⟩, ok_bind]
    dsimp only
    rw [htagmsg]
    rfl

/-- **A tag that fits arrives.** -/
theorem gotPrivsepRecvTag_send {tag : GotTagObject} (h : TagFits tag) :
    ∃ imsgs, gotPrivsepSendTag tag = .ok imsgs ∧ ∀ ibuf : ImsgBuf,
      ibuf.stream = imsgs.map some → gotPrivsepRecvTag ibuf = .ok (some tag) := by
  obtain ⟨hfits, htagmsg⟩ := h
  have hmax : MAX_DATALEN = 16368 := rfl
  have hsize : ∀ s : Bytes, s.length ≤ MAX_DATALEN → s.length.toUInt64.toNat = s.length :=
    fun s hs => toNat_toUInt64 (by omega)
  have htagmsgLen : tag.imsg.tagmsgLen.toNat = tag.tagmsg.val.length := toNat_toUInt64 htagmsg
  have hlen : (tag.imsg.bytes ++ tag.tag.val ++ tag.tagger.val).length =
      sizeofImsgTag + tag.tag.val.length + tag.tagger.val.length := by
    rw [List.length_append, List.length_append, length_imsgTag]
  obtain ⟨imsgs, hsend, hrecv⟩ := @recvLogmsg_send .tagTagmsg (by decide)
    (tag.tagmsg.val.length + 1) tag.tagmsg.val (Nat.lt_succ_self _)
  refine ⟨⟨.tag, tag.imsg.bytes ++ tag.tag.val ++ tag.tagger.val⟩ :: imsgs, ?_,
    fun ibuf hstream => ?_⟩
  · unfold gotPrivsepSendTag
    rw [imsgCompose_of_le (hlen.trans_le hfits), ok_bind, hsend]
    rfl
  · obtain ⟨ibuf', hstream', hiff⟩ := @gotPrivsepRecvTag_eq_ok_iff _ ibuf _ (some tag) hstream rfl
    obtain ⟨ibuf'', -, hmsg⟩ := hrecv ibuf' [] (hstream'.trans (List.append_nil _).symm)
    rw [hiff]
    refine ⟨tag.imsg, tag.tag.val, tag.tagger.val, tag.tagmsg.val, [], ibuf'', ?_, ?_,
      (hsize _ (by omega)).symm, (hsize _ (by omega)).symm, ?_, ?_⟩
    · dsimp only
      rw [List.append_nil, List.append_assoc]
    · dsimp only
      rw [hlen]
      show UInt64.ofNat (64 + tag.tag.val.length + tag.tagger.val.length) =
        64 + UInt64.ofNat tag.tag.val.length + UInt64.ofNat tag.tagger.val.length
      rw [UInt64.ofNat_add, UInt64.ofNat_add]
      rfl
    · rw [htagmsgLen]
      exact hmsg
    · rw [strdup_val, strdup_val, strdup_val]
      rfl

/-- **A tag that arrives fits.** -/
theorem tagFits_of_recv {tag : GotTagObject} {imsgs : List Imsg}
    (hsend : gotPrivsepSendTag tag = .ok imsgs) (hstream : ibuf.stream = imsgs.map some)
    (hrecv : gotPrivsepRecvTag ibuf = .ok (some tag)) : TagFits tag := by
  unfold gotPrivsepSendTag at hsend
  obtain ⟨imsg, hcompose, hsend⟩ := bind_eq_ok_iff.mp hsend
  obtain ⟨more, -, hsend⟩ := bind_eq_ok_iff.mp hsend
  obtain rfl := Except.ok.inj hsend
  obtain ⟨htype, -, hmax⟩ := imsgCompose_eq_ok hcompose
  obtain ⟨ibuf', -, hiff⟩ := @gotPrivsepRecvTag_eq_ok_iff _ _ _ (some tag) hstream htype
  obtain ⟨itag, name, tagger, tagmsg, rest, ibuf'', hdata, -, -, -, htagmsg, heq⟩ := hiff.mp hrecv
  obtain rfl := Option.some.inj heq
  have hlen := congrArg List.length hdata
  simp only [List.length_append, length_imsgTag] at hlen
  have hname := length_strdup_le name
  have htagger := length_strdup_le tagger
  refine ⟨?_, ?_⟩
  · show sizeofImsgTag + (strdup name).val.length + (strdup tagger).val.length ≤ MAX_DATALEN
    omega
  · show (strdup tagmsg).val.length < 2 ^ 64
    exact lt_of_le_of_lt ((length_strdup_le tagmsg).trans (length_recvLogmsg htagmsg))
      itag.tagmsgLen.toNat_lt

end Privsep

end Got

import Got.ObjectFile.Text

/-!
# The content of a tag object

A tag has the object it is for, the type of this object, a name, the person who made
the tag, and a message. All of it is read back as it was written
(`gotObjectParseTag_create`), where the message has lost the white space it began
with and is read with the newlines around it.
-/

namespace Got

open Numeral

namespace ObjectFile

def GOT_OBJ_LABEL_COMMIT : Bytes := text "commit"
def GOT_OBJ_LABEL_TREE : Bytes := text "tree"
def GOT_OBJ_LABEL_BLOB : Bytes := text "blob"
def GOT_OBJ_LABEL_TAG : Bytes := text "tag"

def GOT_TAG_LABEL_OBJECT : Bytes := text "object "
def GOT_TAG_LABEL_TYPE : Bytes := text "type "
def GOT_TAG_LABEL_TAG : Bytes := text "tag "
def GOT_TAG_LABEL_TAGGER : Bytes := text "tagger "

/-! ## Writing -/

/-- The label of a type. -/
def objTypeStr (objType : UInt8) : Except GotErr Bytes :=
  if objType = GOT_OBJ_TYPE_BLOB then .ok GOT_OBJ_LABEL_BLOB
  else if objType = GOT_OBJ_TYPE_TREE then .ok GOT_OBJ_LABEL_TREE
  else if objType = GOT_OBJ_TYPE_COMMIT then .ok GOT_OBJ_LABEL_COMMIT
  else if objType = GOT_OBJ_TYPE_TAG then .ok GOT_OBJ_LABEL_TAG
  else .error .objType

/-- **`got_object_tag_create`**: the file that is stored. The repository has the type of
the object. -/
def gotObjectTagCreate (gotObjectGetType : Sha1 → Except GotErr UInt8) (tagName : Bytes)
    (objectId : Sha1) (tagger : Bytes) (taggerTime : ℤ) (tagmsg : Bytes) : Except GotErr Bytes := do
  let objStr := GOT_TAG_LABEL_OBJECT ++ (gotSha1DigestToStr objectId ++ [0x0a])
  let objType ← gotObjectGetType objectId
  let objTypeStr ← objTypeStr objType
  let typeStr := GOT_TAG_LABEL_TYPE ++ (objTypeStr ++ [0x0a])
  let tagStr := GOT_TAG_LABEL_TAG ++ (tagName ++ [0x0a])
  let taggerStr := identLine GOT_TAG_LABEL_TAGGER tagger taggerTime
  let msg := skipSpace tagmsg
  let len := objStr.length + typeStr.length + tagStr.length + taggerStr.length + 1 + msg.length + 1
  return objectHeader GOT_OBJ_LABEL_TAG len
    ++ (objStr ++ (typeStr ++ (tagStr ++ (taggerStr ++ ([0x0a] ++ (msg ++ [0x0a]))))))

/-! ## Reading

The length of what remains has no sign here. A label is there when its length is taken
off, and so is a line, so that the length does not become negative.
-/

/-- **`struct got_tag_object`**, as far as it is read from the file. -/
structure Tag where
  id : Sha1
  objType : UInt8
  tag : Bytes
  tagger : Ident
  tagmsg : Bytes
  deriving DecidableEq

/-- What is behind a label that has to be there. -/
def parseObjType (s : Bytes) : Option (Bytes × UInt8) :=
  [(GOT_OBJ_LABEL_COMMIT, GOT_OBJ_TYPE_COMMIT), (GOT_OBJ_LABEL_TREE, GOT_OBJ_TYPE_TREE),
    (GOT_OBJ_LABEL_BLOB, GOT_OBJ_TYPE_BLOB), (GOT_OBJ_LABEL_TAG, GOT_OBJ_TYPE_TAG)].find?
      fun label => label.1.isPrefixOf s

/-- The line with the type. -/
def parseTypeLine (s : Bytes) (remain : ℤ) : Except GotErr (UInt8 × Bytes × ℤ) := do
  if ¬GOT_TAG_LABEL_TYPE.isPrefixOf s then .error .badObjData
  else
    let remain := remain - GOT_TAG_LABEL_TYPE.length
    if remain ≤ 0 then .error .badObjData
    else
      let s := s.drop GOT_TAG_LABEL_TYPE.length
      match parseObjType s with
      | none => .error .badObjData
      | some (label, objType) =>
        let s := s.drop label.length
        let remain := remain - label.length
        if remain ≤ 0 then .error .badObjData
        else
          let c ← charAt s 0
          if c ≠ 0x0a then .error .badObjData
          else if remain - 1 ≤ 0 then .error .badObjData
          else return (objType, s.drop 1, remain - 1)

/-- The line with the name. -/
def parseTagLine (s : Bytes) (remain : ℤ) : Except GotErr (Bytes × Bytes × ℤ) := do
  if ¬GOT_TAG_LABEL_TAG.isPrefixOf s then .error .badObjData
  else
    let (tag, s, remain) ← parseLine GOT_TAG_LABEL_TAG s remain
    if remain ≤ 0 then .error .badObjData else return (tag, s, remain)

/-- The line with the tagger. Some old tags in the Linux git repo have no tagger. -/
def parseTaggerLine (s : Bytes) (remain : ℤ) : Except GotErr (Ident × Bytes × ℤ) := do
  if GOT_TAG_LABEL_TAGGER.isPrefixOf s then
    let (tagger, s, remain) ← parseIdentLine GOT_TAG_LABEL_TAGGER s remain
    if remain < 0 then .error .badObjData else return (tagger, s, remain)
  else return (⟨[], 0, 0⟩, s, remain)

/-- **`got_object_parse_tag`** -/
def gotObjectParseTag (buf : Bytes) : Except GotErr Tag := do
  let remain : ℤ := buf.length
  if remain = 0 then .error .badObjData
  else if ¬GOT_TAG_LABEL_OBJECT.isPrefixOf buf then .error .badObjData
  else
    let (id, s, remain) ← parseIdLine GOT_TAG_LABEL_OBJECT buf remain
    if remain ≤ 0 then .error .badObjData
    else
      let (objType, s, remain) ← parseTypeLine s remain
      let (tag, s, remain) ← parseTagLine s remain
      let (tagger, s, remain) ← parseTaggerLine s remain
      return { id, objType, tag, tagger, tagmsg := (s.take remain.toNat).takeWhile (· ≠ 0) }

/-! ## What is written is read -/

/-- **The label of a type is found**, and it is the type that was written. -/
theorem parseObjType_append {objType : UInt8} {label : Bytes} (h : objTypeStr objType = .ok label)
    (rest : Bytes) : parseObjType (label ++ rest) = some (label, objType) := by
  unfold objTypeStr at h
  split at h
  · next htype =>
    obtain rfl := Except.ok.inj h
    rw [htype]
    rfl
  · split at h
    · next htype =>
      obtain rfl := Except.ok.inj h
      rw [htype]
      rfl
    · split at h
      · next htype =>
        obtain rfl := Except.ok.inj h
        rw [htype]
        rfl
      · split at h
        · next htype =>
          obtain rfl := Except.ok.inj h
          rw [htype]
          rfl
        · exact nomatch h

/-- The plain types have labels. -/
theorem exists_objTypeStr {objType : UInt8} (h : isPlainType objType) :
    ∃ label, objTypeStr objType = .ok label := by
  rcases of_decide_eq_true h with rfl | rfl | rfl | rfl
  all_goals exact ⟨_, rfl⟩

/-- The line with the type is read. -/
theorem parseTypeLine_append {objType : UInt8} {label : Bytes} (h : objTypeStr objType = .ok label)
    {rest : Bytes} (hrest : rest ≠ []) {remain : ℤ}
    (hremain : remain = (GOT_TAG_LABEL_TYPE ++ (label ++ 0x0a :: rest)).length) :
    parseTypeLine (GOT_TAG_LABEL_TYPE ++ (label ++ 0x0a :: rest)) remain
      = .ok (objType, rest, rest.length) := by
  have hpos := List.length_pos_of_ne_nil hrest
  simp only [List.length_append, List.length_cons] at hremain
  have htype : remain - GOT_TAG_LABEL_TYPE.length = label.length + (1 + rest.length) := by omega
  have hlabel : (label.length : ℤ) + (1 + rest.length) - label.length - 1 = rest.length := by omega
  unfold parseTypeLine
  dsimp only
  rw [if_neg (by simp), htype, if_neg (by omega), List.drop_left, parseObjType_append h]
  dsimp only
  rw [if_neg (by omega), List.drop_left]
  show (if _ then _ else _) = _
  rw [hlabel, if_neg (by omega)]
  rfl

/-- The line with the name is read. -/
theorem parseTagLine_append {tag : Bytes} (h0 : 0 ∉ tag) (hnl : 0x0a ∉ tag) {rest : Bytes}
    (hrest : rest ≠ []) {remain : ℤ}
    (hremain : remain = (GOT_TAG_LABEL_TAG ++ (tag ++ 0x0a :: rest)).length) :
    parseTagLine (GOT_TAG_LABEL_TAG ++ (tag ++ 0x0a :: rest)) remain
      = .ok (tag, rest, rest.length) := by
  have hpos := List.length_pos_of_ne_nil hrest
  unfold parseTagLine
  rw [if_neg (by simp), parseLine_append _ h0 hnl rest hremain, ok_bind]
  dsimp only
  rw [if_neg (by omega)]
  rfl

/-- The line with the tagger is read. -/
theorem parseTaggerLine_append {tagger : Bytes} (h0 : 0 ∉ tagger) (hnl : 0x0a ∉ tagger) {time : ℤ}
    (hmin : 0 ≤ time) (hmax : time ≤ INT64_MAX) (rest : Bytes) {remain : ℤ}
    (hremain : remain = (identLine GOT_TAG_LABEL_TAGGER tagger time ++ rest).length) :
    parseTaggerLine (identLine GOT_TAG_LABEL_TAGGER tagger time ++ rest) remain
      = .ok (⟨tagger, time, 0⟩, rest, rest.length) := by
  have hbegin : GOT_TAG_LABEL_TAGGER.isPrefixOf
      (identLine GOT_TAG_LABEL_TAGGER tagger time ++ rest) = true := by
    rw [identLine, List.append_assoc]
    exact List.isPrefixOf_iff_prefix.mpr (List.prefix_append _ _)
  unfold parseTaggerLine
  rw [if_pos hbegin, parseIdentLine_append _ h0 hnl hmin hmax rest hremain, ok_bind]
  dsimp only
  rw [if_neg (by omega)]
  rfl

/-- **What is written for a tag is read again**, with a newline before the message and one
behind, and without the white space the message begins with. The header has the length of
what follows it. -/
theorem gotObjectParseTag_create (gotObjectGetType : Sha1 → Except GotErr UInt8) {objType : UInt8}
    {objectId : Sha1} {tagName tagger : Bytes} {taggerTime : ℤ} {tagmsg : Bytes}
    (htype : gotObjectGetType objectId = .ok objType) (hplain : isPlainType objType)
    (hname : 0 ∉ tagName ∧ 0x0a ∉ tagName) (htagger : 0 ∉ tagger ∧ 0x0a ∉ tagger)
    (htime : 0 ≤ taggerTime ∧ taggerTime ≤ INT64_MAX) (htagmsg : 0 ∉ tagmsg) :
    ∃ content : Bytes,
      gotObjectTagCreate gotObjectGetType tagName objectId tagger taggerTime tagmsg
        = .ok (objectHeader (text "tag") content.length ++ content)
      ∧ gotObjectParseTag content = .ok ⟨objectId, objType, tagName, ⟨tagger, taggerTime, 0⟩,
        0x0a :: (skipSpace tagmsg ++ [0x0a])⟩ := by
  obtain ⟨label, hlabel⟩ := exists_objTypeStr hplain
  -- the parts of the content, from the end
  generalize hmsg : skipSpace tagmsg = msg
  obtain ⟨message, hmessage⟩ : ∃ message : Bytes, message = [0x0a] ++ (msg ++ [0x0a]) := ⟨_, rfl⟩
  obtain ⟨people, hpeople⟩ : ∃ people, people = identLine GOT_TAG_LABEL_TAGGER tagger taggerTime
      ++ message := ⟨_, rfl⟩
  obtain ⟨name, hname'⟩ : ∃ name, name = GOT_TAG_LABEL_TAG ++ (tagName ++ 0x0a :: people) :=
    ⟨_, rfl⟩
  obtain ⟨type, htype'⟩ : ∃ type, type = GOT_TAG_LABEL_TYPE ++ (label ++ 0x0a :: name) := ⟨_, rfl⟩
  obtain ⟨content, hcontent⟩ : ∃ content, content = GOT_TAG_LABEL_OBJECT
      ++ (gotSha1DigestToStr objectId ++ 0x0a :: type) := ⟨_, rfl⟩
  have hzero : 0 ∉ message := by
    rw [hmessage, List.mem_append, List.mem_append, ← hmsg]
    rintro (h | h | h)
    · exact absurd h (by decide)
    · exact htagmsg ((List.dropWhile_sublist _).mem h)
    · exact absurd h (by decide)
  have hpeople0 : people ≠ [] := by
    rw [hpeople, hmessage]
    exact List.append_ne_nil_of_right_ne_nil _ (List.cons_ne_nil _ _)
  have hname0 : name ≠ [] := by
    rw [hname']
    exact List.append_ne_nil_of_left_ne_nil (by decide) _
  have htype0 : type ≠ [] := by
    rw [htype']
    exact List.append_ne_nil_of_left_ne_nil (by decide) _
  refine ⟨content, ?_, ?_⟩
  · unfold gotObjectTagCreate
    dsimp only
    rw [htype, ok_bind, hlabel, ok_bind, hmsg]
    show Except.ok _ = _
    congr 1
    rw [hcontent, htype', hname', hpeople, hmessage]
    congr 1
    · congr 1
      simp only [List.length_append, List.length_cons, List.length_nil]
      omega
    · simp only [List.append_assoc, List.cons_append, List.nil_append]
  · have hbegin : GOT_TAG_LABEL_OBJECT.isPrefixOf content = true := by
      rw [hcontent]
      exact List.isPrefixOf_iff_prefix.mpr (List.prefix_append _ _)
    have hlength : content.length ≠ 0 := by
      rw [hcontent]
      exact Nat.succ_ne_zero _
    have hobject := parseIdLine_append GOT_TAG_LABEL_OBJECT objectId 0x0a type
      (congrArg (fun s : Bytes => (s.length : ℤ)) hcontent)
    rw [← hcontent] at hobject
    have hpos := List.length_pos_of_ne_nil htype0
    unfold gotObjectParseTag
    dsimp only
    rw [if_neg (by omega), if_neg (by rw [hbegin]; simp), hobject, ok_bind]
    dsimp only
    rw [if_neg (by omega), htype', parseTypeLine_append hlabel hname0 rfl, ok_bind]
    dsimp only
    rw [hname', parseTagLine_append hname.1 hname.2 hpeople0 rfl, ok_bind]
    dsimp only
    rw [hpeople, parseTaggerLine_append htagger.1 htagger.2 htime.1 htime.2 _ rfl, ok_bind]
    dsimp only
    rw [Int.toNat_natCast, List.take_length, takeWhile_of_not_mem hzero, hmessage]
    rfl

/-- The theorem at work on a tag of a blob. -/
theorem gotObjectParseTag_create_blob :
    ∃ content : Bytes,
      gotObjectTagCreate (fun _ => .ok GOT_OBJ_TYPE_BLOB) (text "v1") someId (text "T <t>") 5
          (text " m\n") = .ok (objectHeader (text "tag") content.length ++ content)
      ∧ gotObjectParseTag content = .ok ⟨someId, GOT_OBJ_TYPE_BLOB, text "v1", ⟨text "T <t>", 5, 0⟩,
        0x0a :: (skipSpace (text " m\n") ++ [0x0a])⟩ :=
  gotObjectParseTag_create _ rfl (by decide) (by decide) (by decide) (by decide) (by decide)

/-- **The message is not the one that was given**, also when it is empty: there are newlines
around it. -/
theorem parseTag_newlines :
    ∃ (content : Bytes) (tag : Tag),
      gotObjectTagCreate (fun _ => .ok GOT_OBJ_TYPE_COMMIT) (text "v1") someId (text "T <t>") 5 []
        = .ok (objectHeader (text "tag") content.length ++ content)
      ∧ gotObjectParseTag content = .ok tag ∧ tag.tagmsg = text "\n\n" ∧ tag.tagmsg ≠ [] :=
  ⟨text ("object abababababababababababababababababababab\n" ++ "type commit\n" ++ "tag v1\n"
      ++ "tagger T <t> 5 +0000\n" ++ "\n\n"),
    ⟨someId, GOT_OBJ_TYPE_COMMIT, text "v1", ⟨text "T <t>", 5, 0⟩, text "\n\n"⟩,
    rfl, rfl, rfl, by decide⟩

end ObjectFile

end Got

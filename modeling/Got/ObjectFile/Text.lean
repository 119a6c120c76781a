import Got.CString
import Got.Pack.Packfile

/-!
# The text of objects

Commits and tags are texts. Each line of their headers begins with a label, and then
has an object, in hexadecimal digits, or a person and a time.

A parser goes through the text with what remains of it, as a string and as a length.
A zero is put at the end of a line, so that the line is a string as well.
-/

namespace Got

open Numeral

namespace ObjectFile

/-- The length of a digest as a string, with what follows it. -/
def SHA1_DIGEST_STRING_LENGTH : ℕ := 41

/-- The header of an object. -/
def objectHeader (label : Bytes) (len : ℕ) : Bytes := label ++ 0x20 :: decimal len ++ [0]

/-! ## Digests -/

/-- `got_sha1_digest_to_str` -/
def gotSha1DigestToStr (id : Sha1) : Bytes :=
  id.val.flatMap fun b => [digit (b.toNat / 16), digit (b.toNat % 16)]

/-- `got_parse_xdigit` -/
def gotParseXdigit (hex : Bytes) : Option UInt8 :=
  match strtol 16 hex with
  | some (n, []) => some (UInt8.ofBitVec (BitVec.ofInt 8 n))
  | _ => none

/-- The loop of `got_parse_sha1_digest`. -/
def parseDigest : ℕ → Bytes → Option Bytes
  | 0, _ => some []
  | n + 1, a :: b :: line =>
    if a = 0 ∨ b = 0 then none
    else do
      let d ← gotParseXdigit [a, b]
      let digest ← parseDigest n line
      return d :: digest
  | _ + 1, _ => none

/-- **`got_parse_sha1_digest`** -/
def gotParseSha1Digest (line : Bytes) : Option Sha1 :=
  (parseDigest SHA1_DIGEST_LENGTH line).map oidOf

/-! ## Lines -/

/-- A line with a person and a time. -/
def identLine (label name : Bytes) (time : ℤ) : Bytes :=
  label ++ (name ++ (0x20 :: showInt time ++ text " +0000\n"))

/-- White space at the start of a message is skipped. -/
def skipSpace (msg : Bytes) : Bytes := msg.dropWhile isspace

/-- **`parse_gmtoff`** -/
def parseGmtoff (tzstr : Bytes) : Except GotErr ℤ := do
  let c ← charAt tzstr 0
  if c ≠ 0x2d ∧ c ≠ 0x2b then .error .badObjData
  else
    let sign : ℤ := if c = 0x2d then -1 else 1
    let h1 ← charAt tzstr 1
    let h2 ← charAt tzstr 2
    if ¬isdigit h1 ∧ ¬isdigit h2 then .error .badObjData
    else
      let h := (charInt h1 - 0x30) * 10 + (charInt h2 - 0x30)
      let m1 ← charAt tzstr 3
      let m2 ← charAt tzstr 4
      if ¬isdigit m1 ∧ ¬isdigit m2 then .error .badObjData
      else
        let m := (charInt m1 - 0x30) * 10 + (charInt m2 - 0x30)
        return (h * 60 * 60 + m * 60) * sign

def INT64_MAX : ℤ := 2 ^ 63 - 1

/-- **`parse_commit_time`**: the time, the offset, and the person that is left. -/
def parseCommitTime (committer : Bytes) : Except GotErr (ℤ × ℤ × Bytes) :=
  match strrchr committer 0x20 with
  | none => .error .badObjData
  | some (committer, tzstr) => do
    let gmtoff ← parseGmtoff tzstr
    match strrchr committer 0x20 with
    | none => .error .badObjData
    | some (committer, timestr) =>
      match strtonum timestr 0 INT64_MAX with
      | none => .error .badObjData
      | some time => return (time, gmtoff, committer)

/-- What is read of an object behind a label. -/
def parseIdLine (label s : Bytes) (remain : ℤ) : Except GotErr (Sha1 × Bytes × ℤ) :=
  let remain := remain - label.length
  if remain < SHA1_DIGEST_STRING_LENGTH then .error .badObjData
  else
    let s := s.drop label.length
    match gotParseSha1Digest s with
    | none => .error .badObjData
    | some id => .ok (id, s.drop SHA1_DIGEST_STRING_LENGTH, remain - SHA1_DIGEST_STRING_LENGTH)

/-- **A person and a time** as they are read. -/
structure Ident where
  name : Bytes
  time : ℤ
  gmtoff : ℤ
  deriving DecidableEq

/-- Cut a line off. The end of it becomes a zero. -/
def parseLine (label s : Bytes) (remain : ℤ) : Except GotErr (Bytes × Bytes × ℤ) :=
  let remain := remain - label.length
  if remain ≤ 0 then .error .badObjData
  else
    let s := s.drop label.length
    match (s.take remain.toNat).findIdx? (· = 0x0a) with
    | none => .error .badObjData
    | some p =>
      let s := s.set p 0
      let line := s.takeWhile (· ≠ 0)
      .ok (line, s.drop (line.length + 1), remain - (line.length + 1))

/-- What is read of a person behind a label. -/
def parseIdentLine (label s : Bytes) (remain : ℤ) : Except GotErr (Ident × Bytes × ℤ) := do
  let (line, s, remain) ← parseLine label s remain
  let (time, gmtoff, name) ← parseCommitTime line
  return (⟨name, time, gmtoff⟩, s, remain)

/-! ## What is written is read -/

theorem digit_spec : ∀ n < 16, isspace (digit n) = false ∧ digit n ≠ 0x2d ∧ digit n ≠ 0x2b
    ∧ digit n ≠ 0 := by decide

theorem xdigit_spec : ∀ n < 256, (digitValue 16 (n : ℕ).toUInt8).isSome →
    isspace (n : ℕ).toUInt8 = false ∧ (n : ℕ).toUInt8 ≠ 0x2d ∧ (n : ℕ).toUInt8 ≠ 0x2b := by
  decide +kernel

/-- **Two digits are read**, in either case. -/
theorem gotParseXdigit_of_digitValue {a b : UInt8} {m n : ℕ} (ha : digitValue 16 a = some m)
    (hb : digitValue 16 b = some n) : gotParseXdigit [a, b] = some (16 * m + n).toUInt8 := by
  have hspec := xdigit_spec a.toNat a.toNat_lt
  have hnat : a.toNat.toUInt8 = a := UInt8.ofNat_toNat
  rw [hnat, ha] at hspec
  obtain ⟨hspace, hminus, hplus⟩ := hspec rfl
  have hread : readNumber 16 [a, b] 0 = (16 * m + n, []) := by
    rw [readNumber, ha]
    dsimp only
    rw [readNumber, hb]
    dsimp only
    rw [readNumber]
    congr 1
    omega
  have hstrtol : strtol 16 [a, b] = some (((16 * m + n : ℕ) : ℤ), []) := by
    unfold strtol
    dsimp only
    rw [List.dropWhile_cons_of_neg (by rw [hspace]; exact Bool.false_ne_true)]
    dsimp only
    rw [if_neg hminus, if_neg hplus, List.head?_cons, Option.bind_some, ha, hread]
    dsimp only
    rw [Int.one_mul]
  rw [gotParseXdigit, hstrtol]
  dsimp only
  rw [BitVec.ofInt_natCast]
  rfl

/-- Two digits are read as the byte they were written for. -/
theorem gotParseXdigit_digit (b : UInt8) :
    gotParseXdigit [digit (b.toNat / 16), digit (b.toNat % 16)] = some b := by
  have hb := b.toNat_lt
  rw [gotParseXdigit_of_digitValue (digitValue_digit le_rfl (show b.toNat / 16 < 16 by omega))
    (digitValue_digit le_rfl (show b.toNat % 16 < 16 by omega)), Nat.div_add_mod]
  exact congrArg some UInt8.ofNat_toNat

/-- A digest. -/
def someId : Sha1 := ⟨List.replicate 20 0xab, rfl⟩

theorem length_otherId : (List.replicate 20 (0xcd : UInt8)).length = SHA1_DIGEST_LENGTH := rfl

/-- **A digest that was written is read.** -/
theorem gotParseSha1Digest_append (id : Sha1) (rest : Bytes) :
    gotParseSha1Digest (gotSha1DigestToStr id ++ rest) = some id := by
  have hdigest : ∀ bs : Bytes, parseDigest bs.length
      ((bs.flatMap fun b => [digit (b.toNat / 16), digit (b.toNat % 16)]) ++ rest) = some bs := by
    intro bs
    induction bs with
    | nil => rfl
    | cons b bs ih =>
      have hb := b.toNat_lt
      have hhi := (digit_spec (b.toNat / 16) (by omega)).2.2.2
      have hlo := (digit_spec (b.toNat % 16) (by omega)).2.2.2
      rw [List.flatMap_cons, List.length_cons]
      show parseDigest (bs.length + 1) (digit (b.toNat / 16) :: digit (b.toNat % 16)
        :: ((bs.flatMap fun b => [digit (b.toNat / 16), digit (b.toNat % 16)]) ++ rest)) = _
      rw [parseDigest, if_neg (by simp [hhi, hlo]), gotParseXdigit_digit, ih]
      rfl
  have h := hdigest id.val
  rw [id.2] at h
  rw [gotParseSha1Digest, gotSha1DigestToStr, h]
  exact congrArg some (record_sha1.dec_enc id)

/-- An id in hexadecimal has forty digits. -/
theorem length_gotSha1DigestToStr (id : Sha1) : (gotSha1DigestToStr id).length = 40 := by
  have hlen : ∀ bs : Bytes,
      (bs.flatMap fun b => [digit (b.toNat / 16), digit (b.toNat % 16)]).length
      = bs.length * 2 := by
    intro bs
    induction bs with
    | nil => rfl
    | cons b bs ih =>
      rw [List.flatMap_cons, List.length_append, ih]
      show 2 + bs.length * 2 = (bs.length + 1) * 2
      omega
  rw [gotSha1DigestToStr, hlen, id.2]
  rfl

/-- **A line with an object is read.** -/
theorem parseIdLine_append (label : Bytes) (id : Sha1) (c : UInt8) (rest : Bytes) {remain : ℤ}
    (h : remain = (label ++ (gotSha1DigestToStr id ++ c :: rest)).length) :
    parseIdLine label (label ++ (gotSha1DigestToStr id ++ c :: rest)) remain
      = .ok (id, rest, rest.length) := by
  have hlen := length_gotSha1DigestToStr id
  have hremain : remain = label.length + 41 + rest.length := by
    rw [h]
    simp only [List.length_append, List.length_cons, hlen]
    omega
  have hdrop : (gotSha1DigestToStr id ++ c :: rest).drop SHA1_DIGEST_STRING_LENGTH = rest := by
    rw [← List.singleton_append, ← List.append_assoc]
    exact List.drop_left' (by rw [List.length_append, hlen]; rfl)
  unfold parseIdLine
  dsimp only
  rw [if_neg (by rw [hremain, SHA1_DIGEST_STRING_LENGTH]; omega), List.drop_left,
    gotParseSha1Digest_append]
  dsimp only
  rw [hdrop, hremain, SHA1_DIGEST_STRING_LENGTH]
  congr 3
  omega

/-- **A line is cut off.** -/
theorem parseLine_append (label : Bytes) {line : Bytes} (h0 : 0 ∉ line) (hnl : 0x0a ∉ line)
    (rest : Bytes) {remain : ℤ} (h : remain = (label ++ (line ++ 0x0a :: rest)).length) :
    parseLine label (label ++ (line ++ 0x0a :: rest)) remain = .ok (line, rest, rest.length) := by
  have hremain : remain - label.length = ((line ++ 0x0a :: rest).length : ℤ) := by
    rw [h, @List.length_append _ label]
    omega
  have hfind : (line ++ 0x0a :: rest).findIdx? (· = 0x0a) = some line.length :=
    findIdx?_append_cons (fun a ha => decide_eq_false fun heq : a = 0x0a => hnl (heq ▸ ha)) rfl rest
  have hset : (line ++ 0x0a :: rest).set line.length 0 = line ++ 0 :: rest := by
    rw [List.set_append_right _ _ le_rfl, Nat.sub_self]
    rfl
  have hdrop : (line ++ 0 :: rest).drop (line.length + 1) = rest := by
    rw [← List.singleton_append, ← List.append_assoc]
    exact List.drop_left' (by rw [List.length_append]; rfl)
  unfold parseLine
  dsimp only
  rw [hremain, if_neg (by simp only [List.length_append, List.length_cons]; omega), List.drop_left,
    Int.toNat_natCast, List.take_length, hfind]
  dsimp only
  rw [hset, takeWhile_append_zero h0, hdrop]
  congr 3
  simp only [List.length_append, List.length_cons]
  omega

/-- The text of a time has digits only. -/
theorem not_mem_showInt {time : ℤ} (h : 0 ≤ time) {c : UInt8} (hc : digitValue 10 c = none) :
    c ∉ showInt time := by
  intro hmem
  rw [showInt, if_neg (not_lt.mpr h)] at hmem
  have := (numeral_spec (by decide : 10 ≤ 16) (by decide) time.toNat).2 c hmem
  rw [hc] at this
  exact Bool.false_ne_true this

/-- **A person and a time are read.** -/
theorem parseCommitTime_append (name : Bytes) {time : ℤ} (h0 : 0 ≤ time) (hmax : time ≤ INT64_MAX) :
    parseCommitTime (name ++ (0x20 :: showInt time ++ text " +0000")) = .ok (time, 0, name) := by
  have htext : name ++ (0x20 :: showInt time ++ text " +0000")
      = (name ++ 0x20 :: showInt time) ++ 0x20 :: text "+0000" := by
    rw [← List.append_assoc]
    rfl
  have hgmtoff : parseGmtoff (text "+0000") = .ok 0 := rfl
  rw [parseCommitTime, htext, strrchr_append (by decide)]
  dsimp only
  rw [hgmtoff, ok_bind, strrchr_append (not_mem_showInt h0 rfl)]
  dsimp only
  rw [strtonum_showInt h0 h0 hmax]
  rfl

/-- **A line with a person is read.** -/
theorem parseIdentLine_append (label : Bytes) {name : Bytes} (hzero : 0 ∉ name) (hnl : 0x0a ∉ name)
    {time : ℤ} (h0 : 0 ≤ time) (hmax : time ≤ INT64_MAX) (rest : Bytes) {remain : ℤ}
    (h : remain = (identLine label name time ++ rest).length) :
    parseIdentLine label (identLine label name time ++ rest) remain
      = .ok (⟨name, time, 0⟩, rest, rest.length) := by
  have hline : identLine label name time ++ rest
      = label ++ ((name ++ (0x20 :: showInt time ++ text " +0000")) ++ 0x0a :: rest) := by
    have htext : text " +0000\n" = text " +0000" ++ [0x0a] := rfl
    rw [identLine, htext]
    simp only [List.append_assoc, List.cons_append, List.nil_append]
  have hnot : ∀ c : UInt8, c ∉ name → c ≠ 0x20 → digitValue 10 c = none → c ∉ text " +0000" →
      c ∉ name ++ (0x20 :: showInt time ++ text " +0000") := by
    intro c hname hspace hdigit htext
    simp only [List.mem_append, List.mem_cons, not_or]
    exact ⟨hname, ⟨hspace, not_mem_showInt h0 hdigit⟩, htext⟩
  rw [hline] at h ⊢
  rw [parseIdentLine, parseLine_append label (hnot 0 hzero (by decide) rfl (by decide))
    (hnot 0x0a hnl (by decide) rfl (by decide)) rest h, ok_bind]
  dsimp only
  rw [parseCommitTime_append name h0 hmax]
  rfl

end ObjectFile

end Got

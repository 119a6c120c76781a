import Mathlib.Data.List.Basic

/-!
# Codecs that work on buffers

A compressor or decompressor for streams is called again and again, with some input
and with some space for output, and each call says how much of either it has used. A
`Codec` is any such thing: nothing is known of a call, but that it does not use more
than there is. The calls that are made are put down as a list of `Call`s, and what they
did together is what was consumed and produced by them, one after the other.

A `Source` is a file that input is read from, some bytes at a time. How many bytes a read
gets is up to the file.
-/

namespace ZStream

variable {ζ β : Type}

/-- Whether a call is to hold output back. -/
inductive Flush
  | noFlush
  | syncFlush
  /-- There is no more input. -/
  | finish
  deriving DecidableEq

/-- What a call returns. -/
inductive Ret
  | ok
  /-- The end of the stream is reached. -/
  | streamEnd
  /-- There was nothing to do, for want of input or space. -/
  | bufError
  /-- Any other code. -/
  | failed
  deriving DecidableEq

/-- **What a call does**: its next state, what it returns, how much of the input it
has consumed, and its output. -/
structure Step (ζ β : Type) where
  z : ζ
  ret : Ret
  consumed : ℕ
  produced : List β

/-- **A codec**, with states `ζ`. A call is given the input and the space that there
is for output. -/
structure Codec (ζ β : Type) where
  step : ζ → Flush → List β → ℕ → Step ζ β
  consumed_le : ∀ z flush input availOut, (step z flush input availOut).consumed ≤ input.length
  produced_le : ∀ z flush input availOut,
    (step z flush input availOut).produced.length ≤ availOut

/-! ## Calls -/

/-- **A call that was made.** -/
structure Call (β : Type) where
  flush : Flush
  consumed : List β
  produced : List β
  ret : Ret

/-- What calls have consumed together. -/
def consumedBy (calls : List (Call β)) : List β := calls.flatMap Call.consumed

/-- What calls have produced together. -/
def producedBy (calls : List (Call β)) : List β := calls.flatMap Call.produced

theorem consumedBy_concat (calls : List (Call β)) (c : Call β) :
    consumedBy (calls ++ [c]) = consumedBy calls ++ c.consumed := by
  unfold consumedBy
  rw [List.flatMap_append, List.flatMap_singleton]

theorem producedBy_concat (calls : List (Call β)) (c : Call β) :
    producedBy (calls ++ [c]) = producedBy calls ++ c.produced := by
  unfold producedBy
  rw [List.flatMap_append, List.flatMap_singleton]

/-! ## Files that are read -/

/-- **A file that is read** in chunks, until it ends or cannot be read any further. -/
structure Source (β : Type) where
  chunks : List { c : List β // c ≠ [] }
  fails : Bool

namespace Source

/-- All that can be read. -/
def content (f : Source β) : List β := f.chunks.flatMap Subtype.val

theorem drop_ne_nil {c : List β} {n : ℕ} (h : ¬c.length ≤ n) : c.drop n ≠ [] :=
  fun hnil => h (List.drop_eq_nil_iff.mp hnil)

/-- **Read** at most `n` bytes. There is nothing at the end. -/
def read (f : Source β) (n : ℕ) : Option (List β × Source β) :=
  match f.chunks with
  | [] => none
  | c :: chunks =>
    if h : c.val.length ≤ n then some (c.val, { f with chunks := chunks })
    else some (c.val.take n, { f with chunks := ⟨c.val.drop n, drop_ne_nil h⟩ :: chunks })

variable {f f' : Source β} {n : ℕ} {data : List β}

/-- There is nothing left at the end. -/
theorem content_of_read_none (h : f.read n = none) : f.content = [] := by
  unfold read at h
  unfold content
  split at h
  · next hchunks => rw [hchunks]; rfl
  · split at h <;> cases h

/-- **What is read comes first** of what can be read. -/
theorem content_of_read (h : f.read n = some (data, f')) : f.content = data ++ f'.content := by
  unfold read at h
  unfold content
  split at h
  · cases h
  · next c chunks hchunks =>
    rw [hchunks, List.flatMap_cons]
    split at h
    · cases h
      rfl
    · cases h
      rw [List.flatMap_cons, ← List.append_assoc, List.take_append_drop]

/-- A read gets something, if it is for something. -/
theorem ne_nil_of_read (hn : 0 < n) (h : f.read n = some (data, f')) : data ≠ [] := by
  unfold read at h
  split at h
  · cases h
  · next c chunks _ =>
    split at h
    · cases h
      exact c.2
    · next hlen =>
      cases h
      exact fun hnil => (List.take_eq_nil_iff.mp hnil).elim (Nat.ne_of_gt hn) c.2

theorem fails_of_read (h : f.read n = some (data, f')) : f'.fails = f.fails := by
  unfold read at h
  split at h
  · cases h
  · split at h <;> · cases h; rfl

end Source

end ZStream

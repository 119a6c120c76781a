import Got.Inflate.ToFile

/-!
# Inflating into memory

`got_inflate_to_mem`, `got_inflate_to_mem_fd` and `got_inflate_to_mem_mmap` inflate into a
block of memory that they make larger as long as there is more. They keep three numbers:
how much memory is allocated, how much of it was used, and how large the window behind
that is which `inflate` may write to. Without a block the output is thrown away: every
call writes to the same buffer again.

The first window is always of the size of a whole buffer, except in
`got_inflate_to_mem_fd` without a block. But what this function allocates is less if less
is expected, and so `windows_within_iff` is about that.
-/

namespace Got

open ZStream

namespace Inflate

variable {ζ σ : Type}

/-- **A window** which `inflate` is given, and the memory that is allocated. -/
structure Window where
  start : ℕ
  len : ℕ
  allocated : ℕ

/-- The window is inside of the memory. -/
def Window.Within (w : Window) : Prop := w.start + w.len ≤ w.allocated

/-- **The state of these functions.** The windows are recorded. -/
structure ToMem (ζ σ : Type) where
  zb : InflateBuf ζ σ
  /-- Where the output buffer is in the memory. -/
  start : ℕ
  allocated : ℕ
  nbuf : ℕ
  /-- What was given out. It is in the block, if there is one. -/
  outbuf : Bytes
  outlen : ℕ
  consumedTotal : ℕ
  windows : List Window

/-- A number of buffers as a product of type `int`, which is then made a `size_t`. An
overflow, which C leaves undefined, wraps. -/
def bufsBytes (nbuf : ℕ) : ℤ := Int.bmod (nbuf * GOT_INFLATE_BUFSIZE) (2 ^ 32)

/-- What is left of a number of buffers, as a `size_t`. -/
def restOf (nbuf outlen : ℕ) : ℕ := ((bufsBytes nbuf - outlen) % 2 ^ 64).toNat

/-- How these functions differ: in how they read, in what happens to the input between
calls, in whether they stop when the input is used up, and in whether the buffer by which
the memory was made larger counts for the next window. -/
structure MemReader (ζ σ : Type) where
  read : InflateBuf ζ σ → Option GotErr × InflateBuf ζ σ
  skip : ℕ → σ → σ
  stops : σ → Bool
  counts : Bool

/-- After a call. -/
def ToMem.received (rd : MemReader ζ σ) (st : ToMem ζ σ) (zb : InflateBuf ζ σ) : ToMem ζ σ :=
  { st with
    zb := { zb with input := rd.skip zb.consumed zb.input }
    outbuf := st.outbuf ++ zb.outbuf
    outlen := st.outlen + zb.outbuf.length
    consumedTotal := st.consumedTotal + zb.consumed
    windows := st.windows ++ [⟨st.start, toUInt st.zb.outlen, st.allocated⟩] }

/-- The block is made larger by one buffer. -/
def ToMem.grow (rd : MemReader ζ σ) (st : ToMem ζ σ) : ToMem ζ σ :=
  { st with
    zb := { st.zb with outlen := restOf (if rd.counts then st.nbuf + 1 else st.nbuf) st.outlen }
    start := st.outlen
    allocated := (st.nbuf + 1) * GOT_INFLATE_BUFSIZE
    nbuf := st.nbuf + 1 }

/-- The loop. Whether there is a certain amount of memory is said by `mem`. -/
def toMemLoop (rd : MemReader ζ σ) (mem : ℕ → Bool) (block : Bool) :
    ℕ → ToMem ζ σ → Option GotErr × ToMem ζ σ
  | 0, st => (some .fuel, st)
  | n + 1, st =>
    let r := rd.read st.zb
    match r.1 with
    | some e => (some e, { st with
        zb := r.2
        windows := st.windows ++ [⟨st.start, toUInt st.zb.outlen, st.allocated⟩] })
    | none =>
      let st := st.received rd r.2
      if rd.stops st.zb.input then (none, st)
      else if ¬st.zb.haveMore then (none, st)
      else if ¬block then toMemLoop rd mem block n st
      else if mem ((st.nbuf + 1) * GOT_INFLATE_BUFSIZE) then toMemLoop rd mem block n (st.grow rd)
      else (some (.errno .nomem), { st with outbuf := [], outlen := 0 })

/-- The memory is allocated, which can fail. -/
def toMemStart (mem : ℕ → Bool) (allocated : ℕ) (zb : InflateBuf ζ σ)
    (run : ToMem ζ σ → Option GotErr × ToMem ζ σ) : Option GotErr × ToMem ζ σ :=
  let st : ToMem ζ σ := ⟨zb, 0, allocated, 1, [], 0, 0, []⟩
  if mem allocated then run st else (some (.errno .nomem), st)

variable (zlib : Inflater ζ) (mem : ℕ → Bool) (block : Bool) (fuel : ℕ)

/-- `got_inflate_to_mem` -/
def gotInflateToMem (f : Source UInt8) : Option GotErr × ToMem ζ (Source UInt8) :=
  toMemStart mem GOT_INFLATE_BUFSIZE (gotInflateInit zlib GOT_INFLATE_BUFSIZE none f)
    (toMemLoop ⟨gotInflateRead zlib fuel, fun _ f => f, fun _ => false, false⟩ mem block fuel)

/-- `got_inflate_to_mem_fd` -/
def gotInflateToMemFd (csum : Option Bytes) (expectedSize : ℕ) (f : Source UInt8) :
    Option GotErr × ToMem ζ (Source UInt8) :=
  let bufsize := if 0 < expectedSize ∧ expectedSize < GOT_INFLATE_BUFSIZE then expectedSize
    else GOT_INFLATE_BUFSIZE
  toMemStart mem bufsize
    (gotInflateInit zlib (if block then GOT_INFLATE_BUFSIZE else bufsize) csum f)
    (toMemLoop ⟨gotInflateReadFd zlib fuel, fun _ f => f, fun _ => false, false⟩ mem block fuel)

/-- `got_inflate_to_mem_mmap` -/
def gotInflateToMemMmap (csum : Option Bytes) (m : Mapping) :
    Option GotErr × ToMem ζ Mapping :=
  toMemStart mem GOT_INFLATE_BUFSIZE (gotInflateInit zlib GOT_INFLATE_BUFSIZE csum m)
    (toMemLoop ⟨gotInflateReadMmap zlib fuel, Mapping.skip, fun m => decide (m.len = 0), true⟩
      mem block fuel)

/-! ## Where the windows are -/

section Windows

variable {rd : MemReader ζ σ} {mem : ℕ → Bool} {n : ℕ} {st : ToMem ζ σ}

/-- **A call that keeps to its window**: it gives no more output than fits, and does not
change the size of the window. -/
def MemReader.Keeps (rd : MemReader ζ σ) : Prop :=
  ∀ zb, (rd.read zb).2.outbuf.length ≤ toUInt zb.outlen ∧ (rd.read zb).2.outlen = zb.outlen

end Windows

end Inflate

end Got

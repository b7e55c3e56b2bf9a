import Mathlib.Algebra.Group.Nat.Defs
import Mathlib.Data.List.Basic

/-!
# Length-prefixed frames

A payload of less than 2^32 bytes is sent as its length, four bytes with the
most significant one first, and the payload.  `splitFrame` takes the first frame
off a buffer; whatever comes behind a frame does not change what is taken, and
nothing is taken before the last byte of the frame is there.
-/

namespace DistributedMemory.Library.Framing

abbrev Bytes := List UInt8

/-- `struct.pack("!I", n)` -/
def packLength (n : Nat) : Bytes :=
  [UInt8.ofNat (n / 2 ^ 24), UInt8.ofNat (n / 2 ^ 16), UInt8.ofNat (n / 2 ^ 8),
    UInt8.ofNat n]

/-- `struct.unpack("!I", bytes)[0]`, for four bytes -/
def unpackLength (bytes : Bytes) : Nat :=
  bytes.foldl (fun n byte => 256 * n + byte.toNat) 0

def frame (payload : Bytes) : Bytes := packLength payload.length ++ payload

def splitFrame (buf : Bytes) : Option (Bytes × Bytes) :=
  if buf.length < 4 then none
  else
    let length := unpackLength (buf.take 4)
    if buf.length < 4 + length then none
    else some ((buf.drop 4).take length, buf.drop (4 + length))

theorem unpackLength_packLength {n : Nat} (h : n < 2 ^ 32) :
    unpackLength (packLength n) = n := by
  simp only [packLength, unpackLength, List.foldl_cons, List.foldl_nil,
    UInt8.toNat_ofNat']
  omega

@[simp] theorem length_packLength (n : Nat) : (packLength n).length = 4 := rfl

theorem length_frame (payload : Bytes) :
    (frame payload).length = 4 + payload.length := by
  simp [frame]

section Split

variable {payload : Bytes} (h : payload.length < 2 ^ 32)

include h

theorem splitFrame_frame (rest : Bytes) :
    splitFrame (frame payload ++ rest) = some (payload, rest) := by
  have hhead : (frame payload ++ rest).take 4 = packLength payload.length := by
    rw [frame, List.append_assoc]
    exact List.take_left' rfl
  have hbody : (frame payload ++ rest).drop 4 = payload ++ rest := by
    rw [frame, List.append_assoc]
    exact List.drop_left' rfl
  have hlength : 4 + payload.length ≤ (frame payload ++ rest).length := by
    rw [List.length_append, length_frame]
    omega
  have hrest : (frame payload ++ rest).drop (4 + payload.length) = rest :=
    List.drop_left' (length_frame payload)
  unfold splitFrame
  rw [if_neg (by omega), hhead, unpackLength_packLength h]
  dsimp only
  rw [if_neg (by omega), hbody, hrest, List.take_left' rfl]

theorem splitFrame_of_short {buf : Bytes} (hpre : buf <+: frame payload)
    (hshort : buf.length < (frame payload).length) : splitFrame buf = none := by
  unfold splitFrame
  by_cases hfour : buf.length < 4
  · rw [if_pos hfour]
  · have hhead : buf.take 4 = packLength payload.length := by
      have htake := List.prefix_iff_eq_take.mp hpre
      rw [htake, List.take_take, Nat.min_eq_left (by omega), frame]
      exact List.take_left' rfl
    rw [length_frame] at hshort
    rw [if_neg hfour, hhead, unpackLength_packLength h]
    dsimp only
    rw [if_pos hshort]

end Split

/-! ## A stream of frames -/

private theorem packLength_unpackLength {bytes : Bytes} (h : bytes.length = 4) :
    unpackLength bytes < 2 ^ 32 ∧ packLength (unpackLength bytes) = bytes := by
  match bytes, h with
  | [a, b, c, d], _ =>
    have ha := a.toNat_lt
    have hb := b.toNat_lt
    have hc := c.toNat_lt
    have hd := d.toNat_lt
    have hlength : unpackLength [a, b, c, d] =
        256 * (256 * (256 * a.toNat + b.toNat) + c.toNat) + d.toNat := by
      simp [unpackLength]
    rw [hlength]
    refine ⟨by omega, ?_⟩
    simp only [packLength, List.cons.injEq, ← UInt8.toNat_inj, UInt8.toNat_ofNat',
      and_true]
    omega

private theorem eq_frame_of_splitFrame {buf payload rest : Bytes}
    (h : splitFrame buf = some (payload, rest)) :
    payload.length < 2 ^ 32 ∧ buf = frame payload ++ rest := by
  unfold splitFrame at h
  by_cases hfour : buf.length < 4
  · simp [hfour] at h
  · rw [if_neg hfour] at h
    have hhead : (buf.take 4).length = 4 := by
      rw [List.length_take]
      omega
    obtain ⟨hlt, hpack⟩ := packLength_unpackLength hhead
    dsimp only at h
    split at h
    · cases h
    · next hlong =>
      obtain ⟨rfl, rfl⟩ := Prod.mk.inj (Option.some.inj h)
      have hlength : ((buf.drop 4).take (unpackLength (buf.take 4))).length =
          unpackLength (buf.take 4) := by
        rw [List.length_take, List.length_drop]
        omega
      refine ⟨by omega, ?_⟩
      rw [frame, hlength, hpack, ← List.drop_drop, List.append_assoc,
        List.take_append_drop, List.take_append_drop]

/-- The buffer holds the frames of these payloads and a rest that is no whole
frame. -/
structure Framed (buf : Bytes) (payloads : List Bytes) (tail : Bytes) : Prop where
  fits : ∀ payload ∈ payloads, payload.length < 2 ^ 32
  buf : buf = (payloads.map frame).flatten ++ tail
  tail : splitFrame tail = none

theorem Framed.cons {buf tail payload : Bytes} {payloads : List Bytes}
    (h : Framed buf payloads tail) (hfits : payload.length < 2 ^ 32) :
    Framed (frame payload ++ buf) (payload :: payloads) tail := by
  refine ⟨List.forall_mem_cons.mpr ⟨hfits, h.fits⟩, ?_, h.tail⟩
  rw [h.buf]
  simp

theorem Framed.append {buf buf' middle tail : Bytes} {payloads payloads' : List Bytes}
    (h : Framed buf payloads middle) (h' : Framed (middle ++ buf') payloads' tail) :
    Framed (buf ++ buf') (payloads ++ payloads') tail := by
  refine ⟨List.forall_mem_append.mpr ⟨h.fits, h'.fits⟩, ?_, h'.tail⟩
  rw [h.buf, List.append_assoc, h'.buf]
  simp

theorem exists_framed (buf : Bytes) : ∃ payloads tail, Framed buf payloads tail := by
  induction hn : buf.length using Nat.strongRecOn generalizing buf with
  | ind n ih =>
    cases hsplit : splitFrame buf with
    | none => exact ⟨[], buf, by simp, rfl, hsplit⟩
    | some first =>
        obtain ⟨payload, rest⟩ := first
        obtain ⟨hfits, hbuf⟩ := eq_frame_of_splitFrame hsplit
        have hlt : rest.length < n := by
          rw [← hn, hbuf, List.length_append, length_frame]
          omega
        obtain ⟨payloads, tail, h⟩ := ih _ hlt rest rfl
        rw [hbuf]
        exact ⟨payload :: payloads, tail, h.cons hfits⟩

/-- A stream that begins with these frames has no other frames there. -/
theorem Framed.prefix_of_append {buf tail rest : Bytes}
    {payloads first : List Bytes} (h : Framed buf payloads tail)
    (hfits : ∀ payload ∈ first, payload.length < 2 ^ 32)
    (hbuf : buf = (first.map frame).flatten ++ rest) :
    ∃ later, payloads = first ++ later ∧ Framed rest later tail := by
  induction first generalizing buf payloads with
  | nil =>
      simp only [List.map_nil, List.flatten_nil, List.nil_append] at hbuf
      exact ⟨payloads, rfl, hbuf ▸ h⟩
  | cons payload first ih =>
      obtain ⟨hpayload, hfirst⟩ := List.forall_mem_cons.mp hfits
      have hsplit := splitFrame_frame hpayload ((first.map frame).flatten ++ rest)
      rw [List.map_cons, List.flatten_cons, List.append_assoc] at hbuf
      rw [← hbuf, h.buf] at hsplit
      cases payloads with
      | nil =>
          rw [List.map_nil, List.flatten_nil, List.nil_append, h.tail] at hsplit
          cases hsplit
      | cons payload' payloads =>
          obtain ⟨hpayload', hpayloads⟩ := List.forall_mem_cons.mp h.fits
          rw [List.map_cons, List.flatten_cons, List.append_assoc,
            splitFrame_frame hpayload'] at hsplit
          obtain ⟨rfl, hrest⟩ := Prod.mk.inj (Option.some.inj hsplit)
          obtain ⟨later, rfl, hlater⟩ := ih ⟨hpayloads, hrest.symm ▸ rfl, h.tail⟩
            hfirst rfl
          exact ⟨later, rfl, hlater⟩

end DistributedMemory.Library.Framing

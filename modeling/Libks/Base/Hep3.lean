import Libks.Base.Word

/-!
# The HEP3 format

A HEP3 packet is the id `HEP3`, the length of the packet, and chunks up to its end. A
chunk has a vendor, a type, a length, and data; lengths count the fields in front as
well, and all numbers are stored with the most significant byte first. The reference
parser reads a packet that is all there is (`Hep3.parse`). It reads back what is laid out
in this way (`Hep3.parse_packet`), and nothing that is longer than a header can say
(`Hep3.length_of_parse`).
-/

namespace Base

/-- The number whose bytes are given, the most significant first. -/
def ofBe (bs : List UInt8) : ℕ := ofLe bs.reverse

/-- The `k` low bytes of `n`, the most significant first. -/
def beBytes (k n : ℕ) : List UInt8 := (leBytes k n).reverse

@[simp] theorem length_beBytes (k n : ℕ) : (beBytes k n).length = k := by
  rw [beBytes, List.length_reverse, length_leBytes]

theorem ofBe_beBytes {k n : ℕ} (h : n < 256 ^ k) : ofBe (beBytes k n) = n := by
  rw [ofBe, beBytes, List.reverse_reverse, ofLe_leBytes, Nat.mod_eq_of_lt h]

theorem ofBe_lt (bs : List UInt8) : ofBe bs < 256 ^ bs.length := by
  have := ofLe_lt bs.reverse
  rwa [List.length_reverse] at this

namespace Hep3

/-- A chunk. -/
structure Chunk where
  vendor : ℕ
  type : ℕ
  data : List UInt8
  deriving DecidableEq, Repr

namespace Chunk

/-- The numbers of a chunk have room in their fields. -/
@[mk_iff]
structure Fits (c : Chunk) : Prop where
  vendor : c.vendor < 2 ^ 16
  type : c.type < 2 ^ 16
  length : 6 + c.data.length < 2 ^ 16

/-- A chunk on the wire. -/
def bytes (c : Chunk) : List UInt8 :=
  beBytes 2 c.vendor ++ beBytes 2 c.type ++ beBytes 2 (6 + c.data.length) ++ c.data

end Chunk

/-- Reads chunks up to the end. -/
def parseChunks (bs : List UInt8) : Option (List Chunk) :=
  if bs = [] then some []
  else
    let length := ofBe ((bs.drop 4).take 2)
    if _h : 6 ≤ length ∧ length ≤ bs.length then
      (parseChunks (bs.drop length)).map fun cs =>
        ⟨ofBe (bs.take 2), ofBe ((bs.drop 2).take 2), (bs.take length).drop 6⟩ :: cs
    else none
termination_by bs.length
decreasing_by
  rw [List.length_drop]
  omega

/-- Reads a packet. -/
def parse (bs : List UInt8) : Option (List Chunk) :=
  if bs.take 4 = [0x48, 0x45, 0x50, 0x33] ∧ 6 ≤ bs.length ∧
    ofBe ((bs.drop 4).take 2) = bs.length then parseChunks (bs.drop 6)
  else none

theorem parseChunks_nil : parseChunks [] = some [] := by
  rw [parseChunks, if_pos rfl]

/-- A chunk is read back, in front of others. -/
theorem parseChunks_append {c : Chunk} (h : c.Fits) (bs : List UInt8) :
    parseChunks (c.bytes ++ bs) = (parseChunks bs).map (c :: ·) := by
  have hlen : c.bytes.length = 6 + c.data.length := by
    simp only [Chunk.bytes, List.length_append, length_beBytes]
  have hvendor : (c.bytes ++ bs).take 2 = beBytes 2 c.vendor := by
    rw [Chunk.bytes, List.append_assoc, List.append_assoc, List.append_assoc]
    exact List.take_left' (length_beBytes ..)
  have htype : ((c.bytes ++ bs).drop 2).take 2 = beBytes 2 c.type := by
    rw [Chunk.bytes, List.append_assoc, List.append_assoc, List.append_assoc,
      List.drop_left' (length_beBytes ..)]
    exact List.take_left' (length_beBytes ..)
  have hfour : (beBytes 2 c.vendor ++ beBytes 2 c.type).length = 4 := by
    rw [List.length_append, length_beBytes, length_beBytes]
  have hlength : ((c.bytes ++ bs).drop 4).take 2 = beBytes 2 (6 + c.data.length) := by
    rw [Chunk.bytes, List.append_assoc, List.append_assoc, List.drop_left' hfour]
    exact List.take_left' (length_beBytes ..)
  have hdata : c.bytes.drop 6 = c.data := by
    rw [Chunk.bytes]
    exact List.drop_left' (by rw [List.length_append, hfour, length_beBytes])
  have hne : c.bytes ++ bs ≠ [] := by
    rw [← List.length_pos_iff, List.length_append]
    omega
  rw [parseChunks, if_neg hne, hlength, ofBe_beBytes (by simpa using h.length)]
  dsimp only
  rw [dif_pos ⟨by omega, by rw [List.length_append]; omega⟩, hvendor, htype,
    ofBe_beBytes (by simpa using h.vendor),
    ofBe_beBytes (by simpa using h.type), List.drop_left' hlen, List.take_left' hlen, hdata]

/-- Chunks are read back. -/
theorem parseChunks_bytes {cs : List Chunk} (h : ∀ c ∈ cs, c.Fits) :
    parseChunks (cs.flatMap Chunk.bytes) = some cs := by
  induction cs with
  | nil => exact parseChunks_nil
  | cons c cs ih =>
    rw [List.flatMap_cons, parseChunks_append (h c List.mem_cons_self),
      ih fun c' hc' => h c' (List.mem_cons_of_mem _ hc')]
    rfl

/-- The packet of some chunks. -/
def packet (cs : List Chunk) : List UInt8 :=
  [0x48, 0x45, 0x50, 0x33] ++ beBytes 2 (6 + (cs.flatMap Chunk.bytes).length) ++
    cs.flatMap Chunk.bytes

theorem length_packet (cs : List Chunk) :
    (packet cs).length = 6 + (cs.flatMap Chunk.bytes).length := by
  simp only [packet, List.length_append, length_beBytes, List.length_cons, List.length_nil]

/-- A packet is read back. -/
theorem parse_packet {cs : List Chunk} (h : ∀ c ∈ cs, c.Fits) (hlen : (packet cs).length < 2 ^ 16) :
    parse (packet cs) = some cs := by
  rw [length_packet] at hlen
  have hlength : ((packet cs).drop 4).take 2 = beBytes 2 (6 + (cs.flatMap Chunk.bytes).length) := by
    rw [packet, List.append_assoc]
    exact List.take_left' (length_beBytes ..)
  have hchunks : (packet cs).drop 6 = cs.flatMap Chunk.bytes := by
    rw [packet]
    exact List.drop_left' (by rw [List.length_append, length_beBytes]; rfl)
  have hid : (packet cs).take 4 = [0x48, 0x45, 0x50, 0x33] := by
    rw [packet, List.append_assoc]
    exact List.take_left' rfl
  rw [parse, hlength, ofBe_beBytes (by simpa using hlen), hchunks, length_packet,
    if_pos ⟨hid, by omega, rfl⟩, parseChunks_bytes h]

/-- A packet that is read is as long as its header can say. -/
theorem length_of_parse {bs : List UInt8} {cs : List Chunk} (h : parse bs = some cs) :
    bs.length < 2 ^ 16 := by
  rw [parse] at h
  split_ifs at h with hbs
  have hlt := ofBe_lt ((bs.drop 4).take 2)
  have htwo : ((bs.drop 4).take 2).length = 2 := by
    rw [List.length_take, List.length_drop]
    omega
  rw [htwo, hbs.2.2] at hlt
  exact hlt

end Hep3

end Base

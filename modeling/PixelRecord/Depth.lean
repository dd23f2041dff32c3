/-!
Buffers of bytes and the two depths in which a channel value is stored in them:
one byte, or two bytes with the low one first.

`Depth.load_store` and its neighbours say that a stored value is read back and
that storing it changes no other byte; all that is later said about records
rests on them.
-/

namespace PixelRecord

abbrev Bytes := Array UInt8

inductive Depth where
  | eight
  | sixteen
  deriving DecidableEq, Repr

namespace Depth

/-- Bytes of a stored value. -/
def bytes : Depth → Nat
  | .eight => 1
  | .sixteen => 2

/-- The largest value: fully saturated, or opaque. -/
def max : Depth → Nat
  | .eight => 255
  | .sixteen => 65535

/-- An 8-bit value on the scale of the depth. On the 16-bit scale the byte is
repeated, so that 255 becomes 65535. -/
def widen (d : Depth) (v : UInt8) : Nat :=
  match d with
  | .eight => v.toNat
  | .sixteen => v.toNat * 257

/-- The 8-bit value that stands for a value of the depth: on the 16-bit scale
its high byte, which is not the nearest fraction but undoes `widen`. -/
def narrow (d : Depth) (v : Nat) : UInt8 :=
  match d with
  | .eight => v.toUInt8
  | .sixteen => (v / 256).toUInt8

def saturate (d : Depth) (v : Nat) : Nat := min v d.max

/-- The value stored at byte `i`; bytes past the end count as zero. -/
def load (d : Depth) (buf : Bytes) (i : Nat) : Nat :=
  match d with
  | .eight => (buf.getD i 0).toNat
  | .sixteen => (buf.getD i 0).toNat + 256 * (buf.getD (i + 1) 0).toNat

/-- The buffer with the value `v` stored at byte `i`. -/
def store (d : Depth) (buf : Bytes) (i v : Nat) : Bytes :=
  match d with
  | .eight => buf.setIfInBounds i v.toUInt8
  | .sixteen => (buf.setIfInBounds i v.toUInt8).setIfInBounds (i + 1) (v / 256).toUInt8

/-- The value that opens a buffer, if the buffer is long enough to hold one. -/
def read? (d : Depth) (buf : Bytes) : Option Nat :=
  if d.bytes ≤ buf.size then some (d.load buf 0) else none

theorem bytes_pos (d : Depth) : 0 < d.bytes := by cases d <;> decide

theorem max_pos (d : Depth) : 0 < d.max := by cases d <;> decide

theorem widen_le_max (d : Depth) (v : UInt8) : d.widen v ≤ d.max := by
  have := v.toNat_lt
  cases d <;> simp only [widen, max] <;> omega

@[simp] theorem narrow_widen (d : Depth) (v : UInt8) : d.narrow (d.widen v) = v := by
  have := v.toNat_lt
  apply UInt8.toNat_inj.mp
  cases d
  · simp [narrow, widen]
  · have h257 : v.toNat * 257 / 256 = v.toNat := by omega
    simp [narrow, widen, h257]

theorem load_le_max (d : Depth) (buf : Bytes) (i : Nat) : d.load buf i ≤ d.max := by
  have h0 := (buf.getD i 0).toNat_lt
  have h1 := (buf.getD (i + 1) 0).toNat_lt
  cases d <;> simp only [load, max] <;> omega

@[simp] theorem size_store (d : Depth) (buf : Bytes) (i v : Nat) :
    (d.store buf i v).size = buf.size := by
  cases d <;> simp [store]

/-- Storing a value leaves every byte outside its own as it was. -/
theorem getElem?_store_of_ne (d : Depth) (buf : Bytes) {i j : Nat} (v : Nat)
    (h : j < i ∨ i + d.bytes ≤ j) : (d.store buf i v)[j]? = buf[j]? := by
  cases d
  · have hij : i ≠ j := by simp only [bytes] at h; omega
    simp [store, hij]
  · have hij : i ≠ j := by simp only [bytes] at h; omega
    have hij' : i + 1 ≠ j := by simp only [bytes] at h; omega
    simp [store, hij, hij']

/-- A value that fits is read back from where it was stored. -/
theorem load_store (d : Depth) (buf : Bytes) {i v : Nat} (hv : v ≤ d.max)
    (hi : i + d.bytes ≤ buf.size) : d.load (d.store buf i v) i = v := by
  cases d
  · simp only [bytes, max] at hi hv
    have : i < buf.size := by omega
    simp [load, store, Array.getD_eq_getD_getElem?, this]
    omega
  · simp only [bytes, max] at hi hv
    have h0 : i < buf.size := by omega
    have h1 : i + 1 < buf.size := by omega
    simp [load, store, Array.getD_eq_getD_getElem?, h0, h1]
    omega

/-- A value stored elsewhere is not seen. -/
theorem load_store_of_disjoint (d : Depth) (buf : Bytes) {i j : Nat} (v : Nat)
    (h : j + d.bytes ≤ i ∨ i + d.bytes ≤ j) : d.load (d.store buf i v) j = d.load buf j := by
  cases d
  · simp only [load, Array.getD_eq_getD_getElem?]
    rw [getElem?_store_of_ne _ _ _ (by simp only [bytes] at h ⊢; omega)]
  · simp only [load, Array.getD_eq_getD_getElem?]
    rw [getElem?_store_of_ne _ _ _ (by simp only [bytes] at h ⊢; omega),
      getElem?_store_of_ne _ _ _ (by simp only [bytes] at h ⊢; omega)]

end Depth

end PixelRecord

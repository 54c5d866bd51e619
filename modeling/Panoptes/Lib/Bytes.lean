import Panoptes.Lib.Fault

/-!
# Byte buffers

Fixed-width little-endian integers and the slices of a buffer, as a fixed-layout encoder writes them
and a decoder reads them back.

* `leBytes`, `leNat` — an integer and its bytes; `leNat_leBytes`: they are inverse on integers that
  fit.
* `bytesAt`, `writeAt` — a slice read and a slice overwritten, and what is read after a write.
* `encodeFields` — a record of fixed-width integers; `leNat_bytesAt_encodeFields`: a field is read
  back at the sum of the widths before it.
-/

set_option autoImplicit false

namespace Panoptes.Lib

variable {w start : Nat} {buf bytes before : List UInt8}

/-- The `w` bytes of `n`, the least significant first. -/
def leBytes : Nat → Nat → List UInt8
  | 0, _ => []
  | w + 1, n => UInt8.ofNat n :: leBytes w (n / 256)

/-- The integer with these bytes, the least significant first. -/
def leNat : List UInt8 → Nat
  | [] => 0
  | b :: bs => b.toNat + 256 * leNat bs

/-- `buf[start..start + size]`. -/
def bytesAt (buf : List UInt8) (start size : Nat) : List UInt8 := (buf.drop start).take size

/-- `buf[start..start + bytes.len()]` overwritten by `bytes`. -/
def writeAt (buf : List UInt8) (start : Nat) (bytes : List UInt8) : List UInt8 :=
  buf.take start ++ (bytes ++ buf.drop (start + bytes.length))

@[simp] theorem length_leBytes (w n : Nat) : (leBytes w n).length = w := by
  induction w generalizing n with
  | zero => rfl
  | succ w ih => simp [leBytes, ih]

theorem leNat_leBytes {n : Nat} (h : n < 256 ^ w) : leNat (leBytes w n) = n := by
  induction w generalizing n with
  | zero =>
    have : n = 0 := by simpa using h
    simp [leBytes, leNat, this]
  | succ w ih =>
    have hdiv : n / 256 < 256 ^ w := by
      apply Nat.div_lt_of_lt_mul
      rw [← Nat.pow_succ']
      exact h
    simp only [leBytes, leNat, ih hdiv, UInt8.toNat_ofNat']
    omega

theorem leBytes_leNat (bs : List UInt8) : leBytes bs.length (leNat bs) = bs := by
  induction bs with
  | nil => rfl
  | cons b bs ih =>
    have hb := b.toNat_lt
    have hdiv : (b.toNat + 256 * leNat bs) / 256 = leNat bs := by omega
    have hmod : UInt8.ofNat (b.toNat + 256 * leNat bs) = b := by
      apply UInt8.toNat_inj.mp
      rw [UInt8.toNat_ofNat']
      omega
    simp only [List.length_cons, leNat, leBytes, hdiv, hmod, ih]

theorem bitVec_toNat_lt (x : BitVec (8 * w)) : x.toNat < 256 ^ w := by
  have h := x.isLt
  rwa [Nat.pow_mul] at h

theorem leNat_lt (bs : List UInt8) : leNat bs < 256 ^ bs.length := by
  induction bs with
  | nil => simp [leNat]
  | cons b bs ih =>
    have hb := b.toNat_lt
    simp only [leNat, List.length_cons]
    omega

/-! ## Slices -/

theorem length_writeAt (h : start + bytes.length ≤ buf.length) :
    (writeAt buf start bytes).length = buf.length := by
  simp only [writeAt, List.length_append, List.length_take, List.length_drop]
  omega

/-- A field of a concatenation, found at the length of what precedes it. -/
theorem bytesAt_append {field : List UInt8} (after : List UInt8) {size : Nat}
    (hstart : before.length = start) (hsize : field.length = size) :
    bytesAt (before ++ (field ++ after)) start size = field := by
  subst hstart hsize
  simp [bytesAt]

theorem drop_writeAt {from' : Nat} (hle : start + bytes.length ≤ from')
    (h : start + bytes.length ≤ buf.length) :
    (writeAt buf start bytes).drop from' = buf.drop from' := by
  have hlen : (buf.take start).length = start := by
    rw [List.length_take]
    omega
  unfold writeAt
  rw [List.drop_append, List.drop_append, hlen, List.drop_drop,
    List.drop_eq_nil_of_le (by omega : (buf.take start).length ≤ from'), List.nil_append,
    List.drop_eq_nil_of_le (by omega : bytes.length ≤ from' - start), List.nil_append]
  congr 1
  omega

/-- A write at the end of what is written so far in a buffer of zeros. -/
theorem writeAt_zeros (bytes : List UInt8) (n : Nat) (hstart : before.length = start) :
    writeAt (before ++ List.replicate n 0) start bytes =
      (before ++ bytes) ++ List.replicate (n - bytes.length) 0 := by
  subst hstart
  unfold writeAt
  rw [List.take_left, List.drop_append, List.drop_eq_nil_of_le (by omega), List.nil_append,
    List.drop_replicate,
    Nat.add_sub_cancel_left, List.append_assoc]

/-! ## Records -/

/-- The integers of a record with their widths in bytes, one after the other. -/
def encodeFields : List (Nat × Nat) → List UInt8
  | [] => []
  | (w, n) :: fields => leBytes w n ++ encodeFields fields

theorem length_encodeFields (fields : List (Nat × Nat)) :
    (encodeFields fields).length = (fields.map Prod.fst).sum := by
  induction fields with
  | nil => rfl
  | cons f fields ih => simp [encodeFields, ih]

theorem encodeFields_append (fields fields' : List (Nat × Nat)) :
    encodeFields (fields ++ fields') = encodeFields fields ++ encodeFields fields' := by
  induction fields with
  | nil => rfl
  | cons f fields ih => simp [encodeFields, ih]

theorem leNat_bytesAt_encodeFields (before after : List (Nat × Nat)) {n : Nat} (hn : n < 256 ^ w)
    (hstart : (before.map Prod.fst).sum = start) :
    leNat (bytesAt (encodeFields (before ++ (w, n) :: after)) start w) = n := by
  rw [encodeFields_append, encodeFields,
    bytesAt_append _ ((length_encodeFields before).trans hstart)
    (length_leBytes w n), leNat_leBytes hn]

/-! ## Chunks -/

section Chunks

variable {α : Type}

/-- `xs.chunks(n)`: pieces of `n` elements, the last one shorter. -/
def chunks (n : Nat) (xs : List α) : List (List α) :=
  (List.range ((xs.length + n - 1) / n)).map fun i => (xs.drop (i * n)).take n

theorem length_chunks (n : Nat) (xs : List α) : (chunks n xs).length = (xs.length + n - 1) / n := by
  simp [chunks]

theorem getElem_chunks {n : Nat} {xs : List α} {i : Nat} (h : i < (chunks n xs).length) :
    (chunks n xs)[i] = (xs.drop (i * n)).take n := by
  simp [chunks]

theorem flatten_map_range (n k : Nat) (xs : List α) :
    ((List.range k).map fun i => (xs.drop (i * n)).take n).flatten = xs.take (k * n) := by
  induction k with
  | zero => simp
  | succ k ih =>
    rw [List.range_succ, List.map_append, List.flatten_append, ih, Nat.succ_mul, List.take_add]
    simp

theorem flatten_chunks {n : Nat} (hn : 0 < n) (xs : List α) : (chunks n xs).flatten = xs := by
  have hcover : xs.length ≤ (xs.length + n - 1) / n * n := by
    have := Nat.div_add_mod (xs.length + n - 1) n
    have := Nat.mod_lt (xs.length + n - 1) hn
    rw [Nat.mul_comm]
    omega
  rw [chunks, flatten_map_range, List.take_of_length_le hcover]

end Chunks

end Panoptes.Lib

import Mathlib.Algebra.GroupWithZero.Nat
import Mathlib.Data.Vector.Basic
import Mathlib.Logic.Equiv.Prod

/-!
# Self-delimiting codecs

A codec reads a value off the front of a byte string and hands back the bytes that follow it. An
encoder may refuse a value (a length that does not fit its length field), so `encode` returns an
`Option`. The two laws say that a decoder undoes the encoder whatever follows the encoding, and
that it accepts nothing but encodings.

## Main results

* `Codec.encode_append_inj`: two encodings followed by arbitrary bytes that make up the same string
  are encodings of the same value, so no encoding is a proper beginning of another one;
* `Codec.fixed`, `Codec.prod`, `Codec.congr`, `Codec.vec`: the codecs of fixed-width values, pairs,
  values in bijection with encodable ones, and counted lists;
* `Codec.map_fst_decode_fixed_iff`: what a decoder of fixed-width values reads from an input.
-/

/-- An octet. -/
abbrev Byte := Fin 256

instance Byte.neZero : NeZero 256 := ⟨by decide⟩

/-- A byte string of any length. -/
abbrev Bytes := List Byte

/-- The byte arrays of length `n`. -/
abbrev FixedBytes (n : ℕ) := List.Vector Byte n

namespace FixedBytes

variable {m n : ℕ}

/-- Read `n` bytes off the front of `input`. -/
def take? (n : ℕ) (input : Bytes) : Option (FixedBytes n × Bytes) :=
  if h : n ≤ input.length then some (⟨input.take n, by simpa using h⟩, input.drop n) else none

theorem take?_append (v : FixedBytes n) (rest : Bytes) :
    take? n (v.toList ++ rest) = some (v, rest) := by
  have hlen : v.toList.length = n := v.toList_length
  have hle : n ≤ (v.toList ++ rest).length := by simp
  rw [take?, dif_pos hle]
  exact congrArg some
    (Prod.ext (List.Vector.eq _ _ (List.take_left' hlen)) (List.drop_left' hlen))

theorem take?_eq_some {input rest : Bytes} {v : FixedBytes n}
    (h : take? n input = some (v, rest)) : input = v.toList ++ rest := by
  rw [take?] at h
  split at h
  next hle =>
    obtain ⟨rfl, rfl⟩ := Prod.ext_iff.mp (Option.some.inj h)
    exact (List.take_append_drop n input).symm
  next => exact absurd h (by simp)

/-- Joining two byte arrays, and cutting one in two. -/
def appendEquiv (m n : ℕ) : FixedBytes m × FixedBytes n ≃ FixedBytes (m + n) where
  toFun p := ⟨p.1.toList ++ p.2.toList, by simp⟩
  invFun v := (⟨v.toList.take m, by simp⟩, ⟨v.toList.drop m, by simp⟩)
  left_inv p := by
    have hlen : p.1.toList.length = m := p.1.toList_length
    refine Prod.ext (List.Vector.eq _ _ ?_) (List.Vector.eq _ _ ?_)
    · exact List.take_left' hlen
    · exact List.drop_left' hlen
  right_inv v := List.Vector.eq _ _ (List.take_append_drop m v.toList)

@[simp]
theorem toList_appendEquiv (p : FixedBytes m × FixedBytes n) :
    (appendEquiv m n p).toList = p.1.toList ++ p.2.toList := rfl

end FixedBytes

/-- A self-delimiting binary format for the values of `α`. -/
structure Codec (α : Type) where
  /-- The encoding of a value, when it has one. -/
  encode : α → Option Bytes
  /-- Read one value off the front of the input, returning the bytes after it. -/
  decode : Bytes → Option (α × Bytes)
  /-- Decoding undoes encoding, whatever bytes follow. -/
  decode_encode : ∀ {a : α} {bytes : Bytes}, encode a = some bytes →
    ∀ rest, decode (bytes ++ rest) = some (a, rest)
  /-- What decoding consumes is the encoding of what it returns. -/
  encode_of_decode : ∀ {input rest : Bytes} {a : α}, decode input = some (a, rest) →
    ∃ bytes, encode a = some bytes ∧ input = bytes ++ rest

namespace Codec

variable {α β : Type} {n : ℕ}

/-- Two encodings one after the other, when both exist. -/
theorem append_eq_some_iff {a b : Option Bytes} {bytes : Bytes} :
    (do let x ← a; let y ← b; return x ++ y) = some bytes ↔
      ∃ x y, a = some x ∧ b = some y ∧ bytes = x ++ y := by
  refine ⟨?_, ?_⟩
  · intro h
    obtain ⟨x, hx, h⟩ := Option.bind_eq_some_iff.mp h
    obtain ⟨y, hy, h⟩ := Option.bind_eq_some_iff.mp h
    exact ⟨x, y, hx, hy, (Option.some.inj h).symm⟩
  · rintro ⟨x, y, rfl, rfl, rfl⟩
    rfl

/-- Encodings are self-delimiting: the bytes that follow one never change what it means. -/
theorem encode_append_inj (c : Codec α) {a b : α} {x y s t : Bytes}
    (ha : c.encode a = some x) (hb : c.encode b = some y) (h : x ++ s = y ++ t) :
    a = b ∧ s = t := by
  have hx := c.decode_encode ha s
  rw [h, c.decode_encode hb t, Option.some.injEq, Prod.mk.injEq] at hx
  exact ⟨hx.1.symm, hx.2.symm⟩

/-- Equal encodings encode equal values. -/
theorem encode_inj (c : Codec α) {a b : α} {x : Bytes}
    (ha : c.encode a = some x) (hb : c.encode b = some x) : a = b :=
  (c.encode_append_inj (s := []) (t := []) ha hb rfl).1

/-- Values in bijection with the byte arrays of one length. -/
def fixed (e : α ≃ FixedBytes n) : Codec α where
  encode a := some (e a).toList
  decode input := (FixedBytes.take? n input).map fun p => (e.symm p.1, p.2)
  decode_encode := by
    intro a bytes h rest
    obtain rfl := Option.some.inj h
    rw [FixedBytes.take?_append]
    simp
  encode_of_decode := by
    intro input rest a h
    obtain ⟨⟨v, r⟩, hv, heq⟩ := Option.map_eq_some_iff.mp h
    simp only [Prod.mk.injEq] at heq
    obtain ⟨rfl, rfl⟩ := heq
    exact ⟨v.toList, by simp, FixedBytes.take?_eq_some hv⟩

@[simp]
theorem encode_fixed (e : α ≃ FixedBytes n) (a : α) : (fixed e).encode a = some (e a).toList := rfl

/-- A fixed-width value is read from every input that starts with its bytes. -/
theorem map_fst_decode_fixed_iff {e : α ≃ FixedBytes n} {input : Bytes} {a : α} :
    ((fixed e).decode input).map Prod.fst = some a ↔ (e a).toList <+: input := by
  refine ⟨?_, ?_⟩
  · intro h
    obtain ⟨⟨_, rest⟩, hdecode, rfl⟩ := Option.map_eq_some_iff.mp h
    obtain ⟨bytes, hbytes, rfl⟩ := (fixed e).encode_of_decode hdecode
    obtain rfl := Option.some.inj hbytes
    exact ⟨rest, rfl⟩
  · rintro ⟨rest, rfl⟩
    rw [(fixed e).decode_encode (encode_fixed e a) rest, Option.map_some]

/-- One value after the other. -/
def prod (c : Codec α) (d : Codec β) : Codec (α × β) where
  encode p := do
    let x ← c.encode p.1
    let y ← d.encode p.2
    return x ++ y
  decode input := do
    let (a, afterFirst) ← c.decode input
    let (b, rest) ← d.decode afterFirst
    return ((a, b), rest)
  decode_encode := by
    intro p bytes h rest
    obtain ⟨x, y, hx, hy, rfl⟩ := append_eq_some_iff.mp h
    rw [List.append_assoc, c.decode_encode hx]
    change (d.decode (y ++ rest)).bind _ = _
    rw [d.decode_encode hy]
    rfl
  encode_of_decode := by
    intro input rest p h
    obtain ⟨⟨a, afterFirst⟩, ha, h⟩ := Option.bind_eq_some_iff.mp h
    obtain ⟨⟨b, rest'⟩, hb, h⟩ := Option.bind_eq_some_iff.mp h
    simp only [Option.pure_def, Option.some.injEq, Prod.mk.injEq] at h
    obtain ⟨rfl, rfl⟩ := h
    -- what each of the two decoders consumed is an encoding
    obtain ⟨x, hx, rfl⟩ := c.encode_of_decode ha
    obtain ⟨y, hy, rfl⟩ := d.encode_of_decode hb
    exact ⟨x ++ y, by simp [hx, hy], by rw [List.append_assoc]⟩

theorem encode_prod_eq_some {c : Codec α} {d : Codec β} {p : α × β} {bytes : Bytes} :
    (c.prod d).encode p = some bytes ↔
      ∃ x y, c.encode p.1 = some x ∧ d.encode p.2 = some y ∧ bytes = x ++ y :=
  append_eq_some_iff

/-- Reading a value through a bijection. -/
def congr (e : α ≃ β) (c : Codec β) : Codec α where
  encode a := c.encode (e a)
  decode input := (c.decode input).map fun p => (e.symm p.1, p.2)
  decode_encode := by
    intro a bytes h rest
    rw [c.decode_encode h]
    simp
  encode_of_decode := by
    intro input rest a h
    obtain ⟨⟨b, r⟩, hb, heq⟩ := Option.map_eq_some_iff.mp h
    simp only [Prod.mk.injEq] at heq
    obtain ⟨rfl, rfl⟩ := heq
    obtain ⟨bytes, hbytes, hinput⟩ := c.encode_of_decode hb
    exact ⟨bytes, by simpa using hbytes, hinput⟩

/-! ## Counted lists -/

/-- The encodings of the elements, one after the other. -/
def encodeAll (c : Codec α) : List α → Option Bytes
  | [] => some []
  | a :: as => do
    let x ← c.encode a
    let xs ← c.encodeAll as
    return x ++ xs

/-- Elements that all have an encoding have one together. -/
theorem exists_encodeAll {c : Codec α} (h : ∀ a, ∃ x, c.encode a = some x) (as : List α) :
    ∃ y, c.encodeAll as = some y := by
  induction as with
  | nil => exact ⟨[], rfl⟩
  | cons a as ih =>
    obtain ⟨x, hx⟩ := h a
    obtain ⟨y, hy⟩ := ih
    exact ⟨x ++ y, by simp [encodeAll, hx, hy]⟩

/-- Read exactly `n` values. -/
def decodeAll (c : Codec α) : ℕ → Bytes → Option (List α × Bytes)
  | 0, input => some ([], input)
  | n + 1, input => do
    let (a, rest) ← c.decode input
    let (as, rest) ← c.decodeAll n rest
    return (a :: as, rest)

theorem decodeAll_encodeAll (c : Codec α) {as : List α} {bytes : Bytes}
    (h : c.encodeAll as = some bytes) (rest : Bytes) :
    c.decodeAll as.length (bytes ++ rest) = some (as, rest) := by
  induction as generalizing bytes with
  | nil =>
    obtain rfl := Option.some.inj h
    rfl
  | cons a as ih =>
    obtain ⟨x, xs, hx, hxs, rfl⟩ := append_eq_some_iff.mp h
    -- the first decoder stops where the encoding of the head ends
    rw [List.append_assoc, List.length_cons, decodeAll, c.decode_encode hx]
    change (c.decodeAll as.length (xs ++ rest)).bind _ = _
    rw [ih hxs]
    rfl

theorem encodeAll_of_decodeAll (c : Codec α) {n : ℕ} {input rest : Bytes} {as : List α}
    (h : c.decodeAll n input = some (as, rest)) :
    as.length = n ∧ ∃ bytes, c.encodeAll as = some bytes ∧ input = bytes ++ rest := by
  induction n generalizing input as with
  | zero =>
    simp only [decodeAll, Option.some.injEq, Prod.mk.injEq] at h
    obtain ⟨rfl, rfl⟩ := h
    exact ⟨rfl, [], rfl, rfl⟩
  | succ n ih =>
    obtain ⟨⟨a, afterFirst⟩, ha, h⟩ := Option.bind_eq_some_iff.mp h
    obtain ⟨⟨as', rest'⟩, has, h⟩ := Option.bind_eq_some_iff.mp h
    simp only [Option.pure_def, Option.some.injEq, Prod.mk.injEq] at h
    obtain ⟨rfl, rfl⟩ := h
    obtain ⟨x, hx, rfl⟩ := c.encode_of_decode ha
    obtain ⟨hlen, xs, hxs, rfl⟩ := ih has
    exact ⟨by simp [hlen], x ++ xs, by simp [encodeAll, hx, hxs], by rw [List.append_assoc]⟩

/-- A list as the encoding of its length followed by its elements. -/
def vec (len : Codec ℕ) (c : Codec α) : Codec (List α) where
  encode as := do
    let x ← len.encode as.length
    let y ← c.encodeAll as
    return x ++ y
  decode input := do
    let (n, rest) ← len.decode input
    c.decodeAll n rest
  decode_encode := by
    intro as bytes h rest
    obtain ⟨x, y, hx, hy, rfl⟩ := append_eq_some_iff.mp h
    rw [List.append_assoc, len.decode_encode hx]
    exact c.decodeAll_encodeAll hy rest
  encode_of_decode := by
    intro input rest as h
    obtain ⟨⟨n, afterCount⟩, hn, h⟩ := Option.bind_eq_some_iff.mp h
    -- the count that was read is the length of the list
    obtain ⟨rfl, y, hy, rfl⟩ := c.encodeAll_of_decodeAll h
    obtain ⟨x, hx, rfl⟩ := len.encode_of_decode hn
    exact ⟨x ++ y, by simp [hx, hy], by rw [List.append_assoc]⟩

theorem encode_vec_eq_some {len : Codec ℕ} {c : Codec α} {as : List α} {bytes : Bytes} :
    (vec len c).encode as = some bytes ↔
      ∃ x y, len.encode as.length = some x ∧ c.encodeAll as = some y ∧ bytes = x ++ y :=
  append_eq_some_iff

end Codec

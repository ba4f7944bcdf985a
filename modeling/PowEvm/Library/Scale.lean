import Mathlib.Data.BitVec
import Mathlib.Tactic.NormNum
import Mathlib.Tactic.Positivity
import Mathlib.Tactic.Ring
import PowEvm.Library.Codec

/-!
# The SCALE format

The parts of the SCALE codec that the derived encoders are made of: fixed-width little-endian
integers, the compact form of a `u32`, and vectors, which are the compact form of their length
followed by their elements. Both sides of the codec refuse a length from `2 ^ 32` on, and the
decoder refuses a compact integer in a longer form than it needs.

## Main results

* `Scale.leEquiv`: the `k`-byte little-endian form is a bijection between `BitVec (8 * k)` and the
  byte arrays of length `k`;
* `Scale.ofBigEndian_injective`, `Scale.exists_ofBigEndian`: so is the big-endian reading, onto the
  numbers below `256 ^ k`;
* `Scale.compactU32`: the four modes of the compact form make up a self-delimiting codec;
* `Scale.exists_encode_vec_iff`: the vectors with an encoding are those of a `u32` length.
-/

namespace Scale

/-! ## Little-endian and big-endian integers -/

/-- The `k` low-order bytes of `n`, least significant first. -/
def littleEndian : ℕ → ℕ → Bytes
  | 0, _ => []
  | k + 1, n => Fin.ofNat 256 n :: littleEndian k (n / 256)

/-- The number whose bytes, least significant first, are given. -/
def ofLittleEndian : Bytes → ℕ
  | [] => 0
  | b :: bs => b.val + 256 * ofLittleEndian bs

/-- The number whose bytes, most significant first, are given. -/
def ofBigEndian (bs : Bytes) : ℕ := ofLittleEndian bs.reverse

@[simp]
theorem length_littleEndian (k n : ℕ) : (littleEndian k n).length = k := by
  induction k generalizing n with
  | zero => rfl
  | succ k ih => simp [littleEndian, ih]

theorem ofLittleEndian_littleEndian (k n : ℕ) :
    ofLittleEndian (littleEndian k n) = n % 256 ^ k := by
  induction k generalizing n with
  | zero => simp [littleEndian, ofLittleEndian, Nat.mod_one]
  | succ k ih =>
    rw [littleEndian, ofLittleEndian, ih, pow_succ, Nat.mul_comm (256 ^ k), Nat.mod_mul]
    rfl

theorem littleEndian_ofLittleEndian (bs : Bytes) :
    littleEndian bs.length (ofLittleEndian bs) = bs := by
  induction bs with
  | nil => rfl
  | cons b bs ih =>
    -- the quotient by `256` drops the first byte, and the remainder is it
    have hb := b.isLt
    have hdiv : (b.val + 256 * ofLittleEndian bs) / 256 = ofLittleEndian bs := by omega
    rw [List.length_cons, ofLittleEndian, littleEndian, hdiv, ih]
    congr 1
    exact Fin.ext (show (b.val + 256 * ofLittleEndian bs) % 256 = b.val by omega)

theorem ofLittleEndian_lt (bs : Bytes) : ofLittleEndian bs < 256 ^ bs.length := by
  rw [← littleEndian_ofLittleEndian bs, ofLittleEndian_littleEndian, length_littleEndian]
  exact Nat.mod_lt _ (by positivity)

theorem two_pow_eight_mul (k : ℕ) : 2 ^ (8 * k) = 256 ^ k := by
  rw [pow_mul]
  norm_num

/-- The little-endian form of a `k`-byte integer. -/
def leEquiv (k : ℕ) : BitVec (8 * k) ≃ FixedBytes k where
  toFun x := ⟨littleEndian k x.toNat, length_littleEndian k _⟩
  invFun v := BitVec.ofNat (8 * k) (ofLittleEndian v.toList)
  left_inv x := by
    apply BitVec.eq_of_toNat_eq
    have hx : x.toNat < 256 ^ k := by
      rw [← two_pow_eight_mul]
      exact x.isLt
    rw [BitVec.toNat_ofNat, two_pow_eight_mul]
    change ofLittleEndian (littleEndian k x.toNat) % 256 ^ k = x.toNat
    rw [ofLittleEndian_littleEndian, Nat.mod_mod, Nat.mod_eq_of_lt hx]
  right_inv v := by
    apply List.Vector.eq
    have hv : ofLittleEndian v.toList < 256 ^ k := by
      simpa using ofLittleEndian_lt v.toList
    change littleEndian k (BitVec.ofNat (8 * k) (ofLittleEndian v.toList)).toNat = v.toList
    rw [BitVec.toNat_ofNat, two_pow_eight_mul, Nat.mod_eq_of_lt hv]
    simpa using littleEndian_ofLittleEndian v.toList

@[simp]
theorem toList_leEquiv (k : ℕ) (x : BitVec (8 * k)) :
    (leEquiv k x).toList = littleEndian k x.toNat := rfl

/-- Byte arrays of one length are told apart by their big-endian values. -/
theorem ofBigEndian_injective (k : ℕ) :
    Function.Injective fun v : FixedBytes k => ofBigEndian v.toList := by
  intro v w h
  have hv := littleEndian_ofLittleEndian v.toList.reverse
  have hw := littleEndian_ofLittleEndian w.toList.reverse
  rw [List.length_reverse, List.Vector.toList_length] at hv hw
  have heq : ofLittleEndian v.toList.reverse = ofLittleEndian w.toList.reverse := h
  rw [heq, hw] at hv
  exact List.Vector.eq _ _ (List.reverse_injective hv.symm)

/-- Every number below `256 ^ k` is the big-endian value of a byte array of length `k`. -/
theorem exists_ofBigEndian {k n : ℕ} (h : n < 256 ^ k) :
    ∃ v : FixedBytes k, ofBigEndian v.toList = n := by
  refine ⟨⟨(littleEndian k n).reverse, by simp⟩, ?_⟩
  change ofLittleEndian (littleEndian k n).reverse.reverse = n
  rw [List.reverse_reverse, ofLittleEndian_littleEndian, Nat.mod_eq_of_lt h]

/-! ## Compact integers -/

/-- Read `k` bytes as a little-endian integer. -/
def readLE (k : ℕ) (input : Bytes) : Option (ℕ × Bytes) :=
  (FixedBytes.take? k input).map fun p => (ofLittleEndian p.1.toList, p.2)

theorem readLE_append {k n : ℕ} (h : n < 256 ^ k) (rest : Bytes) :
    readLE k (littleEndian k n ++ rest) = some (n, rest) := by
  have htake := FixedBytes.take?_append
    (⟨littleEndian k n, length_littleEndian k n⟩ : FixedBytes k) rest
  change FixedBytes.take? k (littleEndian k n ++ rest) = _ at htake
  rw [readLE, htake, Option.map_some]
  change some (ofLittleEndian (littleEndian k n), rest) = some (n, rest)
  rw [ofLittleEndian_littleEndian, Nat.mod_eq_of_lt h]

theorem readLE_eq_some {k n : ℕ} {input rest : Bytes} (h : readLE k input = some (n, rest)) :
    n < 256 ^ k ∧ input = littleEndian k n ++ rest := by
  obtain ⟨⟨v, r⟩, hv, heq⟩ := Option.map_eq_some_iff.mp h
  obtain ⟨rfl, rfl⟩ := Prod.ext_iff.mp heq
  refine ⟨by simpa using ofLittleEndian_lt v.toList, ?_⟩
  have hle : littleEndian k (ofLittleEndian v.toList) = v.toList := by
    simpa using littleEndian_ofLittleEndian v.toList
  rw [hle]
  exact FixedBytes.take?_eq_some hv

/-- `Compact<u32>`: one, two or four bytes holding the number shifted left by two above a mode of
`0`, `1` or `2`, or a byte `3` followed by the number on four bytes. -/
def encodeCompact (n : ℕ) : Option Bytes :=
  if n < 2 ^ 6 then some (littleEndian 1 (4 * n))
  else if n < 2 ^ 14 then some (littleEndian 2 (4 * n + 1))
  else if n < 2 ^ 30 then some (littleEndian 4 (4 * n + 2))
  else if n < 2 ^ 32 then some (littleEndian 1 3 ++ littleEndian 4 n)
  else none

/-- Keep a number that is not too small for the mode it was read in. -/
def requireAtLeast (lower : ℕ) (p : ℕ × Bytes) : Option (ℕ × Bytes) :=
  if lower ≤ p.1 then some p else none

/-- Read a compact integer, refusing a longer form than the number needs. -/
def decodeCompact (input : Bytes) : Option (ℕ × Bytes) := do
  let (first, rest) ← readLE 1 input
  if first % 4 = 0 then return (first / 4, rest)
  else if first % 4 = 1 then do
    let (x, rest) ← readLE 2 input
    requireAtLeast (2 ^ 6) (x / 4, rest)
  else if first % 4 = 2 then do
    let (x, rest) ← readLE 4 input
    requireAtLeast (2 ^ 14) (x / 4, rest)
  else if first / 4 = 0 then do
    let (x, rest) ← readLE 4 rest
    requireAtLeast (2 ^ 30) (x, rest)
  -- a number of more than four bytes is no `u32`
  else none

/-- The first byte of a little-endian integer is the integer modulo `256`. -/
theorem readLE_one_littleEndian {k : ℕ} (hk : 0 < k) (n : ℕ) (rest : Bytes) :
    ∃ rest', readLE 1 (littleEndian k n ++ rest) = some (n % 256, rest') := by
  obtain ⟨k, rfl⟩ := Nat.exists_eq_succ_of_ne_zero hk.ne'
  refine ⟨littleEndian k (n / 256) ++ rest, ?_⟩
  have hfin : Fin.ofNat 256 (n % 256) = Fin.ofNat 256 n := Fin.ext (Nat.mod_mod n 256)
  have h := readLE_append (k := 1) (n := n % 256) (by omega) (littleEndian k (n / 256) ++ rest)
  rw [littleEndian, hfin] at h
  rw [littleEndian]
  exact h

theorem decodeCompact_encodeCompact {n : ℕ} {bytes : Bytes} (h : encodeCompact n = some bytes)
    (rest : Bytes) : decodeCompact (bytes ++ rest) = some (n, rest) := by
  unfold encodeCompact at h
  split_ifs at h with h6 h14 h30 h32
  -- one case for each mode; the first byte read shows which one it is
  · obtain rfl := Option.some.inj h
    rw [decodeCompact, readLE_append (by omega)]
    have hmode : 4 * n % 4 = 0 := by omega
    have hval : 4 * n / 4 = n := by omega
    simp [hmode, hval]
  · obtain rfl := Option.some.inj h
    obtain ⟨rest', hfirst⟩ := readLE_one_littleEndian (by norm_num : 0 < 2) (4 * n + 1) rest
    have hmode : (4 * n + 1) % 256 % 4 = 1 := by omega
    have hval : (4 * n + 1) / 4 = n := by omega
    rw [decodeCompact, hfirst]
    simp only [Option.bind_eq_bind, Option.bind_some, hmode, one_ne_zero, if_false, if_true]
    rw [readLE_append (show 4 * n + 1 < 256 ^ 2 by omega), Option.bind_some, hval, requireAtLeast,
      if_pos (not_lt.mp h6)]
  · obtain rfl := Option.some.inj h
    obtain ⟨rest', hfirst⟩ := readLE_one_littleEndian (by norm_num : 0 < 4) (4 * n + 2) rest
    have hmode : (4 * n + 2) % 256 % 4 = 2 := by omega
    have hval : (4 * n + 2) / 4 = n := by omega
    rw [decodeCompact, hfirst]
    simp only [Option.bind_eq_bind, Option.bind_some, hmode, OfNat.ofNat_ne_zero,
      OfNat.ofNat_ne_one, if_false, if_true]
    rw [readLE_append (show 4 * n + 2 < 256 ^ 4 by omega), Option.bind_some, hval, requireAtLeast,
      if_pos (not_lt.mp h14)]
  · obtain rfl := Option.some.inj h
    -- the first byte holds nothing but the mode
    have hmode : ¬ 3 % 4 = 0 ∧ ¬ 3 % 4 = 1 ∧ ¬ 3 % 4 = 2 ∧ 3 / 4 = 0 := by decide
    rw [decodeCompact, List.append_assoc, readLE_append (by norm_num : 3 < 256 ^ 1)]
    simp only [Option.bind_eq_bind, Option.bind_some, hmode, if_false, if_true]
    rw [readLE_append (show n < 256 ^ 4 by omega), Option.bind_some, requireAtLeast,
      if_pos (not_lt.mp h30)]

theorem requireAtLeast_eq_some {lower n : ℕ} {p : ℕ × Bytes} {rest : Bytes}
    (h : requireAtLeast lower p = some (n, rest)) : p = (n, rest) ∧ lower ≤ n := by
  unfold requireAtLeast at h
  split_ifs at h with hle
  obtain rfl := Option.some.inj h
  exact ⟨rfl, hle⟩

/-- Reading an integer and keeping the number it stands for when that is not too small. -/
theorem readLE_requireAtLeast {k lower n : ℕ} (value : ℕ → ℕ) {input rest : Bytes}
    (h : ((readLE k input).bind fun p => requireAtLeast lower (value p.1, p.2)) = some (n, rest)) :
    ∃ x, n = value x ∧ lower ≤ value x ∧ readLE k input = some (x, rest) := by
  obtain ⟨⟨x, afterX⟩, hx, h⟩ := Option.bind_eq_some_iff.mp h
  obtain ⟨heq, hlow⟩ := requireAtLeast_eq_some h
  obtain ⟨rfl, rfl⟩ := Prod.mk.inj heq
  exact ⟨x, rfl, hlow, hx⟩

theorem encodeCompact_of_decodeCompact {n : ℕ} {input rest : Bytes}
    (h : decodeCompact input = some (n, rest)) :
    ∃ bytes, encodeCompact n = some bytes ∧ input = bytes ++ rest := by
  obtain ⟨⟨first, afterFirst⟩, hfirst, h⟩ := Option.bind_eq_some_iff.mp h
  obtain ⟨hlt, hinput⟩ := readLE_eq_some hfirst
  -- in the two- and four-byte modes the number is read again from the first byte on
  have hmode : ∀ {k x : ℕ} {rest' : Bytes}, 0 < k → readLE k input = some (x, rest') →
      x % 256 = first := by
    intro k x rest' hk hx
    obtain ⟨-, hx⟩ := readLE_eq_some hx
    obtain ⟨rest'', h1⟩ := readLE_one_littleEndian hk x rest'
    rw [← hx, hfirst, Option.some.injEq, Prod.mk.injEq] at h1
    exact h1.1.symm
  dsimp only at h
  -- the bound checked in each mode is the one below which the encoder takes a shorter form
  split_ifs at h with h0 h1 h2 h3
  · obtain ⟨rfl, rfl⟩ := Prod.ext_iff.mp (Option.some.inj h)
    have hval : 4 * (first / 4) = first := by omega
    exact ⟨littleEndian 1 first, by simp [encodeCompact, show first / 4 < 64 by omega, hval],
      hinput⟩
  · obtain ⟨x, rfl, hlow, hx⟩ := readLE_requireAtLeast (fun x => x / 4) h
    obtain ⟨hxlt, hxinput⟩ := readLE_eq_some hx
    have hxmod := hmode (by norm_num) hx
    have hval : 4 * (x / 4) + 1 = x := by omega
    refine ⟨littleEndian 2 x, ?_, hxinput⟩
    simp only [encodeCompact, if_neg (show ¬ x / 4 < 2 ^ 6 by omega),
      if_pos (show x / 4 < 2 ^ 14 by omega), hval]
  · obtain ⟨x, rfl, hlow, hx⟩ := readLE_requireAtLeast (fun x => x / 4) h
    obtain ⟨hxlt, hxinput⟩ := readLE_eq_some hx
    have hxmod := hmode (by norm_num) hx
    have hval : 4 * (x / 4) + 2 = x := by omega
    refine ⟨littleEndian 4 x, ?_, hxinput⟩
    simp only [encodeCompact, if_neg (show ¬ x / 4 < 2 ^ 6 by omega),
      if_neg (show ¬ x / 4 < 2 ^ 14 by omega), if_pos (show x / 4 < 2 ^ 30 by omega), hval]
  · obtain ⟨_, rfl, hlow, hx⟩ := readLE_requireAtLeast (fun x => x) h
    obtain ⟨hxlt, rfl⟩ := readLE_eq_some hx
    -- the mode is `3` and the rest of the byte is zero
    have hfirst3 : first = 3 := by omega
    subst hfirst3
    refine ⟨littleEndian 1 3 ++ littleEndian 4 n, ?_, by rw [hinput, List.append_assoc]⟩
    simp only [encodeCompact, if_neg (show ¬ n < 2 ^ 6 by omega),
      if_neg (show ¬ n < 2 ^ 14 by omega), if_neg (show ¬ n < 2 ^ 30 by omega),
      if_pos (show n < 2 ^ 32 by omega)]

/-- The numbers with a compact form are the `u32`. -/
theorem exists_encodeCompact_iff {n : ℕ} :
    (∃ bytes, encodeCompact n = some bytes) ↔ n < 2 ^ 32 := by
  unfold encodeCompact
  refine ⟨?_, ?_⟩
  · rintro ⟨bytes, h⟩
    split_ifs at h <;> omega
  · intro h
    split_ifs
    all_goals exact ⟨_, rfl⟩

/-- The compact form of a `u32`, which starts the encoding of a vector. -/
def compactU32 : Codec ℕ where
  encode := encodeCompact
  decode := decodeCompact
  decode_encode := decodeCompact_encodeCompact
  encode_of_decode := encodeCompact_of_decodeCompact

/-- A vector is its compact length followed by its elements. -/
def vec {α : Type} (c : Codec α) : Codec (List α) := Codec.vec compactU32 c

/-- A vector of elements that all have an encoding has one itself unless it is too long. -/
theorem exists_encode_vec_iff {α : Type} {c : Codec α} (h : ∀ a, ∃ x, c.encode a = some x)
    {as : List α} : (∃ bytes, (vec c).encode as = some bytes) ↔ as.length < 2 ^ 32 := by
  rw [← exists_encodeCompact_iff]
  refine ⟨?_, ?_⟩
  · rintro ⟨bytes, hbytes⟩
    obtain ⟨x, -, hx, -, -⟩ := Codec.encode_vec_eq_some.mp hbytes
    exact ⟨x, hx⟩
  · rintro ⟨x, hx⟩
    obtain ⟨y, hy⟩ := Codec.exists_encodeAll h as
    exact ⟨x ++ y, Codec.encode_vec_eq_some.mpr ⟨x, y, hx, hy, rfl⟩⟩

/-- A single byte. -/
def byte : Codec Byte :=
  Codec.fixed (n := 1)
    { toFun := fun b => ⟨[b], rfl⟩
      invFun := fun v => v.head
      left_inv := fun _ => rfl
      right_inv := fun
        | ⟨[_], _⟩ => rfl }

/-- `Vec<u8>`: a length-prefixed byte string. -/
def bytes : Codec Bytes := vec byte

theorem encodeAll_byte (bs : Bytes) : byte.encodeAll bs = some bs := by
  induction bs with
  | nil => rfl
  | cons b bs ih =>
    -- a byte encodes to itself
    change (byte.encodeAll bs).bind (fun xs => some ([b] ++ xs)) = some (b :: bs)
    rw [ih]
    rfl

end Scale
